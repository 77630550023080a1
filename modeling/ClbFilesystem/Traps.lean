import ClbFilesystem.Entry
/-!
# What an exception leaves of the program it interrupts

Each way through `entry.S`, for any C code behind it that returns with the stack
above it, the table of system calls and the interrupt mask as they were. Once
interrupts are enabled they may come between any two instructions, and other
tasks run in them.
-/

namespace ClbFilesystem

open Lib Exceptions A64

/-! ## What the C code keeps -/

/-- The bytes of `sys_call_table`. -/
def InTable (env : Env Symbol) (a : BitVec 64) : Prop := (a - env.addr .sys_call_table).toNat < 8 * __NR_syscalls

/-- The bytes of a kernel stack that ends at `top`, from `sp` up. -/
def OnStack (top sp a : BitVec 64) : Prop := (a - sp).toNat < (top - sp).toNat

/-- How a function of C returns to `entry.S`. -/
structure KeepsStack (env : Env Symbol) (top : BitVec 64) (c c' : Processor) : Prop where
  sp : c'.sp = c.sp
  masked : c'.masked = c.masked
  mem : ∀ a, OnStack top c.sp a ∨ InTable env a → c'.mem a = c.mem a

/-- `s` returns so wherever it is called. -/
def Clean (env : Env Symbol) (top : BitVec 64) (s : Symbol) : Prop := ∀ c c', env.call s c c' → KeepsStack env top c c'

/-- An interrupt of the kernel, from the exception to its return. -/
def Interrupt (env : Env Symbol) (c c' : Processor) : Prop := Resumes code env (code .el1_irq) c.except c'

/-- The kernel goes on as it was interrupted. System registers and other memory may have changed. -/
structure Untouched (env : Env Symbol) (top : BitVec 64) (c c' : Processor) : Prop where
  context : kernelContext c' = kernelContext c
  mem : ∀ a, OnStack top c.sp a ∨ InTable env a → c'.mem a = c.mem a

/-- There is room for a frame below `sp`, and the table is not there. -/
structure Room (env : Env Symbol) (top sp : BitVec 64) : Prop where
  depth : (top - sp).toNat + S_FRAME_SIZE < 2 ^ 64
  table : ∀ a, InTable env a → S_FRAME_SIZE ≤ (a - (sp - imm S_FRAME_SIZE)).toNat

variable {env : Env Symbol} {top : BitVec 64} {c c' : Processor}

namespace Untouched

theorem refl : Untouched env top c c := ⟨rfl, fun _ _ => rfl⟩

theorem reg (h : Untouched env top c c') : c'.reg = c.reg := congrArg Context.reg h.context
theorem sp (h : Untouched env top c c') : c'.sp = c.sp := congrArg Context.sp h.context
theorem pstate (h : Untouched env top c c') : c'.pstate = c.pstate := congrArg Context.pstate h.context

theorem trans {c'' : Processor} (h : Untouched env top c c') (h' : Untouched env top c' c'') : Untouched env top c c'' := by
  refine ⟨h'.context.trans h.context, fun a ha => ?_⟩
  rw [h'.mem a (by rwa [h.sp]), h.mem a ha]

end Untouched

/-! ## Frames -/

/-- The state behind `kernel_entry`. -/
structure Entered (el : Nat) (c e : Processor) : Prop where
  masked : e.masked = c.masked
  sp : e.sp = c.sp - imm S_FRAME_SIZE
  frame : HoldsWords e.mem e.sp (saved el c).words
  reg : ∀ r, r ∉ [Reg.x21, .x22, .x23] → e.reg r = c.reg r
  sys : e.sys = c.sys
  mem : ∀ a, S_FRAME_SIZE ≤ (a - e.sp).toNat → e.mem a = c.mem a

theorem kernel_entry_entered (el : Nat) (c : Processor) : Entered el c (execs (kernel_entry el) c) := by
  have hlen := (saved el c).words_length
  have hmasked := execs_masked (kernel_entry el) c
  rw [kernel_entry_exec] at hmasked ⊢
  refine ⟨hmasked, rfl, holds_storeWords (by omega), fun r hr => ?_, rfl, fun a ha => storeWords_of_ge ?_⟩
  · simp only [List.mem_cons, List.not_mem_nil, or_false, not_or] at hr
    simp only [hr, if_false]
  · rw [hlen]
    exact ha

/-- The state behind `kernel_exit` and `eret`. -/
def left (el : Nat) (c : Processor) (x : Context) : Processor :=
  { c with
    reg := x.reg
    sp := c.sp + imm S_FRAME_SIZE
    sys := Function.update (Function.update (if el = 0 then Function.update c.sys .sp_el0 x.sp else c.sys) .elr_el1 x.pc) .spsr_el1 x.pstate
    pc := x.pc
    pstate := x.pstate }

theorem left_context (x : Context) : userContext (left 0 c x) = x := by
  simp [userContext, left]

/-- A frame survives what keeps the stack above it. -/
theorem KeepsStack.frame {x : Context} (h : KeepsStack env top c c') (hroom : S_FRAME_SIZE ≤ (top - c.sp).toNat)
    (hx : HoldsWords c.mem c.sp x.words) :
    HoldsWords c'.mem c'.sp x.words := by
  have hlen := x.words_length
  rw [h.sp]
  refine hx.congr (by omega) fun b hb => h.mem b (.inl ?_)
  rw [hlen] at hb
  exact Nat.lt_of_lt_of_le hb hroom

section Leave
variable {irq : Processor → Processor → Prop} {Q : Code → Processor → Prop} {x : Context}

theorem leads_enter {el : Nat} {body : Code} (hm : c.masked = true) (h : ∀ e, Entered el c e → LeadsTo code env irq Q body e) :
    LeadsTo code env irq Q (enter el body) c :=
  LeadsTo.ops _ hm (h _ (kernel_entry_entered el c))

theorem leads_leave {el : Nat} (hm : c.masked = true) (hx : HoldsWords c.mem c.sp x.words) (h : Q [] (left el c x)) :
    LeadsTo code env irq Q (leave el) c := by
  have hm' := (execs_masked (kernel_exit el) c).trans hm
  refine LeadsTo.ops _ hm (LeadsTo.masked hm' ⟨_, _, rfl, rfl⟩ fun is' c' hs => ?_)
  obtain ⟨rfl, rfl⟩ := hs
  rw [kernel_exit_exec el hx]
  refine LeadsTo.here ?_
  simpa [left] using h

theorem resumes_leave {el : Nat} (hx : HoldsWords c.mem c.sp x.words) (h : Resumes code env (leave el) c c') : c' = left el c x := by
  rw [h.of_ops.of_eret, kernel_exit_exec el hx]
  simp [left]

end Leave

/-! ## Interrupts -/

/-- Behind `kernel_entry` there is a frame's room below `top` more than before. -/
theorem Room.depth_sub {sp : BitVec 64} (h : Room env top sp) :
    (top - (sp - imm S_FRAME_SIZE)).toNat = (top - sp).toNat + S_FRAME_SIZE := by
  have hd := h.depth
  unfold imm S_FRAME_SIZE at *
  bv_omega

theorem Room.onStack {sp a : BitVec 64} (h : Room env top sp) (ha : OnStack top sp a) :
    (a - (sp - imm S_FRAME_SIZE)).toNat = (a - sp).toNat + S_FRAME_SIZE := by
  have hd := h.depth
  unfold OnStack at ha
  unfold imm S_FRAME_SIZE at *
  bv_omega

/-- A byte above `sp` is above the frame. -/
theorem Room.above {sp a : BitVec 64} (h : Room env top sp) (ha : OnStack top sp a ∨ InTable env a) :
    S_FRAME_SIZE ≤ (a - (sp - imm S_FRAME_SIZE)).toNat ∧ (OnStack top (sp - imm S_FRAME_SIZE) a ∨ InTable env a) := by
  have hdepth := h.depth_sub
  rcases ha with ha | ha
  · have hsub := h.onStack ha
    unfold OnStack at ha ⊢
    exact ⟨by omega, .inl (by omega)⟩
  · exact ⟨h.table a ha, .inr ha⟩

/-- After `handle_irq` the frame is as `kernel_entry` left it, and what lies above is as it was. -/
theorem Entered.handled {el : Nat} {e c₁ : Processor} {ra : BitVec 64} (he : Entered el c.except e) (hroom : Room env top c.sp)
    (hk : KeepsStack env top (e.setReg .x30 ra) c₁) : HoldsWords c₁.mem c₁.sp (saved el c.except).words ∧ c₁.sp = c.sp - imm S_FRAME_SIZE ∧
      ∀ a, OnStack top c.sp a ∨ InTable env a → c₁.mem a = c.mem a := by
  have hsp : (e.setReg .x30 ra).sp = c.sp - imm S_FRAME_SIZE := he.sp
  have hdepth := hroom.depth_sub
  refine ⟨hk.frame (by rw [hsp]; omega) he.frame, hk.sp.trans hsp, fun a ha => ?_⟩
  obtain ⟨hframe, habove⟩ := hroom.above ha
  have hcalled := hk.mem a (by rwa [hsp])
  have hentered := he.mem a (by rwa [he.sp])
  exact hcalled.trans hentered

/-- An interrupt handled by code that keeps the stack above it leaves what was interrupted as it was. -/
theorem irq_spec {el : Nat} (hirq : Clean env top .handle_irq) (hroom : Room env top c.sp)
    (h : Resumes code env (enter el (.bl .handle_irq :: leave el)) c.except c') :
    ∃ c₀ c₁, c₀.sys = c.except.sys ∧ env.call .handle_irq c₀ c₁ ∧ c' = left el c₁ (saved el c.except) ∧
      c₁.sp = c.sp - imm S_FRAME_SIZE ∧ ∀ a, OnStack top c.sp a ∨ InTable env a → c₁.mem a = c.mem a := by
  have hent := kernel_entry_entered el c.except
  obtain ⟨ra, c₁, hcall, hr⟩ := h.of_ops.of_bl
  obtain ⟨hframe, hsp, hmem⟩ := hent.handled hroom (hirq _ _ hcall)
  exact ⟨(execs (kernel_entry el) c.except).setReg .x30 ra, c₁, hent.sys, hcall, resumes_leave hframe hr, hsp, hmem⟩

/-- An interrupt of the kernel is not noticed by the code it interrupts. -/
theorem Interrupt.untouched (hirq : Clean env top .handle_irq) (hroom : Room env top c.sp) (h : Interrupt env c c') :
    Untouched env top c c' := by
  obtain ⟨-, c₁, -, -, rfl, hsp, hmem⟩ := irq_spec hirq hroom h
  refine ⟨?_, hmem⟩
  have hback : c.sp - imm S_FRAME_SIZE + imm S_FRAME_SIZE = c.sp := BitVec.sub_add_cancel _ _
  simp only [kernelContext, left, hsp, hback]
  rfl

/-- Between two instructions of the kernel interrupts are not noticed. -/
theorem untouched_stable (hirq : Clean env top .handle_irq) (hroom : Room env top c.sp) :
    ∀ c₁ c₂, c₁.masked = false → Untouched env top c c₁ → Interrupt env c₁ c₂ → Untouched env top c c₂ := by
  intro c₁ c₂ _ h hint
  exact h.trans (hint.untouched hirq (by rwa [h.sp]))

/-! ## Synchronous exceptions -/

/-- The kernel works for the program at EL0 that it was entered from in `u`, with the context `x` in the frame. -/
structure Serving (env : Env Symbol) (u : Processor) (x : Context) (c : Processor) : Prop where
  sp : c.sp = u.sp - imm S_FRAME_SIZE
  frame : HoldsWords c.mem c.sp x.words
  table : ∀ a, InTable env a → c.mem a = u.mem a

/-- The kernel stack has room for the frame of the program, and for that of an interrupt below it. -/
structure Stack (env : Env Symbol) (sp : BitVec 64) : Prop where
  table : ∀ a, InTable env a → 2 * S_FRAME_SIZE ≤ (a - (sp - imm (2 * S_FRAME_SIZE))).toNat

section Serving
variable {u : Processor} {x : Context} {irq : Processor → Processor → Prop} {Q : Code → Processor → Prop} {is : Code}

theorem Stack.room (h : Stack env u.sp) : Room env u.sp (u.sp - imm S_FRAME_SIZE) := by
  refine ⟨?_, fun a ha => ?_⟩
  · unfold imm S_FRAME_SIZE
    bv_omega
  · have ht := h.table a ha
    unfold imm S_FRAME_SIZE at *
    bv_omega

theorem frame_on_stack (hsp : c.sp = u.sp - imm S_FRAME_SIZE) : S_FRAME_SIZE ≤ (u.sp - c.sp).toNat := by
  rw [hsp]
  unfold imm S_FRAME_SIZE
  bv_omega

namespace Serving

theorem keeps (h : Serving env u x c) (hk : KeepsStack env u.sp c c') : Serving env u x c' :=
  ⟨hk.sp.trans h.sp, hk.frame (frame_on_stack h.sp) h.frame, fun a ha => (hk.mem a (.inr ha)).trans (h.table a ha)⟩

theorem untouched (h : Serving env u x c) (hu : Untouched env u.sp c c') : Serving env u x c' :=
  h.keeps ⟨hu.sp, congrArg (BitVec.getLsbD · 7) hu.pstate, hu.mem⟩

/-- Instructions that leave `sp` and memory alone. -/
theorem congr (h : Serving env u x c) (hsp : c'.sp = c.sp) (hmem : c'.mem = c.mem) : Serving env u x c' :=
  ⟨hsp.trans h.sp, by rw [hsp, hmem]; exact h.frame, fun a ha => by rw [hmem, h.table a ha]⟩

end Serving

/-- What `kernel_entry` leaves after a synchronous exception. -/
theorem Entered.serving {esr far : BitVec 64} (hstack : Stack env u.sp) (h : Entered 0 (u.sync esr far) c) :
    Serving env u (userContext u) c := by
  refine ⟨h.sp, h.frame, fun a ha => ?_⟩
  have ht := hstack.table a ha
  refine h.mem a ?_
  rw [h.sp]
  change S_FRAME_SIZE ≤ (a - (u.sp - imm S_FRAME_SIZE)).toNat
  unfold imm S_FRAME_SIZE at *
  bv_omega

/-- One instruction of the kernel, with interrupts before it. -/
theorem leads_next (hirq : Clean env u.sp .handle_irq) (hstack : Stack env u.sp) (hs : Serving env u x c)
    (hgoes : ∀ c₁, Untouched env u.sp c c₁ → ∃ is' c', Step code env is c₁ is' c')
    (hnext : ∀ c₁ is' c', Untouched env u.sp c c₁ → Serving env u x c₁ → Step code env is c₁ is' c' →
      LeadsTo code env (Interrupt env) Q is' c') : LeadsTo code env (Interrupt env) Q is c :=
  LeadsTo.next (Untouched env u.sp c) (untouched_stable hirq (by rw [hs.sp]; exact hstack.room)) .refl hgoes
    fun c₁ is' c' hu => hnext c₁ is' c' hu (hs.untouched hu)

/-- `bl enable_irq` -/
theorem leads_enable_irq (hm : c.masked = true) (h : ∀ ra, LeadsTo code env irq Q is
    { c.setReg .x30 ra with pstate := c.pstate &&& ~~~0x80#64 }) : LeadsTo code env irq Q (.bl_leaf .enable_irq :: is) c := by
  refine LeadsTo.masked hm ⟨_, _, rfl, 0, rfl⟩ fun is' c' hs => ?_
  obtain ⟨rfl, ra, rfl⟩ := hs
  refine LeadsTo.masked (c := c.setReg .x30 ra) hm ⟨_, _, rfl, rfl⟩ fun is' c' hs => ?_
  obtain ⟨rfl, rfl⟩ := hs
  exact h ra

/-- `bl disable_irq`: behind it interrupts are masked, and nothing but `x30` and the flags has changed. -/
theorem leads_disable_irq (hirq : Clean env u.sp .handle_irq) (hstack : Stack env u.sp) (hs : Serving env u x c)
    (h : ∀ c₁, Serving env u x c₁ → c₁.masked = true → (∀ r ≠ .x30, c₁.reg r = c.reg r) → LeadsTo code env (Interrupt env) Q is c₁) :
    LeadsTo code env (Interrupt env) Q (.bl_leaf .disable_irq :: is) c := by
  refine leads_next hirq hstack hs (fun c₁ _ => ⟨_, _, rfl, 0, rfl⟩) fun c₁ is' c' hu hs₁ hstep => ?_
  obtain ⟨rfl, ra, rfl⟩ := hstep
  refine leads_next hirq hstack (hs₁.congr rfl rfl) (fun c₁ _ => ⟨_, _, rfl, rfl⟩) fun c₂ is' c' hu₂ hs₂ hstep => ?_
  obtain ⟨rfl, rfl⟩ := hstep
  refine h _ (hs₂.congr rfl rfl) (by simp [Processor.masked]) fun r hr => ?_
  have h2 : c₂.reg r = (c₁.setReg .x30 ra).reg r := congrFun hu₂.reg r
  rw [Processor.setReg_reg, if_neg hr, congrFun hu.reg r] at h2
  exact h2

/-- The state in which `el0_sync` goes to one of its branches. -/
structure Dispatched (env : Env Symbol) (u : Processor) (esr far : BitVec 64) (c : Processor) : Prop where
  serving : Serving env u (userContext u) c
  masked : c.masked = true
  reg : ∀ r, r ∉ [Reg.x21, .x22, .x23, .x24, .x25] → c.reg r = u.reg r
  esr : c.sys .esr_el1 = esr
  far : c.sys .far_el1 = far

/-- The instructions before the first branch of `el0_sync`. -/
def readClass : List Op := [.mrs .x25 .esr_el1, .lsr .x24 .x25 ESR_ELx_EC_SHIFT, .cmpi .x24 ESR_ELx_EC_SVC64]

/-- They leave the exception class in `x24`, and have compared it with that of system calls. -/
theorem readClass_exec (e : Processor) : (execs readClass e).z = decide (e.sys .esr_el1 >>> 26 = 0x15#64) ∧
    (execs readClass e).reg .x24 = e.sys .esr_el1 >>> 26 ∧ (execs readClass e).sys = e.sys ∧ (execs readClass e).sp = e.sp ∧
    (execs readClass e).mem = e.mem ∧ ∀ r, r ∉ [Reg.x24, .x25] → (execs readClass e).reg r = e.reg r := by
  simp only [readClass, execs_cons, execs_nil, Op.exec, Processor.compare_z, Processor.setReg_reg, if_true]
  refine ⟨rfl, rfl, rfl, rfl, rfl, fun r hr => ?_⟩
  simp only [List.mem_cons, List.not_mem_nil, or_false, not_or] at hr
  simp only [Processor.compare_reg, Processor.setReg_reg, hr, if_false]

/-- The second comparison. -/
theorem compareAbort_z (c : Processor) : ((Op.cmpi .x24 ESR_ELx_EC_DABT_LOW).exec c).z = decide (c.reg .x24 = 0x24#64) := by
  simp only [Op.exec, Processor.compare_z]
  rfl

/-- `el0_sync` goes by the exception class. -/
theorem leads_el0_sync {esr far : BitVec 64} (hstack : Stack env u.sp)
    (hsvc : esr >>> 26 = 0x15#64 → ∀ c, Dispatched env u esr far c → LeadsTo code env irq Q (code .el0_svc) c)
    (hda : esr >>> 26 = 0x24#64 → ∀ c, Dispatched env u esr far c → LeadsTo code env irq Q (code .el0_da) c)
    (hinvalid : esr >>> 26 ≠ 0x15#64 → esr >>> 26 ≠ 0x24#64 → ∀ c, Serving env u (userContext u) c → c.masked = true →
      LeadsTo code env irq Q (handle_invalid_entry 0 SYNC_ERROR) c) :
    LeadsTo code env irq Q (code .el0_sync) (u.sync esr far) := by
  have hm : (u.sync esr far).masked = true := Processor.except_masked u
  refine leads_enter hm fun e he => ?_
  have hem : e.masked = true := he.masked.trans hm
  have hes := he.serving hstack
  have hesr : e.sys .esr_el1 = esr := by rw [he.sys]; rfl
  have hfar : e.sys .far_el1 = far := by rw [he.sys]; rfl
  refine LeadsTo.ops readClass hem ?_
  obtain ⟨hz, h24, hsys, hsp, hmem, hother⟩ := readClass_exec e
  have hcm : (execs readClass e).masked = true := by rw [execs_masked, hem]
  generalize execs readClass e = c at hz h24 hsys hsp hmem hother hcm
  rw [hesr] at hz h24
  have hserving : Serving env u (userContext u) c := hes.congr hsp hmem
  have hreg : ∀ r, r ∉ [Reg.x21, .x22, .x23, .x24, .x25] → c.reg r = u.reg r := by
    intro r hr
    simp only [List.mem_cons, List.not_mem_nil, or_false, not_or] at hr
    rw [hother r (by simp [hr])]
    exact he.reg r (by simp [hr])
  refine LeadsTo.masked hcm ⟨_, _, rfl, rfl⟩ fun is' c' hs => ?_
  obtain ⟨rfl, rfl⟩ := hs
  by_cases h15 : esr >>> 26 = 0x15#64
  · rw [if_pos (by rw [hz]; exact decide_eq_true h15)]
    exact hsvc h15 c' ⟨hserving, hcm, hreg, by rw [hsys, hesr], by rw [hsys, hfar]⟩
  · rw [if_neg (by rw [hz]; simpa using h15)]
    refine LeadsTo.ops [.cmpi .x24 ESR_ELx_EC_DABT_LOW] hcm ?_
    have hz' : (execs [.cmpi .x24 ESR_ELx_EC_DABT_LOW] c').z = decide (esr >>> 26 = 0x24#64) := by
      rw [← h24]
      exact compareAbort_z c'
    have hcm' : (execs [.cmpi .x24 ESR_ELx_EC_DABT_LOW] c').masked = true := by rw [execs_masked, hcm]
    refine LeadsTo.masked hcm' ⟨_, _, rfl, rfl⟩ fun is' c'' hs => ?_
    obtain ⟨rfl, rfl⟩ := hs
    by_cases h24' : esr >>> 26 = 0x24#64
    · rw [if_pos (by rw [hz']; exact decide_eq_true h24')]
      exact hda h24' _ ⟨hserving.congr rfl rfl, hcm', hreg, by simp [Op.exec, Processor.compare, hsys, hesr],
        by simp [Op.exec, Processor.compare, hsys, hfar]⟩
    · rw [if_neg (by rw [hz']; simpa using h24')]
      exact hinvalid h15 h24' _ (hserving.congr rfl rfl) hcm'

/-! ## System calls -/

/-- The argument registers. -/
def args : List Reg := [.x0, .x1, .x2, .x3, .x4, .x5, .x6, .x7]

/-- The number in `w8`. -/
def callNumber (u : Processor) : BitVec 64 := ((u.reg .x8).setWidth 32).setWidth 64

/-- The table is in memory, and no two symbols have one address. -/
structure Linked (env : Env Symbol) (u : Processor) : Prop where
  table : HoldsWords u.mem (env.addr .sys_call_table) (sys_call_table.map fun s => env.addr (.sys s))
  inj : Function.Injective env.addr

/-- The word `ldr x16, [stbl, scno, lsl #3]` loads. -/
theorem Linked.routine {s : Sys} (h : Linked env u) (hs : Serving env u x c) (hn : sys_call_table[(callNumber u).toNat]? = some s) :
    loadWord c.mem (env.addr .sys_call_table + callNumber u <<< 3) = env.addr (.sys s) := by
  obtain ⟨hlt, hget⟩ := List.getElem?_eq_some_iff.1 hn
  have hlen : sys_call_table.length = __NR_syscalls := rfl
  have hlt' : (callNumber u).toNat < (sys_call_table.map fun s => env.addr (.sys s)).length := by rwa [List.length_map]
  have hword := h.table _ hlt'
  rw [List.getElem_map, hget] at hword
  have hidx : callNumber u <<< 3 = imm (8 * (callNumber u).toNat) := by
    rw [hlen] at hlt
    unfold imm __NR_syscalls at *
    apply BitVec.eq_of_toNat_eq
    rw [BitVec.toNat_shiftLeft, BitVec.toNat_ofNat, Nat.shiftLeft_eq]
    omega
  rw [hidx, ← hword]
  refine loadWord_congr fun k hk => hs.table _ ?_
  rw [hlen] at hlt
  unfold InTable imm __NR_syscalls at *
  bv_omega

/-- `el0_svc` comes to the call of the routine the number stands for, with the arguments in their registers, or to `ni_sys`. -/
theorem leads_el0_svc {esr far : BitVec 64} (hirq : Clean env u.sp .handle_irq) (hstack : Stack env u.sp) (hlink : Linked env u)
    (hd : Dispatched env u esr far c)
    (hcall : ∀ s, sys_call_table[(callNumber u).toNat]? = some s → ∀ c, Serving env u (userContext u) c →
      c.reg .x16 = env.addr (.sys s) → (∀ r ∈ args, c.reg r = u.reg r) →
      LeadsTo code env (Interrupt env) Q [.blr .x16, .b .ret_from_syscall] c)
    (hni : __NR_syscalls ≤ (callNumber u).toNat → ∀ c, LeadsTo code env (Interrupt env) Q (code .ni_sys) c) :
    LeadsTo code env (Interrupt env) Q (code .el0_svc) c := by
  refine LeadsTo.masked hd.masked ⟨_, _, rfl, rfl⟩ fun is' c' hs => ?_
  obtain ⟨rfl, rfl⟩ := hs
  refine LeadsTo.ops [.uxtw .x26 .x8, .movi .x25 __NR_syscalls] hd.masked ?_
  have hm : (execs [.uxtw .x26 .x8, .movi .x25 __NR_syscalls] (c.setReg .x27 (env.addr .sys_call_table))).masked = true := by
    rw [execs_masked]
    exact hd.masked
  refine leads_enable_irq hm fun ra => ?_
  -- From here on interrupts come.
  generalize hc₁ : ({ (execs [.uxtw .x26 .x8, .movi .x25 __NR_syscalls] (c.setReg .x27 (env.addr .sys_call_table))).setReg .x30 ra with
    pstate := _ } : Processor) = c₁
  have hs₁ : Serving env u (userContext u) c₁ := by
    rw [← hc₁]
    exact hd.serving.congr rfl rfl
  have h8 : c.reg .x8 = u.reg .x8 := hd.reg _ (by decide)
  have h25 : c₁.reg .x25 = imm __NR_syscalls := by
    rw [← hc₁]
    simp [Op.exec]
  have h26 : c₁.reg .x26 = callNumber u := by
    rw [← hc₁]
    simp [Op.exec, callNumber, h8]
  have h27 : c₁.reg .x27 = env.addr .sys_call_table := by
    rw [← hc₁]
    simp [Op.exec]
  have hargs : ∀ r ∈ args, c₁.reg r = u.reg r := by
    intro r hr
    have hr' : r ∉ [Reg.x21, .x22, .x23, .x24, .x25] ∧ r ≠ .x25 ∧ r ≠ .x26 ∧ r ≠ .x27 ∧ r ≠ .x30 := by
      revert r
      decide
    rw [← hc₁, ← hd.reg r hr'.1]
    simp [Op.exec, hr'.2]
  clear hc₁
  refine leads_next hirq hstack hs₁ (fun c _ => ⟨_, _, rfl, rfl⟩) fun c₂ is' c' hu₂ hs₂ hstep => ?_
  obtain ⟨rfl, rfl⟩ := hstep
  have hflag : ((Op.cmp .x26 .x25).exec c₂).c = decide (__NR_syscalls ≤ (callNumber u).toNat) := by
    simp only [Op.exec, Processor.compare_c, hu₂.reg, h25, h26]
    rfl
  refine leads_next hirq hstack (hs₂.congr rfl rfl) (fun c _ => ⟨_, _, rfl, rfl⟩) fun c₃ is' c' hu₃ hs₃ hstep => ?_
  obtain ⟨rfl, rfl⟩ := hstep
  have hflag₃ : c'.c = decide (__NR_syscalls ≤ (callNumber u).toNat) := by
    rw [← hflag, Processor.c, hu₃.pstate]
    rfl
  have hreg₃ : c'.reg = c₁.reg := by
    rw [hu₃.reg, ← hu₂.reg]
    rfl
  by_cases hn : __NR_syscalls ≤ (callNumber u).toNat
  · rw [if_pos (by rw [hflag₃]; exact decide_eq_true hn)]
    exact hni hn _
  · rw [if_neg (by rw [hflag₃]; simpa using hn)]
    have hlen : sys_call_table.length = __NR_syscalls := rfl
    obtain ⟨s, hs⟩ : ∃ s, sys_call_table[(callNumber u).toNat]? = some s :=
      ⟨_, List.getElem?_eq_getElem (by omega)⟩
    refine leads_next hirq hstack hs₃ (fun c _ => ⟨_, _, rfl, rfl⟩) fun c₄ is' c' hu₄ hs₄ hstep => ?_
    obtain ⟨rfl, rfl⟩ := hstep
    have hreg₄ : c₄.reg = c₁.reg := hu₄.reg.trans hreg₃
    refine hcall s hs _ (hs₄.congr rfl rfl) ?_ fun r hr => ?_
    · simp only [Op.exec, Processor.setReg_reg, if_true, hreg₄, h26, h27]
      exact hlink.routine hs₄ hs
    · have hr' : r ≠ .x16 := by
        revert r
        decide
      simp only [Op.exec, Processor.setReg_reg, hr', if_false, hreg₄]
      exact hargs r hr

/-- A context with a result in `x0`. -/
def Context.withResult (x : Context) (w : BitVec 64) : Context := { x with reg := Function.update x.reg .x0 w }

/-- `str x0, [sp, #S_X0]` in the frame. -/
theorem holds_withResult {mem : BitVec 64 → UInt8} {a w : BitVec 64} (h : HoldsWords mem a x.words) :
    HoldsWords (storeWord mem a w) a (x.withResult w).words := by
  obtain ⟨ws, hws, hws'⟩ : ∃ ws, x.words = x.reg .x0 :: ws ∧ (x.withResult w).words = w :: ws :=
    ⟨x.words.tail, rfl, by simp [Context.words, Context.withResult, row, pairs]⟩
  have hlen := x.words_length
  rw [hws] at h hlen
  rw [List.length_cons] at hlen
  rw [hws']
  intro i hi
  rw [List.length_cons] at hi
  cases i with
  | zero =>
    have ha : a + imm (8 * 0) = a := BitVec.add_zero a
    rw [ha, loadWord_storeWord]
    rfl
  | succ i =>
    have hword := h (i + 1) (by rw [List.length_cons]; omega)
    rw [List.getElem_cons_succ] at hword ⊢
    rw [← hword]
    refine loadWord_congr fun k hk => ?_
    rw [storeWord, if_neg]
    unfold imm
    bv_omega

/-- `ret_from_syscall` -/
theorem leads_ret_from_syscall (hirq : Clean env u.sp .handle_irq) (hstack : Stack env u.sp) (hs : Serving env u x c)
    (h : ∀ c', c'.sp = u.sp → userContext c' = x.withResult (c.reg .x0) → Q [] c') :
    LeadsTo code env (Interrupt env) Q (code .ret_from_syscall) c := by
  refine leads_disable_irq hirq hstack hs fun c₁ hs₁ hm hreg => ?_
  refine LeadsTo.ops [.str .x0 S_X0] hm ?_
  have h0 : c₁.sp + imm S_X0 = c₁.sp := BitVec.add_zero _
  have hframe : HoldsWords (execs [.str .x0 S_X0] c₁).mem (execs [.str .x0 S_X0] c₁).sp (x.withResult (c.reg .x0)).words := by
    simp only [execs_cons, execs_nil, Op.exec, h0, hreg .x0 (by decide)]
    exact holds_withResult hs₁.frame
  refine leads_leave (by rw [execs_masked, hm]) hframe (h _ ?_ (left_context _))
  change c₁.sp + imm S_FRAME_SIZE = u.sp
  rw [hs₁.sp]
  exact BitVec.sub_add_cancel _ _

/-- How a routine may return: with `sp` and the table as they were. What it leaves in the frame is up to it. -/
def ComesBack (env : Env Symbol) (s : Sys) : Prop :=
  ∀ c c', env.call (.sys s) c c' → c'.sp = c.sp ∧ ∀ a, InTable env a → c'.mem a = c.mem a

/-- What is in memory where a frame lies. -/
def contextAt (mem : BitVec 64 → UInt8) (a : BitVec 64) : Context where
  reg r := loadWord mem (a + imm (8 * if r = .x30 then 30 else (row pairs).idxOf r))
  sp := loadWord mem (a + imm 248)
  pc := loadWord mem (a + imm 256)
  pstate := loadWord mem (a + imm 264)

theorem holds_contextAt (mem : BitVec 64 → UInt8) (a : BitVec 64) : HoldsWords mem a (contextAt mem a).words := by
  have hrow : (row pairs).map (contextAt mem a).reg = (List.range 30).map fun i => loadWord mem (a + imm (8 * i)) := rfl
  have hwords : (contextAt mem a).words = (List.range 34).map fun i => loadWord mem (a + imm (8 * i)) := by
    rw [Context.words, hrow]
    rfl
  intro i hi
  simp only [hwords, List.getElem_map, List.getElem_range]

/-- The program and its system call: the routine is called with the program's arguments, and the program goes on with
what the routine left in the frame and its result in `x0`. -/
theorem leads_svc {s : Sys} {esr far : BitVec 64} (hirq : Clean env u.sp .handle_irq) (hstack : Stack env u.sp)
    (hlink : Linked env u) (hesr : esr >>> 26 = 0x15#64) (hn : sys_call_table[(callNumber u).toNat]? = some s)
    (hgoes : ∀ c, (∀ r ∈ args, c.reg r = u.reg r) → ∃ c', env.call (.sys s) c c') (hret : ComesBack env s) :
    LeadsTo code env (Interrupt env) (fun is c' => is = [] ∧ c'.sp = u.sp ∧ ∃ c₁ c₂, Serving env u (userContext u) c₁ ∧
      (∀ r ∈ args, c₁.reg r = u.reg r) ∧ env.call (.sys s) c₁ c₂ ∧
      userContext c' = (contextAt c₂.mem c₂.sp).withResult (c₂.reg .x0)) (code .el0_sync) (u.sync esr far) := by
  refine leads_el0_sync hstack (fun _ c hd => ?_) (fun h _ _ => ?_) fun h _ _ _ _ => absurd hesr h
  · refine leads_el0_svc hirq hstack hlink hd (fun s' hs' c hs h16 hargs => ?_) fun hle _ => ?_
    · obtain rfl := Option.some.inj (hs'.symm.trans hn)
      refine leads_next hirq hstack hs (fun c₁ hu => ?_) fun c₁ is' c' hu hs₁ hstep => ?_
      · obtain ⟨c₂, hc₂⟩ := hgoes (c₁.setReg .x30 0) fun r hr => by
          have hr' : r ≠ .x30 := by
            revert r
            decide
          rw [Processor.setReg_reg, if_neg hr', hu.reg, hargs r hr]
        exact ⟨_, c₂, rfl, _, 0, by rw [hu.reg, h16], hc₂⟩
      · obtain ⟨rfl, s'', ra, haddr, hcall⟩ := hstep
        obtain rfl := hlink.inj (haddr.trans ((congrFun hu.reg _).trans h16))
        obtain ⟨hsp, htable⟩ := hret _ _ hcall
        have hs₂ : Serving env u (contextAt c'.mem c'.sp) c' :=
          ⟨hsp.trans hs₁.sp, holds_contextAt _ _, fun a ha => (htable a ha).trans (hs₁.table a ha)⟩
        refine leads_next hirq hstack hs₂ (fun c _ => ⟨_, _, rfl, rfl⟩) fun c₃ is' c'' hu₃ hs₃ hstep => ?_
        obtain ⟨rfl, rfl⟩ := hstep
        refine leads_ret_from_syscall hirq hstack hs₃ fun c₄ hsp₄ hctx => ?_
        refine ⟨rfl, hsp₄, c₁.setReg .x30 ra, c', hs₁.congr rfl rfl, fun r hr => ?_, hcall, ?_⟩
        · have hr' : r ≠ .x30 := by
            revert r
            decide
          rw [Processor.setReg_reg, if_neg hr', hu.reg, hargs r hr]
        · rw [hctx, hu₃.reg]
    · have hlen : sys_call_table.length = __NR_syscalls := rfl
      obtain ⟨hlt, -⟩ := List.getElem?_eq_some_iff.1 hn
      omega
  · rw [hesr] at h
    exact absurd h (by decide)

theorem contextAt_eq {mem : BitVec 64 → UInt8} {a : BitVec 64} (h : HoldsWords mem a x.words) : contextAt mem a = x := by
  obtain ⟨hregs, h30, hsp, hpc, hps⟩ := holds_words h
  have h31 : a + imm 240 + 8 = a + imm 248 := by
    unfold imm
    bv_omega
  have h33 : a + imm 256 + 8 = a + imm 264 := by
    unfold imm
    bv_omega
  rw [h31] at hsp
  rw [h33] at hps
  refine Context.ext (funext fun r => ?_) hsp hpc hps
  by_cases hr : r = .x30
  · simp only [contextAt, hr, if_true]
    exact h30
  · have hk := List.idxOf_lt_length_of_mem (mem_pairs r hr)
    simp only [contextAt, hr, if_false]
    rw [hregs _ hk, List.getElem_idxOf]

/-! ## What the kernel does not take -/

/-- Instructions that need nothing, wherever interrupts lead. -/
theorem leads_anyhow {is : Code} (os : List Op) (h : ∀ c, LeadsTo code env irq Q is c) :
    ∀ c, LeadsTo code env irq Q (os.map .op ++ is) c := by
  induction os with
  | nil => exact h
  | cons o os ih =>
    intro c
    exact LeadsTo.op (fun _ => True) (fun _ _ _ _ _ => trivial) trivial fun c _ => ih _

/-- An entry that is not valid hangs. -/
theorem leads_invalid {el type : Nat} (hshow : ∀ c, ∃ c', env.call .show_invalid_entry_message c c') (hQ : ∀ c, Q (code .err_hang) c) :
    ∀ c, LeadsTo code env irq Q (handle_invalid_entry el type) c := by
  refine leads_anyhow _ (leads_anyhow [.movi .x0 type, .mrs .x1 .esr_el1, .mrs .x2 .elr_el1] fun c => ?_)
  refine LeadsTo.next (fun _ => True) (fun _ _ _ _ _ => trivial) trivial (fun c _ => ?_) fun c is' c' _ hs => ?_
  · obtain ⟨c', hc'⟩ := hshow (c.setReg .x30 0)
    exact ⟨_, c', rfl, 0, hc'⟩
  · obtain ⟨rfl, -⟩ := hs
    refine LeadsTo.next (fun _ => True) (fun _ _ _ _ _ => trivial) trivial (fun c _ => ⟨_, _, rfl, rfl⟩) fun c is' c' _ hs => ?_
    obtain ⟨rfl, rfl⟩ := hs
    exact .here (hQ _)

/-- Nothing comes back from `err_hang`. -/
theorem err_hang_stays (h : Reaches code env irq (code .err_hang) c is c') : is = code .err_hang := by
  generalize hcode : code .err_hang = is₀ at h
  induction h with
  | refl => rfl
  | step _ hs _ ih =>
    subst hcode
    obtain ⟨rfl, rfl⟩ := hs
    exact ih rfl

/-! ## Data aborts -/

/-- The syndrome and the faulting address are not saved: an interrupt leaves what `handle_irq` does. -/
theorem Interrupt.sys {s : SysReg} {P : BitVec 64 → Prop} (hs : s = .esr_el1 ∨ s = .far_el1)
    (hP : ∀ c c', env.call .handle_irq c c' → P (c.sys s) → P (c'.sys s)) (hirq : Clean env top .handle_irq)
    (hroom : Room env top c.sp) (h : Interrupt env c c') (hc : P (c.sys s)) : P (c'.sys s) := by
  obtain ⟨c₀, c₁, hsys, hcall, rfl, -, -⟩ := irq_spec hirq hroom h
  have hc₀ : c₀.sys s = c.sys s := by
    rw [hsys]
    rcases hs with rfl | rfl <;> rfl
  have hc₁ : (left 1 c₁ (saved 1 c.except)).sys s = c₁.sys s := by
    rcases hs with rfl | rfl <;> rfl
  rw [hc₁]
  exact hP _ _ hcall (by rwa [hc₀])

/-- The registers a data abort is described by, as interrupts may leave them. -/
structure Window (env : Env Symbol) (F E : BitVec 64 → Prop) : Prop where
  far : ∀ c c', env.call .handle_irq c c' → F (c.sys .far_el1) → F (c'.sys .far_el1)
  esr : ∀ c c', env.call .handle_irq c c' → E (c.sys .esr_el1) → E (c'.sys .esr_el1)

/-- The call of `do_mem_abort` and what follows. -/
def callAbort : Code :=
  [.bl .do_mem_abort, .op (.cmpi .x0 0), .b_eq .el0_da_1] ++ handle_invalid_entry 0 DATA_ABORT_ERROR

/-- A data abort: the program goes on as it was if `do_mem_abort` returns 0, else nothing does. -/
theorem leads_da {esr far : BitVec 64} {F E : BitVec 64 → Prop} (hirq : Clean env u.sp .handle_irq)
    (hda : Clean env u.sp .do_mem_abort) (hstack : Stack env u.sp) (hw : Window env F E) (hF : F far) (hE : E esr)
    (hesr : esr >>> 26 = 0x24#64) (hgoes : ∀ c, F (c.reg .x0) → E (c.reg .x1) → ∃ c', env.call .do_mem_abort c c')
    (hshow : ∀ c, ∃ c', env.call .show_invalid_entry_message c c') :
    LeadsTo code env (Interrupt env) (fun is c' => ∃ c₁ c₂, Serving env u (userContext u) c₁ ∧ F (c₁.reg .x0) ∧ E (c₁.reg .x1) ∧
      env.call .do_mem_abort c₁ c₂ ∧ (c₂.reg .x0 = 0 → is = [] ∧ c'.sp = u.sp ∧ userContext c' = userContext u) ∧
      (c₂.reg .x0 ≠ 0 → is = code .err_hang)) (code .el0_sync) (u.sync esr far) := by
  refine leads_el0_sync hstack (fun h _ _ => ?_) (fun _ c hd => ?_) fun _ h _ _ _ => absurd hesr h
  · rw [hesr] at h
    exact absurd h (by decide)
  refine leads_enable_irq hd.masked fun ra => ?_
  generalize hc₀ : ({ c.setReg .x30 ra with pstate := c.pstate &&& ~~~0x80#64 } : Processor) = c₀
  have hs₀ : Serving env u (userContext u) c₀ := by
    rw [← hc₀]
    exact hd.serving.congr rfl rfl
  have hroom : Room env u.sp c₀.sp := by
    rw [hs₀.sp]
    exact hstack.room
  have hfar : F (c₀.sys .far_el1) := by
    rw [← hc₀]
    exact hd.far.symm ▸ hF
  have hes : E (c₀.sys .esr_el1) := by
    rw [← hc₀]
    exact hd.esr.symm ▸ hE
  clear hc₀
  -- The address is read, then the syndrome, with interrupts before each.
  have hstable : ∀ (φ : BitVec 64 → Prop) c c', c.masked = false → (Serving env u (userContext u) c ∧ φ (c.reg .x0) ∧ E (c.sys .esr_el1)) →
      Interrupt env c c' → Serving env u (userContext u) c' ∧ φ (c'.reg .x0) ∧ E (c'.sys .esr_el1) := by
    rintro φ c c' - ⟨hs, hx, he⟩ hint
    have hr : Room env u.sp c.sp := by
      rw [hs.sp]
      exact hstack.room
    have hu := hint.untouched hirq hr
    exact ⟨hs.untouched hu, by rwa [hu.reg], hint.sys (.inl rfl) hw.esr hirq hr he⟩
  refine LeadsTo.op (fun c => (Serving env u (userContext u) c ∧ True ∧ E (c.sys .esr_el1)) ∧ F (c.sys .far_el1)) ?_ ⟨⟨hs₀, trivial, hes⟩, hfar⟩
    fun c₁ h₁ => ?_
  · rintro c c' hm ⟨h, hf⟩ hint
    refine ⟨hstable (fun _ => True) c c' hm h hint, hint.sys (.inr rfl) hw.far hirq ?_ hf⟩
    rw [h.1.sp]
    exact hstack.room
  have h₁' : Serving env u (userContext u) ((Op.mrs .x0 .far_el1).exec c₁) ∧ F (((Op.mrs .x0 .far_el1).exec c₁).reg .x0) ∧
      E (((Op.mrs .x0 .far_el1).exec c₁).sys .esr_el1) := ⟨h₁.1.1.congr rfl rfl, h₁.2, h₁.1.2.2⟩
  refine LeadsTo.op (fun c => Serving env u (userContext u) c ∧ F (c.reg .x0) ∧ E (c.sys .esr_el1)) (hstable F) h₁' fun c₂ h₂ => ?_
  have hs₂ : Serving env u (userContext u) ((Op.mrs .x1 .esr_el1).exec c₂) := h₂.1.congr rfl rfl
  have hF₂ : F (((Op.mrs .x1 .esr_el1).exec c₂).reg .x0) := h₂.2.1
  have hE₂ : E (((Op.mrs .x1 .esr_el1).exec c₂).reg .x1) := h₂.2.2
  generalize (Op.mrs .x1 .esr_el1).exec c₂ = c₃ at hs₂ hF₂ hE₂
  refine leads_next hirq hstack hs₂ (fun c hu => ?_) fun c₄ is' c₅ hu hs₄ hstep => ?_
  · obtain ⟨c', hc'⟩ := hgoes (c.setReg .x30 0) (by simpa [hu.reg] using hF₂) (by simpa [hu.reg] using hE₂)
    exact ⟨_, c', rfl, 0, hc'⟩
  obtain ⟨rfl, ra', hcall⟩ := hstep
  have hs₄' : Serving env u (userContext u) (c₄.setReg .x30 ra') := hs₄.congr rfl rfl
  have hs₅ : Serving env u (userContext u) c₅ := hs₄'.keeps (hda _ _ hcall)
  have hcalled : Serving env u (userContext u) (c₄.setReg .x30 ra') ∧ F ((c₄.setReg .x30 ra').reg .x0) ∧
      E ((c₄.setReg .x30 ra').reg .x1) :=
    ⟨hs₄', by simpa [hu.reg] using hF₂, by simpa [hu.reg] using hE₂⟩
  refine leads_next hirq hstack hs₅ (fun c _ => ⟨_, _, rfl, rfl⟩) fun c₆ is' c' hu₆ hs₆ hstep => ?_
  obtain ⟨rfl, rfl⟩ := hstep
  have hz : ((Op.cmpi .x0 0).exec c₆).z = decide (c₅.reg .x0 = 0) := by
    simp only [Op.exec, Processor.compare_z, hu₆.reg]
    rfl
  refine leads_next hirq hstack (hs₆.congr rfl rfl) (fun c _ => ⟨_, _, rfl, rfl⟩) fun c₇ is' c' hu₇ hs₇ hstep => ?_
  obtain ⟨rfl, rfl⟩ := hstep
  have hz₇ : c'.z = decide (c₅.reg .x0 = 0) := by
    rw [← hz, Processor.z, hu₇.pstate]
    rfl
  by_cases hzero : c₅.reg .x0 = 0
  · rw [if_pos (by rw [hz₇]; exact decide_eq_true hzero)]
    refine leads_disable_irq hirq hstack hs₇ fun c₈ hs₈ hm _ => ?_
    refine leads_leave hm hs₈.frame ⟨_, c₅, hcalled.1, hcalled.2.1, hcalled.2.2, hcall, fun _ => ⟨rfl, ?_, left_context _⟩, absurd hzero⟩
    change c₈.sp + imm S_FRAME_SIZE = u.sp
    rw [hs₈.sp]
    exact BitVec.sub_add_cancel _ _
  · rw [if_neg (by rw [hz₇]; simpa using hzero)]
    exact leads_invalid hshow (fun c => ⟨_, c₅, hcalled.1, hcalled.2.1, hcalled.2.2, hcall, fun h => absurd h hzero, fun _ => rfl⟩) _

/-- Between `enable_irq` and the call interrupts decide what `do_mem_abort` is given. -/
theorem reaches_da {esr far : BitVec 64} (hstack : Stack env u.sp) (hesr : esr >>> 26 = 0x24#64) :
    ∃ c₀, Serving env u (userContext u) c₀ ∧ c₀.masked = false ∧ c₀.sys .far_el1 = far ∧ c₀.sys .esr_el1 = esr ∧
      ∀ d, Between irq c₀ d → ∃ c₁, Reaches code env irq (code .el0_sync) (u.sync esr far) callAbort c₁ ∧
        c₁.reg .x0 = d.sys .far_el1 ∧ c₁.reg .x1 = d.sys .esr_el1 := by
  have hent := kernel_entry_entered 0 (u.sync esr far)
  generalize he : execs (kernel_entry 0) (u.sync esr far) = e at hent
  have hesr_e : e.sys .esr_el1 = esr := by rw [hent.sys]; rfl
  obtain ⟨hz, h24, hsys, hsp, hmem, -⟩ := readClass_exec e
  generalize hc : execs readClass e = c at hz h24 hsys hsp hmem
  rw [hesr_e, hesr] at hz h24
  have hz' := compareAbort_z c
  rw [h24] at hz'
  have hserving : Serving env u (userContext u) c := (hent.serving hstack).congr hsp hmem
  have hreach : ∀ {is' c'}, Reaches code env irq (code .el0_da) ((Op.cmpi .x24 ESR_ELx_EC_DABT_LOW).exec c) is' c' →
      Reaches code env irq (code .el0_sync) (u.sync esr far) is' c' := by
    intro is' c' h
    refine Reaches.ops (kernel_entry 0) (Reaches.ops readClass ?_)
    rw [he, hc]
    refine Reaches.b_eq ?_
    rw [hz, if_neg (by decide)]
    refine Reaches.op .refl (Reaches.b_eq ?_)
    rwa [hz', if_pos (by decide)]
  generalize hd : (Op.cmpi .x24 ESR_ELx_EC_DABT_LOW).exec c = d₀ at hreach
  have hd₀ : Serving env u (userContext u) d₀ ∧ d₀.sys = (u.sync esr far).sys := by
    rw [← hd]
    exact ⟨hserving.congr rfl rfl, hsys.trans hent.sys⟩
  refine ⟨{ d₀.setReg .x30 0 with pstate := d₀.pstate &&& ~~~0x80#64 }, hd₀.1.congr rfl rfl, by simp [Processor.masked], ?_, ?_, fun d hb => ?_⟩
  · exact congrFun hd₀.2 _
  · exact congrFun hd₀.2 _
  · refine ⟨(Op.mrs .x1 .esr_el1).exec ((Op.mrs .x0 .far_el1).exec d), hreach ?_, rfl, rfl⟩
    have hread : Reaches code env irq (.op (.mrs .x0 .far_el1) :: .op (.mrs .x1 .esr_el1) :: callAbort)
        { d₀.setReg .x30 0 with pstate := d₀.pstate &&& ~~~0x80#64 } callAbort
        ((Op.mrs .x1 .esr_el1).exec ((Op.mrs .x0 .far_el1).exec d)) := .op hb (.op .refl .refl)
    have henabled : Step code env (.daifclr :: .op (.mrs .x0 .far_el1) :: .op (.mrs .x1 .esr_el1) :: callAbort) (d₀.setReg .x30 0)
        (.op (.mrs .x0 .far_el1) :: .op (.mrs .x1 .esr_el1) :: callAbort) { d₀.setReg .x30 0 with pstate := d₀.pstate &&& ~~~0x80#64 } :=
      ⟨rfl, rfl⟩
    have hcalled : Step code env (code .el0_da) d₀ (.daifclr :: .op (.mrs .x0 .far_el1) :: .op (.mrs .x1 .esr_el1) :: callAbort)
        (d₀.setReg .x30 0) := ⟨rfl, 0, rfl⟩
    exact .step .refl hcalled (.step .refl henabled hread)

/-! ## The first run of a task -/

/-- `schedule_tail` also keeps the registers a new task starts with. -/
structure Tail (env : Env Symbol) (top : BitVec 64) : Prop where
  clean : Clean env top .schedule_tail
  saved : ∀ c c', env.call .schedule_tail c c' → c'.reg .x19 = c.reg .x19 ∧ c'.reg .x20 = c.reg .x20
  goes : ∀ c, ∃ c', env.call .schedule_tail c c'

/-- `ret_to_user` -/
theorem leads_ret_to_user (hirq : Clean env u.sp .handle_irq) (hstack : Stack env u.sp) (hs : Serving env u x c)
    (h : ∀ c', c'.sp = u.sp → userContext c' = x → Q [] c') : LeadsTo code env (Interrupt env) Q (code .ret_to_user) c := by
  refine leads_disable_irq hirq hstack hs fun c₁ hs₁ hm _ => leads_leave hm hs₁.frame (h _ ?_ (left_context _))
  change c₁.sp + imm S_FRAME_SIZE = u.sp
  rw [hs₁.sp]
  exact BitVec.sub_add_cancel _ _

/-- A new task calls its function if it has one, and then goes to user code with the frame at the top of its page. -/
theorem leads_ret_from_fork (hirq : Clean env u.sp .handle_irq) (htail : Tail env u.sp) (hstack : Stack env u.sp)
    (hs : Serving env u x c) (huser : c.reg .x19 = 0 → ∀ c', c'.sp = u.sp → userContext c' = x → Q [] c')
    (hkernel : c.reg .x19 ≠ 0 → ∀ c₁, Serving env u x c₁ → c₁.reg .x19 = c.reg .x19 → c₁.reg .x0 = c.reg .x20 →
      LeadsTo code env (Interrupt env) Q [.blr .x19, .b .ret_to_user] c₁) :
    LeadsTo code env (Interrupt env) Q (code .ret_from_fork) c := by
  refine leads_next hirq hstack hs (fun c₁ _ => ?_) fun c₁ is' c₂ hu hs₁ hstep => ?_
  · obtain ⟨c', hc'⟩ := htail.goes (c₁.setReg .x30 0)
    exact ⟨_, c', rfl, 0, hc'⟩
  obtain ⟨rfl, ra, hcall⟩ := hstep
  have hs₁' : Serving env u x (c₁.setReg .x30 ra) := hs₁.congr rfl rfl
  have hs₂ : Serving env u x c₂ := hs₁'.keeps (htail.clean _ _ hcall)
  obtain ⟨h19, h20⟩ := htail.saved _ _ hcall
  have h19' : c₂.reg .x19 = c.reg .x19 := h19.trans (congrFun hu.reg _)
  have h20' : c₂.reg .x20 = c.reg .x20 := h20.trans (congrFun hu.reg _)
  refine leads_next hirq hstack hs₂ (fun c _ => ⟨_, _, rfl, rfl⟩) fun c₃ is' c' hu₃ hs₃ hstep => ?_
  obtain ⟨rfl, rfl⟩ := hstep
  by_cases hzero : c.reg .x19 = 0
  · rw [if_pos (by rw [hu₃.reg, h19', hzero])]
    exact leads_ret_to_user hirq hstack hs₃ (huser hzero)
  · rw [if_neg (by rw [hu₃.reg, h19']; exact hzero)]
    refine leads_next hirq hstack hs₃ (fun c _ => ⟨_, _, rfl, rfl⟩) fun c₄ is' c'' hu₄ hs₄ hstep => ?_
    obtain ⟨rfl, rfl⟩ := hstep
    refine hkernel hzero _ (hs₄.congr rfl rfl) ?_ ?_
    · simp [Op.exec, hu₄.reg, hu₃.reg, h19']
    · simp [Op.exec, hu₄.reg, hu₃.reg, h20']

end Serving

end ClbFilesystem
