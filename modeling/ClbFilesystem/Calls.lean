import ClbFilesystem.Traps
import ClbFilesystem.Switch
/-!
# What programs see of the kernel

A program at EL0 is interrupted, makes system calls, touches memory that is not
mapped, and starts for the first time: how it goes on.
-/

namespace ClbFilesystem

open Lib Exceptions A64

variable {env : Env Symbol} {top : BitVec 64} {c u : Processor} {irq : Processor → Processor → Prop}

/-! ## Interrupts -/

/-- The program, or the kernel for `el = 1`, goes on as it was interrupted. -/
def Unnoticed (env : Env Symbol) (top : BitVec 64) (el : Nat) (c c' : Processor) : Prop :=
  (if el = 0 then userContext c' = userContext c else kernelContext c' = kernelContext c) ∧ c'.sp = c.sp ∧
    ∀ a, OnStack top c.sp a ∨ InTable env a → c'.mem a = c.mem a

theorem left_unnoticed {el : Nat} {c₁ : Processor} (hsp : c₁.sp = c.sp - imm S_FRAME_SIZE)
    (hmem : ∀ a, OnStack top c.sp a ∨ InTable env a → c₁.mem a = c.mem a) : Unnoticed env top el c (left el c₁ (saved el c.except)) := by
  have hback : c.sp - imm S_FRAME_SIZE + imm S_FRAME_SIZE = c.sp := BitVec.sub_add_cancel _ _
  refine ⟨?_, ?_, hmem⟩
  · by_cases hel : el = 0
    · rw [if_pos hel, hel]
      exact left_context _
    · rw [if_neg hel]
      simp only [kernelContext, left, saved, hel, if_false, hsp, hback]
      rfl
  · change c₁.sp + imm S_FRAME_SIZE = c.sp
    rw [hsp, hback]

/-- The way of an interrupt, if `handle_irq` returns. -/
theorem leads_irq {el : Nat} (hirq : Clean env top .handle_irq) (hroom : Room env top c.sp)
    (hgoes : ∀ d, ∃ d', env.call .handle_irq d d') :
    LeadsTo code env irq (fun is c' => is = [] ∧ Unnoticed env top el c c') (enter el (.bl .handle_irq :: leave el)) c.except := by
  have hm := c.except_masked
  refine leads_enter hm fun e he => LeadsTo.masked (he.masked.trans hm) ?_ fun is' c₁ hs => ?_
  · obtain ⟨c', hc'⟩ := hgoes (e.setReg .x30 0)
    exact ⟨_, c', rfl, 0, hc'⟩
  · obtain ⟨rfl, ra, hcall⟩ := hs
    have hk := hirq _ _ hcall
    obtain ⟨hframe, hsp, hmem⟩ := he.handled hroom hk
    exact leads_leave (hk.masked.trans (he.masked.trans hm)) hframe ⟨rfl, left_unnoticed hsp hmem⟩

theorem irq_unnoticed {el : Nat} {c' : Processor} (hirq : Clean env top .handle_irq) (hroom : Room env top c.sp)
    (h : Resumes code env (enter el (.bl .handle_irq :: leave el)) c.except c') : Unnoticed env top el c c' := by
  obtain ⟨-, c₁, -, -, rfl, hsp, hmem⟩ := irq_spec hirq hroom h
  exact left_unnoticed hsp hmem

/-! ## A program and C code -/

/-- The symbols, in the order of their addresses. -/
def symbols : List Symbol :=
  [.handle_irq, .do_mem_abort, .show_invalid_entry_message, .schedule_tail, .kernel_process] ++
    sys_call_table.map .sys ++ [.sys_call_table]

/-- The registers that a function gives back as it found them. -/
def calleeSaved : List Reg := [.x19, .x20, .x21, .x22, .x23, .x24, .x25, .x26, .x27, .x28, .x29]

/-- Function `s` has computed: every other register has changed. -/
def computed (s : Symbol) (c : Processor) : Processor :=
  { c with reg := fun r => if r ∈ calleeSaved then c.reg r else c.reg r + imm (symbols.idxOf s + 1) }

/-- C code that uses all registers it may use. -/
def busy : Env Symbol where
  addr s := imm (0x1000 * (symbols.idxOf s + 1))
  call s c c' := c' = computed s c

theorem busy_inj : Function.Injective busy.addr := by
  have hfound : ∀ s, symbols.find? (fun s' => busy.addr s' = busy.addr s) = some s := by
    intro s
    cases s with
    | sys s => cases s <;> decide
    | _ => decide
  intro s s' h
  have hs := hfound s
  rw [h, hfound s'] at hs
  exact (Option.some.inj hs).symm

theorem busy_clean (top : BitVec 64) (s : Symbol) : Clean busy top s := by
  rintro c c' rfl
  exact ⟨rfl, rfl, fun _ _ => rfl⟩

/-- A program whose kernel stack ends at 0x80000, with the table where it belongs. -/
def program : Processor where
  reg r := imm (0x700 + (row pairs).idxOf r)
  sp := 0x80000
  sys _ := 0
  pstate := 0
  pc := 0x40
  mem := storeWords (fun _ => 0) (busy.addr .sys_call_table) (sys_call_table.map fun s => busy.addr (.sys s))

theorem program_linked : Linked busy program := ⟨holds_storeWords (by decide), busy_inj⟩

theorem program_stack : Stack busy program.sp := by
  refine ⟨fun a ha => ?_⟩
  have htable : busy.addr .sys_call_table = 0x15000#64 := by decide
  have hsp : program.sp = 0x80000#64 := rfl
  unfold InTable at ha
  rw [htable] at ha
  rw [hsp]
  unfold imm S_FRAME_SIZE __NR_syscalls at *
  bv_omega

/-! ## What programs see -/

/-- Interrupts, of programs and of the kernel, are not noticed; and they end if `handle_irq` returns. -/
theorem irq_transparent (hirq : Clean env top .handle_irq) (hroom : Room env top c.sp) :
    (∀ c', Resumes code env (code .el0_irq) c.except c' → Unnoticed env top 0 c c') ∧
    (∀ c', Resumes code env (code .el1_irq) c.except c' → Unnoticed env top 1 c c') ∧
    ((∀ d, ∃ d', env.call .handle_irq d d') →
      LeadsTo code env irq (fun is c' => is = [] ∧ Unnoticed env top 0 c c') (code .el0_irq) c.except ∧
      LeadsTo code env irq (fun is c' => is = [] ∧ Unnoticed env top 1 c c') (code .el1_irq) c.except) :=
  ⟨fun _ => irq_unnoticed hirq hroom, fun _ => irq_unnoticed hirq hroom,
    fun hgoes => ⟨leads_irq hirq hroom hgoes, leads_irq hirq hroom hgoes⟩⟩

theorem program_room : Room busy program.sp program.sp := by
  refine ⟨by decide, fun a ha => ?_⟩
  have ht := program_stack.table a ha
  unfold imm S_FRAME_SIZE at *
  bv_omega

theorem irq_transparent_program : LeadsTo code busy (Interrupt busy) (fun is c' => is = [] ∧ Unnoticed busy program.sp 0 program c')
    (code .el0_irq) program.except :=
  ((irq_transparent (busy_clean _ _) program_room).2.2 fun _ => ⟨_, rfl⟩).1

/-- Every stub reaches the routine of its name, with the caller's arguments, and goes on with the routine's result. If
the routine keeps the stack above it, nothing else has changed. -/
theorem syscall_returns {pc far : BitVec 64} (s : Stub) (hirq : Clean env u.sp .handle_irq) (hstack : Stack env u.sp)
    (hlink : Linked env u) (hgoes : ∀ c, (∀ r ∈ args, c.reg r = u.reg r) → ∃ c', env.call (.sys s.routine) c c') (hret : ComesBack env s.routine) :
    LeadsTo code env (Interrupt env) (fun is c' => is = [] ∧ c'.sp = u.sp ∧ ∃ c₁ c₂, (∀ r ∈ args, c₁.reg r = u.reg r) ∧
      HoldsWords c₁.mem c₁.sp (userContext (s.svc u pc)).words ∧ env.call (.sys s.routine) c₁ c₂ ∧
      userContext c' = (contextAt c₂.mem c₂.sp).withResult (c₂.reg .x0) ∧
      (Clean env u.sp (.sys s.routine) → userContext c' = (userContext (s.svc u pc)).withResult (c₂.reg .x0)))
      (code .el0_sync) ((s.svc u pc).sync 0x56000000 far) := by
  have hargs : ∀ r ∈ args, (s.svc u pc).reg r = u.reg r := by
    intro r hr
    have hr' : r ≠ .x8 := by
      revert r
      decide
    simp [Stub.svc, hr']
  have hnumber : (callNumber (s.svc u pc)).toNat = s.number := by cases s <;> rfl
  have hlink' : Linked env (s.svc u pc) := ⟨hlink.table, hlink.inj⟩
  refine (leads_svc (u := s.svc u pc) hirq hstack hlink' (by decide) (by rw [hnumber, s.routine_eq]) ?_ hret).trans ?_
  · exact fun c hc => hgoes c fun r hr => (hc r hr).trans (hargs r hr)
  · rintro is c' ⟨rfl, hsp, c₁, c₂, hs₁, hc₁, hcall, hctx⟩
    refine .here ⟨rfl, hsp, c₁, c₂, fun r hr => (hc₁ r hr).trans (hargs r hr), hs₁.frame, hcall, hctx, fun hclean => ?_⟩
    rw [hctx, contextAt_eq (hs₁.keeps (hclean _ _ hcall)).frame]

theorem syscall_returns_program : LeadsTo code busy (Interrupt busy) (fun is c' => is = [] ∧ c'.sp = program.sp ∧ ∃ c₁ c₂,
      (∀ r ∈ args, c₁.reg r = program.reg r) ∧ HoldsWords c₁.mem c₁.sp (userContext (Stub.call_create_file.svc program 0x44)).words ∧
      busy.call (.sys .sys_create_file) c₁ c₂ ∧ userContext c' = (contextAt c₂.mem c₂.sp).withResult (c₂.reg .x0) ∧
      (Clean busy program.sp (.sys .sys_create_file) →
        userContext c' = (userContext (Stub.call_create_file.svc program 0x44)).withResult (c₂.reg .x0)))
      (code .el0_sync) ((Stub.call_create_file.svc program 0x44).sync 0x56000000 0) :=
  syscall_returns .call_create_file (busy_clean _ _) program_stack program_linked (fun _ _ => ⟨_, rfl⟩) fun c c' h => by
    cases h
    exact ⟨rfl, fun _ _ => rfl⟩

/-- Nothing but system calls with a number of the table, data aborts and interrupts ever comes back. -/
theorem refused {esr far : BitVec 64} (hirq : Clean env u.sp .handle_irq) (hstack : Stack env u.sp) (hlink : Linked env u)
    (hshow : ∀ c, ∃ c', env.call .show_invalid_entry_message c c') :
    (∀ v ∈ vectors, v ∉ [Label.el1_irq, .el0_sync, .el0_irq] →
      LeadsTo code env (Interrupt env) (fun is _ => is = code .err_hang) (code v) c) ∧
    ((esr >>> 26 = 0x15#64 ∧ __NR_syscalls ≤ (callNumber u).toNat ∨ esr >>> 26 ≠ 0x15#64 ∧ esr >>> 26 ≠ 0x24#64) →
      LeadsTo code env (Interrupt env) (fun is _ => is = code .err_hang) (code .el0_sync) (u.sync esr far)) ∧
    ∀ is c', Reaches code env (Interrupt env) (code .err_hang) c is c' → is = code .err_hang := by
  have hinvalid : ∀ {el type : Nat} (c : Processor),
      LeadsTo code env (Interrupt env) (fun is _ => is = code .err_hang) (handle_invalid_entry el type) c :=
    leads_invalid hshow fun _ => rfl
  refine ⟨fun v hv hne => ?_, fun h => ?_, fun is c' hr => err_hang_stays hr⟩
  · simp only [vectors, List.mem_cons, List.not_mem_nil, or_false] at hv
    rcases hv with rfl | rfl | rfl | rfl | rfl | rfl | rfl | rfl | rfl | rfl | rfl | rfl | rfl | rfl | rfl | rfl
    case inr.inr.inr.inr.inr.inl | inr.inr.inr.inr.inr.inr.inr.inr.inl | inr.inr.inr.inr.inr.inr.inr.inr.inr.inl => simp at hne
    all_goals exact hinvalid c
  · refine leads_el0_sync hstack (fun hsvc c hd => ?_) (fun hda _ _ => ?_) fun _ _ c _ _ => hinvalid c
    · rcases h with ⟨-, hn⟩ | ⟨hne, -⟩
      · refine leads_el0_svc hirq hstack hlink hd (fun s hs _ _ _ _ => ?_) fun _ c => hinvalid c
        have hlt := (List.getElem?_eq_some_iff.1 hs).1
        exact absurd hlt (Nat.not_lt_of_le hn)
      · exact absurd hsvc hne
    · rcases h with ⟨hsvc, -⟩ | ⟨-, hne⟩
      · rw [hsvc] at hda
        exact absurd hda (by decide)
      · exact absurd hda hne

theorem refused_program : LeadsTo code busy (Interrupt busy) (fun is _ => is = code .err_hang) (code .el0_sync)
    ({ program with reg := Function.update program.reg .x8 15 }.sync 0x56000000 0) :=
  (refused (c := program) (u := { program with reg := Function.update program.reg .x8 15 }) (busy_clean _ _) ⟨program_stack.table⟩
    ⟨program_linked.table, program_linked.inj⟩ fun _ => ⟨_, rfl⟩).2.1 (.inl ⟨by decide, by decide⟩)

/-- A data abort comes back to the program as it was exactly if `do_mem_abort` returns 0. The address and the syndrome it is
given are those of the abort only as far as the interrupts before the call leave them: whatever these make of them is
what it is given in some run. -/
theorem data_abort {esr far : BitVec 64} {F E : BitVec 64 → Prop} (hirq : Clean env u.sp .handle_irq)
    (hda : Clean env u.sp .do_mem_abort) (hstack : Stack env u.sp) (hw : Window env F E) (hF : F far) (hE : E esr)
    (hesr : esr >>> 26 = 0x24#64) (hgoes : ∀ c, F (c.reg .x0) → E (c.reg .x1) → ∃ c', env.call .do_mem_abort c c')
    (hshow : ∀ c, ∃ c', env.call .show_invalid_entry_message c c') :
    LeadsTo code env (Interrupt env) (fun is c' => ∃ c₁ c₂, F (c₁.reg .x0) ∧ E (c₁.reg .x1) ∧ env.call .do_mem_abort c₁ c₂ ∧
      (c₂.reg .x0 = 0 → is = [] ∧ c'.sp = u.sp ∧ userContext c' = userContext u) ∧ (c₂.reg .x0 ≠ 0 → is = code .err_hang))
      (code .el0_sync) (u.sync esr far) ∧
    ∃ c₀, c₀.masked = false ∧ c₀.sys .far_el1 = far ∧ c₀.sys .esr_el1 = esr ∧ ∀ d, Between (Interrupt env) c₀ d →
      ∃ c₁, Reaches code env (Interrupt env) (code .el0_sync) (u.sync esr far) callAbort c₁ ∧
        c₁.reg .x0 = d.sys .far_el1 ∧ c₁.reg .x1 = d.sys .esr_el1 := by
  constructor
  · refine (leads_da hirq hda hstack hw hF hE hesr hgoes hshow).trans ?_
    rintro is c' ⟨c₁, c₂, -, hf, he, hcall, hback, hhang⟩
    exact .here ⟨c₁, c₂, hf, he, hcall, hback, hhang⟩
  · obtain ⟨c₀, -, hfacts⟩ := reaches_da hstack hesr
    exact ⟨c₀, hfacts⟩

/-- Another task has faulted at 0x5000 in the meantime. -/
def faulted : Env Symbol :=
  { busy with call := fun s c c' => c' = if s = .handle_irq then (computed s c).setSys .far_el1 0x5000 else computed s c }

theorem faulted_clean (top : BitVec 64) (s : Symbol) : Clean faulted top s := by
  rintro c c' rfl
  split <;> exact ⟨rfl, rfl, fun _ _ => rfl⟩

theorem data_abort_faulted : ∃ c₀, c₀.masked = false ∧ c₀.sys .far_el1 = 0x3000 ∧ c₀.sys .esr_el1 = 0x92000046 ∧
    ∀ d, Between (Interrupt faulted) c₀ d → ∃ c₁, Reaches code faulted (Interrupt faulted) (code .el0_sync)
      (program.sync 0x92000046 0x3000) callAbort c₁ ∧ c₁.reg .x0 = d.sys .far_el1 ∧ c₁.reg .x1 = d.sys .esr_el1 := by
  have hw : Window faulted (fun a => a = 0x3000 ∨ a = 0x5000) (fun a => a = 0x92000046) := by
    constructor
    · rintro c c' rfl -
      exact .inr rfl
    · rintro c c' rfl h
      exact h
  exact (data_abort (faulted_clean _ _) (faulted_clean _ _) ⟨program_stack.table⟩ hw (.inl rfl) rfl (by decide) (fun c _ _ => ⟨_, rfl⟩)
    fun c => ⟨_, rfl⟩).2

/-! ## New tasks -/

def THREAD_SIZE : Nat := 4096

/-- `task_pt_regs` -/
def frameOf (p : BitVec 64) : BitVec 64 := p + imm THREAD_SIZE - imm S_FRAME_SIZE

/-- The context `copy_process` gives a task: `ret_from_fork` is at `pc`. -/
def newContext (p fn arg pc : BitVec 64) : List (BitVec 64) := [fn, arg, 0, 0, 0, 0, 0, 0, 0, 0, 0, frameOf p, pc]

section NewTask
variable {stack : BitVec 64 → BitVec 64 → Prop} {s s' : Threads} {tr : List (Lib.Step Threads ThreadEvent)} {init p fn arg pc : BitVec 64}
  {k : Parked}

/-- A task that runs for the first time is in `ret_from_fork`, above it the frame it was made with. -/
theorem first_switch (hinit : Unshared stack init init) (h : Run (ThreadNext stack) (bootThreads c init) tr s)
    (hn : ThreadNext stack s (.switch_to p) s') (hk : parked tr p = some k) (hctx : k.context = newContext p fn arg pc)
    (hstack : ∀ a, (a - frameOf p).toNat < S_FRAME_SIZE → stack p a) :
    s'.cpu.pc = pc ∧ s'.cpu.reg .x19 = fn ∧ s'.cpu.reg .x20 = arg ∧
      ∃ u : Processor, u.sp = p + imm THREAD_SIZE ∧ Serving env u (contextAt k.mem (frameOf p)) s'.cpu := by
  obtain ⟨k', hk', hctx', hpc, hmem⟩ := (threads_inv hinit h).resumes hn
  obtain rfl := Option.some.inj (hk'.symm.trans hk)
  rw [hctx] at hctx'
  simp only [cpu_context, newContext, List.cons.injEq, and_true] at hctx'
  obtain ⟨h19, h20, -, -, -, -, -, -, -, -, -, hsp, h30⟩ := hctx'
  refine ⟨hpc.trans h30, h19, h20, { s'.cpu with sp := p + imm THREAD_SIZE }, rfl, hsp, ?_, fun _ _ => rfl⟩
  rw [hsp]
  refine (holds_contextAt k'.mem (frameOf p)).congr (by rw [Context.words_length]; decide) fun b hb => hmem b (hstack b ?_)
  rwa [Context.words_length] at hb

/-- A new task, whenever it is first switched to, is at the address of `ret_from_fork`. There a copy of a program goes to user
code with the context in its frame; a kernel thread calls its function with its argument, and then goes to user code with
the context that left there. -/
theorem new_task_runs (htop : top = p + imm THREAD_SIZE) (hinit : Unshared stack init init)
    (h : Run (ThreadNext stack) (bootThreads c init) tr s) (hn : ThreadNext stack s (.switch_to p) s') (hk : parked tr p = some k)
    (hctx : k.context = newContext p fn arg pc) (hframe : ∀ a, (a - frameOf p).toNat < S_FRAME_SIZE → stack p a)
    (hirq : Clean env top .handle_irq) (htail : Tail env top) (hroom : Stack env top) (hinj : Function.Injective env.addr) :
    s'.cpu.pc = pc ∧
    (fn = 0 → LeadsTo code env (Interrupt env) (fun is c' => is = [] ∧ c'.sp = top ∧ userContext c' = contextAt k.mem (frameOf p))
      (code .ret_from_fork) s'.cpu) ∧
    ∀ f, env.addr f = fn → fn ≠ 0 → (∀ d, d.reg .x0 = arg → ∃ d', env.call f d d') →
      (∀ d d', env.call f d d' → d'.sp = d.sp ∧ ∀ a, InTable env a → d'.mem a = d.mem a) →
      LeadsTo code env (Interrupt env) (fun is c' => is = [] ∧ c'.sp = top ∧ ∃ c₁ c₂, c₁.reg .x0 = arg ∧ env.call f c₁ c₂ ∧
        userContext c' = contextAt c₂.mem c₂.sp) (code .ret_from_fork) s'.cpu := by
  obtain ⟨hpc, h19, h20, u, hu, hs⟩ : _ ∧ _ ∧ _ ∧ ∃ u : Processor, _ ∧ Serving env u _ _ := first_switch hinit h hn hk hctx hframe
  rw [← hu] at htop
  subst htop
  refine ⟨hpc, fun hzero => ?_, fun f hf hne hgoes hret => ?_⟩
  · refine leads_ret_from_fork hirq htail hroom hs (fun _ c' hsp hx => ⟨rfl, hsp, hx⟩) fun h => ?_
    exact absurd (h19.trans hzero) h
  · refine leads_ret_from_fork hirq htail hroom hs (fun h => absurd (h19.symm.trans h) hne) fun _ c₁ hs₁ h19₁ h0₁ => ?_
    refine leads_next hirq hroom hs₁ (fun c₂ hu₂ => ?_) fun c₂ is' c₃ hu₂ hs₂ hstep => ?_
    · obtain ⟨d', hd'⟩ := hgoes (c₂.setReg .x30 0) (by simp [hu₂.reg, h0₁, h20])
      exact ⟨_, d', rfl, f, 0, by rw [hu₂.reg, h19₁, h19, hf], hd'⟩
    · obtain ⟨rfl, f', ra, haddr, hcall⟩ := hstep
      obtain rfl : f' = f := hinj (by rw [haddr, hu₂.reg, h19₁, h19, hf])
      obtain ⟨hsp, htable⟩ := hret _ _ hcall
      have hs₃ : Serving env u (contextAt c₃.mem c₃.sp) c₃ :=
        ⟨hsp.trans hs₂.sp, holds_contextAt _ _, fun a ha => (htable a ha).trans (hs₂.table a ha)⟩
      refine leads_next hirq hroom hs₃ (fun c _ => ⟨_, _, rfl, rfl⟩) fun c₄ is' c₅ hu₄ hs₄ hstep => ?_
      obtain ⟨rfl, rfl⟩ := hstep
      refine leads_ret_to_user hirq hroom hs₄ fun c' hsp' hx => ⟨rfl, hsp', c₂.setReg .x30 ra, c₃, ?_, hcall, hx⟩
      simp [hu₂.reg, h0₁, h20]

end NewTask

/-- A processor that has made a task at 0x2000 for `kernel_process`, whose frame is not empty. -/
def forking : Processor :=
  { switching with
    mem := storeWords (storeWords (fun _ => 0) (frameOf 0x2000) ((List.range 34).map fun i => imm (0x900 + i))) 0x2000
      (newContext 0x2000 (busy.addr .kernel_process) 0x77 0x700) }

theorem storedContext_eq {mem : BitVec 64 → UInt8} {p : BitVec 64} {ws : List (BitVec 64)} (hlen : ws.length = 13)
    (h : HoldsWords mem p ws) :
    storedContext mem p = ws := by
  refine List.ext_getElem (by rw [hlen]; rfl) fun i hi hi' => ?_
  rw [← h i hi']
  simp only [storedContext, List.getElem_map, List.getElem_range]

/-- It calls `kernel_process` with 0x77, and then takes the frame for user code. -/
theorem new_task_runs_forking : (switched forking).pc = 0x700 ∧
    LeadsTo code busy (Interrupt busy) (fun is c' => is = [] ∧ c'.sp = 0x3000 ∧ ∃ c₁ c₂, c₁.reg .x0 = 0x77 ∧
      busy.call .kernel_process c₁ c₂ ∧ userContext c' = contextAt c₂.mem c₂.sp) (code .ret_from_fork) (switched forking) := by
  have htail : Tail busy 0x3000 := by
    refine ⟨busy_clean _ _, ?_, fun _ => ⟨_, rfl⟩⟩
    rintro c c' rfl
    exact ⟨rfl, rfl⟩
  have hroom : Stack busy 0x3000 := by
    refine ⟨fun a ha => ?_⟩
    have htable : busy.addr .sys_call_table = 0x15000#64 := by decide
    unfold InTable at ha
    rw [htable] at ha
    unfold imm S_FRAME_SIZE __NR_syscalls at *
    bv_omega
  have hframe : ∀ a, (a - frameOf 0x2000).toNat < S_FRAME_SIZE → pageStack 0x2000 a := by
    intro a ha
    unfold frameOf imm THREAD_SIZE S_FRAME_SIZE at ha
    unfold pageStack
    bv_omega
  have hctx : storedContext forking.mem 0x2000 = newContext 0x2000 (busy.addr .kernel_process) 0x77 0x700 :=
    storedContext_eq rfl (holds_storeWords (by decide))
  have hrun : Run (ThreadNext pageStack) (bootThreads forking 0x1000)
      [⟨bootThreads forking 0x1000, .fork 0x2000, ⟨forking, 0x1000, [0x2000, 0x1000]⟩⟩]
      ⟨forking, 0x1000, [0x2000, 0x1000]⟩ := Run.nil.snoc forked
  have hswitch := forked_switch (c := forking) rfl rfl
  obtain ⟨hpc, -, hfn⟩ := new_task_runs rfl (pageStack_self _) hrun hswitch rfl hctx hframe (busy_clean _ _) htail hroom busy_inj
  refine ⟨hpc, hfn .kernel_process rfl (by decide) (fun _ _ => ⟨_, rfl⟩) ?_⟩
  rintro d d' rfl
  exact ⟨rfl, fun _ _ => rfl⟩

end ClbFilesystem
