import ClbFilesystem.Lib.A64
import Mathlib.Logic.Relation
/-!
# Exceptions on A64

The instructions that entries to a kernel, its exits and context switches are
written in: pairs of registers stored and loaded, the system registers an
exception goes through, calls by name. While interrupts are not masked, a
relation says how the machine may change between two instructions. `LeadsTo` says
that whatever these changes are, a piece of code comes where it should.
-/

namespace Lib.Exceptions

open A64

inductive SysReg where
  | sp_el0 | elr_el1 | spsr_el1 | esr_el1 | far_el1
  deriving DecidableEq, Repr

/-- A processor at EL0 or EL1; `sp` is SP_EL1. -/
@[ext]
structure Processor where
  reg : Reg → BitVec 64
  sp : BitVec 64
  sys : SysReg → BitVec 64
  pstate : BitVec 64
  pc : BitVec 64
  mem : BitVec 64 → UInt8

/-! ## Processor state -/

/-- PSTATE.I -/
def Processor.masked (c : Processor) : Bool := c.pstate.getLsbD 7

/-- PSTATE.Z -/
def Processor.z (c : Processor) : Bool := c.pstate.getLsbD 30

/-- PSTATE.C -/
def Processor.c (c : Processor) : Bool := c.pstate.getLsbD 29

/-- `p` with the flags N, Z, C and V. -/
def withFlags (p : BitVec 64) (n z c v : Bool) : BitVec 64 :=
  p.extractLsb' 32 32 ++ BitVec.ofBool n ++ BitVec.ofBool z ++ BitVec.ofBool c ++ BitVec.ofBool v ++ p.extractLsb' 0 28

section Flags
variable (p : BitVec 64) (n z c v : Bool)

theorem withFlags_i : (withFlags p n z c v).getLsbD 7 = p.getLsbD 7 := by
  simp only [withFlags, BitVec.getLsbD_append, BitVec.getLsbD_extractLsb']
  simp

theorem withFlags_z : (withFlags p n z c v).getLsbD 30 = z := by
  simp only [withFlags, BitVec.getLsbD_append, BitVec.getLsbD_ofBool]
  simp

theorem withFlags_c : (withFlags p n z c v).getLsbD 29 = c := by
  simp only [withFlags, BitVec.getLsbD_append, BitVec.getLsbD_ofBool]
  simp

end Flags

namespace Processor

def setReg (c : Processor) (r : Reg) (a : BitVec 64) : Processor := { c with reg := Function.update c.reg r a }

def setSys (c : Processor) (s : SysReg) (a : BitVec 64) : Processor := { c with sys := Function.update c.sys s a }

/-- The flags after `b` is taken from `a`. -/
def compare (c : Processor) (a b : BitVec 64) : Processor :=
  { c with pstate := withFlags c.pstate (a - b).msb (a - b == 0) (decide (b.toNat ≤ a.toNat)) (BitVec.ssubOverflow a b) }

section Fields
variable (c : Processor) (r r' : Reg) (s s' : SysReg) (a b : BitVec 64)

@[simp] theorem setReg_reg : (c.setReg r a).reg r' = if r' = r then a else c.reg r' := Function.update_apply _ _ _ _
@[simp] theorem setReg_sp : (c.setReg r a).sp = c.sp := rfl
@[simp] theorem setReg_sys : (c.setReg r a).sys = c.sys := rfl
@[simp] theorem setReg_pstate : (c.setReg r a).pstate = c.pstate := rfl
@[simp] theorem setReg_pc : (c.setReg r a).pc = c.pc := rfl
@[simp] theorem setReg_mem : (c.setReg r a).mem = c.mem := rfl
@[simp] theorem setSys_reg : (c.setSys s a).reg = c.reg := rfl
@[simp] theorem setSys_sp : (c.setSys s a).sp = c.sp := rfl
@[simp] theorem setSys_sys : (c.setSys s a).sys s' = if s' = s then a else c.sys s' := Function.update_apply _ _ _ _
@[simp] theorem setSys_pstate : (c.setSys s a).pstate = c.pstate := rfl
@[simp] theorem setSys_pc : (c.setSys s a).pc = c.pc := rfl
@[simp] theorem setSys_mem : (c.setSys s a).mem = c.mem := rfl
@[simp] theorem compare_reg : (c.compare a b).reg = c.reg := rfl
@[simp] theorem compare_sp : (c.compare a b).sp = c.sp := rfl
@[simp] theorem compare_sys : (c.compare a b).sys = c.sys := rfl
@[simp] theorem compare_pc : (c.compare a b).pc = c.pc := rfl
@[simp] theorem compare_mem : (c.compare a b).mem = c.mem := rfl
@[simp] theorem compare_z : (c.compare a b).z = decide (a = b) := by
  simp only [z, compare, withFlags_z, Bool.beq_eq_decide_eq]
  exact decide_eq_decide.2 ⟨fun h => by bv_omega, fun h => by bv_omega⟩
@[simp] theorem compare_c : (c.compare a b).c = decide (b.toNat ≤ a.toNat) := withFlags_c _ _ _ _ _
@[simp] theorem compare_masked : (c.compare a b).masked = c.masked := withFlags_i _ _ _ _ _

end Fields

/-- An exception is taken to EL1: where it came from is saved, and everything is masked. -/
def except (c : Processor) : Processor :=
  { (c.setSys .elr_el1 c.pc).setSys .spsr_el1 c.pstate with pstate := c.pstate &&& 0xf0000000#64 ||| 0x3c5#64 }

/-- A synchronous exception also leaves its syndrome and a faulting address. -/
def sync (c : Processor) (esr far : BitVec 64) : Processor := (c.except.setSys .esr_el1 esr).setSys .far_el1 far

theorem except_masked (c : Processor) : c.except.masked = true := by simp [masked, except]

end Processor

/-! ## Instructions -/

/-- The instructions that go on behind themselves, with interrupts as before. -/
inductive Op where
  | stp (t u : Reg) (i : Nat)
  | ldp (t u : Reg) (i : Nat)
  | str (t : Reg) (i : Nat)
  | stp_post (t u n : Reg) (i : Nat)
  | ldp_post (t u n : Reg) (i : Nat)
  | str_reg (t n : Reg)
  | ldr_reg (t n : Reg)
  | ldr_lsl3 (t n m : Reg)
  | sub_sp (i : Nat)
  | add_sp (i : Nat)
  | add_from_sp (d : Reg) (i : Nat)
  | mov_from_sp (d : Reg)
  | mov_to_sp (n : Reg)
  | mov (d n : Reg)
  | movi (d : Reg) (i : Nat)
  | add (d n m : Reg)
  | lsr (d n : Reg) (i : Nat)
  | uxtw (d n : Reg)
  | cmp (n m : Reg)
  | cmpi (n : Reg) (i : Nat)
  | mrs (d : Reg) (s : SysReg)
  | msr (s : SysReg) (n : Reg)
  deriving DecidableEq, Repr

/-- `L` are the labels of the code at hand, `S` the symbols outside of it. A leaf is called in place. -/
inductive Instr (L S : Type) where
  | op (o : Op)
  | daifset
  | daifclr
  | b (l : L)
  | b_eq (l : L)
  | b_hs (l : L)
  | cbz (n : Reg) (l : L)
  | adr (d : Reg) (s : S)
  | bl_leaf (l : L)
  | bl (s : S)
  | blr (n : Reg)
  | ret
  | eret
  deriving DecidableEq, Repr

def imm (i : Nat) : BitVec 64 := BitVec.ofNat 64 i

def Op.exec : Op → Processor → Processor
  | .stp t u i, c =>
    { c with mem := storeWord (storeWord c.mem (c.sp + imm i) (c.reg t)) (c.sp + imm i + 8) (c.reg u) }
  | .ldp t u i, c => (c.setReg t (loadWord c.mem (c.sp + imm i))).setReg u (loadWord c.mem (c.sp + imm i + 8))
  | .str t i, c => { c with mem := storeWord c.mem (c.sp + imm i) (c.reg t) }
  | .stp_post t u n i, c =>
    { c with mem := storeWord (storeWord c.mem (c.reg n) (c.reg t)) (c.reg n + 8) (c.reg u) }.setReg n (c.reg n + imm i)
  | .ldp_post t u n i, c =>
    ((c.setReg n (c.reg n + imm i)).setReg t (loadWord c.mem (c.reg n))).setReg u (loadWord c.mem (c.reg n + 8))
  | .str_reg t n, c => { c with mem := storeWord c.mem (c.reg n) (c.reg t) }
  | .ldr_reg t n, c => c.setReg t (loadWord c.mem (c.reg n))
  | .ldr_lsl3 t n m, c => c.setReg t (loadWord c.mem (c.reg n + c.reg m <<< 3))
  | .sub_sp i, c => { c with sp := c.sp - imm i }
  | .add_sp i, c => { c with sp := c.sp + imm i }
  | .add_from_sp d i, c => c.setReg d (c.sp + imm i)
  | .mov_from_sp d, c => c.setReg d c.sp
  | .mov_to_sp n, c => { c with sp := c.reg n }
  | .mov d n, c => c.setReg d (c.reg n)
  | .movi d i, c => c.setReg d (imm i)
  | .add d n m, c => c.setReg d (c.reg n + c.reg m)
  | .lsr d n i, c => c.setReg d (c.reg n >>> i)
  | .uxtw d n, c => c.setReg d ((c.reg n).setWidth 32 |>.setWidth 64)
  | .cmp n m, c => c.compare (c.reg n) (c.reg m)
  | .cmpi n i, c => c.compare (c.reg n) (imm i)
  | .mrs d s, c => c.setReg d (c.sys s)
  | .msr s n, c => c.setSys s (c.reg n)

/-! On a processor given by its fields each instruction changes one or two of them. -/

section Exec
variable (reg : Reg → BitVec 64) (sp : BitVec 64) (sys : SysReg → BitVec 64) (pstate pc : BitVec 64) (mem : BitVec 64 → UInt8)
  (d n m t u : Reg) (s : SysReg) (i : Nat)

theorem exec_stp : Op.exec (.stp t u i) ⟨reg, sp, sys, pstate, pc, mem⟩ =
    ⟨reg, sp, sys, pstate, pc, storeWord (storeWord mem (sp + imm i) (reg t)) (sp + imm i + 8) (reg u)⟩ := rfl
theorem exec_ldp : Op.exec (.ldp t u i) ⟨reg, sp, sys, pstate, pc, mem⟩ =
    ⟨Function.update (Function.update reg t (loadWord mem (sp + imm i))) u (loadWord mem (sp + imm i + 8)), sp, sys, pstate, pc, mem⟩ := rfl
theorem exec_str_reg : Op.exec (.str_reg t n) ⟨reg, sp, sys, pstate, pc, mem⟩ =
    ⟨reg, sp, sys, pstate, pc, storeWord mem (reg n) (reg t)⟩ := rfl
theorem exec_ldr_reg : Op.exec (.ldr_reg t n) ⟨reg, sp, sys, pstate, pc, mem⟩ =
    ⟨Function.update reg t (loadWord mem (reg n)), sp, sys, pstate, pc, mem⟩ := rfl
theorem exec_movi : Op.exec (.movi d i) ⟨reg, sp, sys, pstate, pc, mem⟩ = ⟨Function.update reg d (imm i), sp, sys, pstate, pc, mem⟩ := rfl
theorem exec_add : Op.exec (.add d n m) ⟨reg, sp, sys, pstate, pc, mem⟩ =
    ⟨Function.update reg d (reg n + reg m), sp, sys, pstate, pc, mem⟩ := rfl
theorem exec_mov_from_sp : Op.exec (.mov_from_sp d) ⟨reg, sp, sys, pstate, pc, mem⟩ =
    ⟨Function.update reg d sp, sp, sys, pstate, pc, mem⟩ := rfl
theorem exec_mov_to_sp : Op.exec (.mov_to_sp n) ⟨reg, sp, sys, pstate, pc, mem⟩ = ⟨reg, reg n, sys, pstate, pc, mem⟩ := rfl
theorem exec_sub_sp : Op.exec (.sub_sp i) ⟨reg, sp, sys, pstate, pc, mem⟩ = ⟨reg, sp - imm i, sys, pstate, pc, mem⟩ := rfl
theorem exec_add_from_sp : Op.exec (.add_from_sp d i) ⟨reg, sp, sys, pstate, pc, mem⟩ =
    ⟨Function.update reg d (sp + imm i), sp, sys, pstate, pc, mem⟩ := rfl
theorem exec_stp_post : Op.exec (.stp_post t u n i) ⟨reg, sp, sys, pstate, pc, mem⟩ =
    ⟨Function.update reg n (reg n + imm i), sp, sys, pstate, pc, storeWord (storeWord mem (reg n) (reg t)) (reg n + 8) (reg u)⟩ := rfl
theorem exec_ldp_post : Op.exec (.ldp_post t u n i) ⟨reg, sp, sys, pstate, pc, mem⟩ =
    ⟨Function.update (Function.update (Function.update reg n (reg n + imm i)) t (loadWord mem (reg n))) u (loadWord mem (reg n + 8)),
      sp, sys, pstate, pc, mem⟩ := rfl
theorem exec_mrs : Op.exec (.mrs d s) ⟨reg, sp, sys, pstate, pc, mem⟩ = ⟨Function.update reg d (sys s), sp, sys, pstate, pc, mem⟩ := rfl
theorem exec_msr : Op.exec (.msr s n) ⟨reg, sp, sys, pstate, pc, mem⟩ = ⟨reg, sp, Function.update sys s (reg n), pstate, pc, mem⟩ := rfl

end Exec

def execs (os : List Op) (c : Processor) : Processor := os.foldl (fun c o => o.exec c) c

@[simp] theorem execs_nil (c : Processor) : execs [] c = c := rfl
@[simp] theorem execs_cons (o : Op) (os : List Op) (c : Processor) : execs (o :: os) c = execs os (o.exec c) := rfl
theorem execs_append (os os' : List Op) (c : Processor) : execs (os ++ os') c = execs os' (execs os c) := List.foldl_append

theorem Op.exec_masked (o : Op) (c : Processor) : (o.exec c).masked = c.masked := by
  cases o <;> first | rfl | exact Processor.compare_masked _ _ _

theorem execs_masked (os : List Op) (c : Processor) : (execs os c).masked = c.masked := by
  induction os generalizing c with
  | nil => rfl
  | cons o os ih => rw [execs_cons, ih, Op.exec_masked]

/-! ## Steps -/

/-- What is outside the code: where its symbols are, and how the functions among them may return. -/
structure Env (S : Type) where
  addr : S → BitVec 64
  call : S → Processor → Processor → Prop

variable {L S : Type}

/-- One instruction at the head of what is left to do. Returns and exception returns leave the code. -/
def Step (prog : L → List (Instr L S)) (env : Env S) : List (Instr L S) → Processor → List (Instr L S) → Processor → Prop
  | [], _, _, _ => False
  | .op o :: is, c, is', c' => is' = is ∧ c' = o.exec c
  | .daifset :: is, c, is', c' => is' = is ∧ c' = { c with pstate := c.pstate ||| 0x80#64 }
  | .daifclr :: is, c, is', c' => is' = is ∧ c' = { c with pstate := c.pstate &&& ~~~0x80#64 }
  | .b l :: _, c, is', c' => is' = prog l ∧ c' = c
  | .b_eq l :: is, c, is', c' => is' = (if c.z then prog l else is) ∧ c' = c
  | .b_hs l :: is, c, is', c' => is' = (if c.c then prog l else is) ∧ c' = c
  | .cbz n l :: is, c, is', c' => is' = (if c.reg n = 0 then prog l else is) ∧ c' = c
  | .adr d s :: is, c, is', c' => is' = is ∧ c' = c.setReg d (env.addr s)
  | .bl_leaf l :: is, c, is', c' => is' = (prog l).dropLast ++ is ∧ ∃ ra, c' = c.setReg .x30 ra
  | .bl s :: is, c, is', c' => is' = is ∧ ∃ ra, env.call s (c.setReg .x30 ra) c'
  | .blr n :: is, c, is', c' => is' = is ∧ ∃ s ra, env.addr s = c.reg n ∧ env.call s (c.setReg .x30 ra) c'
  | .ret :: _, c, is', c' => is' = [] ∧ c' = { c with pc := c.reg .x30 }
  | .eret :: _, c, is', c' => is' = [] ∧ c' = { c with pc := c.sys .elr_el1, pstate := c.sys .spsr_el1 }

/-- What happens between two instructions: nothing, or interrupts while they are not masked. -/
def Between (irq : Processor → Processor → Prop) : Processor → Processor → Prop :=
  Relation.ReflTransGen fun c c' => c.masked = false ∧ irq c c'

/-- Whatever happens between the instructions, the code comes to a state in `Q`. -/
inductive LeadsTo (prog : L → List (Instr L S)) (env : Env S) (irq : Processor → Processor → Prop) (Q : List (Instr L S) → Processor → Prop) :
    List (Instr L S) → Processor → Prop
  | here {is c} : Q is c → LeadsTo prog env irq Q is c
  | step {is c} (hgoes : ∀ c₁, Between irq c c₁ → ∃ is' c', Step prog env is c₁ is' c')
      (hnext : ∀ c₁ is' c', Between irq c c₁ → Step prog env is c₁ is' c' → LeadsTo prog env irq Q is' c') :
      LeadsTo prog env irq Q is c

/-- Without interrupts the code may be left with `c'`. -/
inductive Resumes (prog : L → List (Instr L S)) (env : Env S) : List (Instr L S) → Processor → Processor → Prop
  | done {c} : Resumes prog env [] c c
  | step {is c is' c₁ c'} : Step prog env is c is' c₁ → Resumes prog env is' c₁ c' → Resumes prog env is c c'

/-- With some interrupts and some outcomes of the calls, the code comes from one state to another. -/
inductive Reaches (prog : L → List (Instr L S)) (env : Env S) (irq : Processor → Processor → Prop) :
    List (Instr L S) → Processor → List (Instr L S) → Processor → Prop
  | refl {is c} : Reaches prog env irq is c is c
  | step {is c c₁ is' c' is'' c''} : Between irq c c₁ → Step prog env is c₁ is' c' → Reaches prog env irq is' c' is'' c'' →
    Reaches prog env irq is c is'' c''

/-! ## Rules -/

section Rules
variable {prog : L → List (Instr L S)} {env : Env S} {irq : Processor → Processor → Prop} {Q Q' : List (Instr L S) → Processor → Prop}
  {is : List (Instr L S)} {c c' : Processor}

/-- What interrupts keep is kept between two instructions. -/
theorem Between.keeps (P : Processor → Prop) (hP : ∀ c c', c.masked = false → P c → irq c c' → P c') (h : Between irq c c')
    (hc : P c) : P c' := by
  induction h with
  | refl => exact hc
  | tail _ hlast ih => exact hP _ _ hlast.1 ih hlast.2

theorem Between.of_masked (hm : c.masked = true) (h : Between irq c c') : c' = c := by
  rcases Relation.ReflTransGen.cases_head h with rfl | ⟨_, ⟨hm', -⟩, -⟩
  · rfl
  · rw [hm] at hm'
    cases hm'

namespace LeadsTo

theorem trans (h : LeadsTo prog env irq Q is c) (hQ : ∀ is c, Q is c → LeadsTo prog env irq Q' is c) : LeadsTo prog env irq Q' is c := by
  induction h with
  | here hq => exact hQ _ _ hq
  | step hgoes _ ih => exact .step hgoes ih

/-- One instruction, from any state that interrupts may lead to. -/
theorem next (P : Processor → Prop) (hP : ∀ c c', c.masked = false → P c → irq c c' → P c') (hc : P c)
    (hgoes : ∀ c, P c → ∃ is' c', Step prog env is c is' c')
    (hnext : ∀ c is' c', P c → Step prog env is c is' c' → LeadsTo prog env irq Q is' c') : LeadsTo prog env irq Q is c :=
  .step (fun _ hb => hgoes _ (hb.keeps P hP hc)) fun _ _ _ hb => hnext _ _ _ (hb.keeps P hP hc)

/-- One instruction while interrupts are masked. -/
theorem masked (hm : c.masked = true) (hgoes : ∃ is' c', Step prog env is c is' c')
    (hnext : ∀ is' c', Step prog env is c is' c' → LeadsTo prog env irq Q is' c') : LeadsTo prog env irq Q is c := by
  refine .step (fun c₁ hb => ?_) fun c₁ is' c' hb hs => ?_
  · rwa [hb.of_masked hm]
  · rw [hb.of_masked hm] at hs
    exact hnext is' c' hs

theorem ops (os : List Op) (hm : c.masked = true) (h : LeadsTo prog env irq Q is (execs os c)) :
    LeadsTo prog env irq Q (os.map .op ++ is) c := by
  induction os generalizing c with
  | nil => exact h
  | cons o os ih =>
    refine masked hm ⟨_, _, rfl, rfl⟩ fun is' c' hs => ?_
    obtain ⟨rfl, rfl⟩ := hs
    exact ih (by rw [Op.exec_masked, hm]) h

/-- The same for instructions that go on behind themselves. -/
theorem op (P : Processor → Prop) (hP : ∀ c c', c.masked = false → P c → irq c c' → P c') (hc : P c) {o : Op}
    (h : ∀ c, P c → LeadsTo prog env irq Q is (o.exec c)) : LeadsTo prog env irq Q (.op o :: is) c := by
  refine next P hP hc (fun c _ => ⟨_, _, rfl, rfl⟩) fun c is' c' hc hs => ?_
  obtain ⟨rfl, rfl⟩ := hs
  exact h c hc

end LeadsTo

namespace Reaches
variable {is' : List (Instr L S)} {l : L} {o : Op}

theorem op {d : Processor} (hb : Between irq c d) (h : Reaches prog env irq is (o.exec d) is' c') :
    Reaches prog env irq (.op o :: is) c is' c' :=
  .step hb ⟨rfl, rfl⟩ h

theorem ops (os : List Op) (h : Reaches prog env irq is (execs os c) is' c') : Reaches prog env irq (os.map .op ++ is) c is' c' := by
  induction os generalizing c with
  | nil => exact h
  | cons o os ih => exact op .refl (ih h)

theorem b_eq (h : Reaches prog env irq (if c.z then prog l else is) c is' c') : Reaches prog env irq (.b_eq l :: is) c is' c' :=
  .step .refl ⟨rfl, rfl⟩ h

end Reaches

namespace Resumes

theorem of_ops {os : List Op} (h : Resumes prog env (os.map .op ++ is) c c') : Resumes prog env is (execs os c) c' := by
  induction os generalizing c with
  | nil => exact h
  | cons o os ih =>
    cases h with
    | step hs hr =>
      obtain ⟨rfl, rfl⟩ := hs
      exact ih hr

theorem of_bl {s : S} (h : Resumes prog env (.bl s :: is) c c') :
    ∃ ra c₁, env.call s (c.setReg .x30 ra) c₁ ∧ Resumes prog env is c₁ c' := by
  cases h with
  | step hs hr =>
    obtain ⟨rfl, ra, hcall⟩ := hs
    exact ⟨ra, _, hcall, hr⟩

theorem of_eret (h : Resumes prog env (.eret :: is) c c') : c' = { c with pc := c.sys .elr_el1, pstate := c.sys .spsr_el1 } := by
  cases h with
  | step hs hr =>
    obtain ⟨rfl, rfl⟩ := hs
    cases hr with
    | done => rfl
    | step hs _ => exact hs.elim

end Resumes

end Rules

/-! ## Words in a row -/

theorem wordOf_byteOf (w : BitVec 64) : wordOf (byteOf w) = w := by
  apply BitVec.eq_of_toNat_eq
  have hw := w.isLt
  simp only [byteOf, wordOf, List.range, List.range.loop, List.foldr, BitVec.toNat_ofNat, UInt8.toNat_ofNat']
  omega

theorem wordOf_congr {f g : Nat → UInt8} (h : ∀ k < 8, f k = g k) : wordOf f = wordOf g := by
  have hfold : (List.range 8).foldr (fun k n => (f k).toNat + 256 * n) 0 = (List.range 8).foldr (fun k n => (g k).toNat + 256 * n) 0 :=
    List.foldr_rel (r := Eq) rfl fun k hk n n' hn => by rw [h k (List.mem_range.1 hk), hn]
  rw [wordOf, hfold, wordOf]

theorem loadWord_congr {mem mem' : BitVec 64 → UInt8} {a : BitVec 64}
    (h : ∀ k < 8, mem' (a + BitVec.ofNat 64 k) = mem (a + BitVec.ofNat 64 k)) : loadWord mem' a = loadWord mem a :=
  wordOf_congr h

theorem loadWord_storeWord (mem : BitVec 64 → UInt8) (a w : BitVec 64) : loadWord (storeWord mem a w) a = w := by
  have hbytes : ∀ k < 8, storeWord mem a w (a + BitVec.ofNat 64 k) = byteOf w k := by
    intro k hk
    have hk' : (a + BitVec.ofNat 64 k - a).toNat = k := by bv_omega
    rw [storeWord, hk', if_pos hk]
  rw [loadWord, wordOf_congr hbytes, wordOf_byteOf]

/-- The words of a list, stored one behind the other. -/
def storeWords (mem : BitVec 64 → UInt8) (a : BitVec 64) : List (BitVec 64) → BitVec 64 → UInt8
  | [] => mem
  | w :: ws => storeWords (storeWord mem a w) (a + 8) ws

/-- The words of a list are found one behind the other. -/
def HoldsWords (mem : BitVec 64 → UInt8) (a : BitVec 64) (ws : List (BitVec 64)) : Prop :=
  ∀ i (h : i < ws.length), loadWord mem (a + imm (8 * i)) = ws[i]

section Words
variable {mem mem' : BitVec 64 → UInt8} {a b : BitVec 64} {ws ws' : List (BitVec 64)}

theorem storeWords_append : storeWords mem a (ws ++ ws') = storeWords (storeWords mem a ws) (a + imm (8 * ws.length)) ws' := by
  induction ws generalizing mem a with
  | nil => simp [storeWords, imm]
  | cons w ws ih =>
    have ha : a + 8 + imm (8 * ws.length) = a + imm (8 * (ws.length + 1)) := by
      unfold imm
      bv_omega
    rw [List.cons_append, storeWords, ih, storeWords, List.length_cons, ha]

theorem storeWords_of_ge (hb : 8 * ws.length ≤ (b - a).toNat) : storeWords mem a ws b = mem b := by
  induction ws generalizing mem a with
  | nil => rfl
  | cons w ws ih =>
    rw [List.length_cons] at hb
    have hb' : 8 * ws.length ≤ (b - (a + 8)).toNat := by bv_omega
    rw [storeWords, ih hb', storeWord, if_neg (by omega)]

theorem holds_storeWords (hlen : 8 * ws.length ≤ 2 ^ 64) : HoldsWords (storeWords mem a ws) a ws := by
  induction ws generalizing mem a with
  | nil => exact fun i h => absurd h (Nat.not_lt_zero i)
  | cons w ws ih =>
    rw [List.length_cons] at hlen
    intro i h
    cases i with
    | zero =>
      have hkept : ∀ k < 8, storeWords (storeWord mem a w) (a + 8) ws (a + BitVec.ofNat 64 k) =
          storeWord mem a w (a + BitVec.ofNat 64 k) := fun k hk => storeWords_of_ge (by bv_omega)
      rw [Nat.mul_zero, imm, BitVec.add_zero, storeWords, loadWord_congr hkept, loadWord_storeWord]
      rfl
    | succ i =>
      have ha : a + imm (8 * (i + 1)) = a + 8 + imm (8 * i) := by
        unfold imm
        bv_omega
      rw [ha, List.getElem_cons_succ]
      exact ih (by omega) i _

/-- Words lie where their bytes do. -/
theorem HoldsWords.congr (h : HoldsWords mem a ws) (hlen : 8 * ws.length ≤ 2 ^ 64)
    (hmem : ∀ b, (b - a).toNat < 8 * ws.length → mem' b = mem b) : HoldsWords mem' a ws := by
  intro i hi
  rw [← h i hi]
  refine loadWord_congr fun k hk => hmem _ ?_
  unfold imm
  bv_omega

end Words

/-! ## Rows of pairs -/

/-- Pairs of registers, stored one behind the other above `sp`. -/
def stps (i : Nat) : List (Reg × Reg) → List Op
  | [] => []
  | p :: ps => .stp p.1 p.2 i :: stps (i + 16) ps

def ldps (i : Nat) : List (Reg × Reg) → List Op
  | [] => []
  | p :: ps => .ldp p.1 p.2 i :: ldps (i + 16) ps

/-- The registers of a row, in order. -/
def row (ps : List (Reg × Reg)) : List Reg := ps.flatMap fun p => [p.1, p.2]

section Rows
variable {i : Nat} {ps : List (Reg × Reg)} {c : Processor}

theorem execs_stps : execs (stps i ps) c = { c with mem := storeWords c.mem (c.sp + imm i) ((row ps).map c.reg) } := by
  induction ps generalizing i c with
  | nil => rfl
  | cons p ps ih =>
    have ha : c.sp + imm i + 8 + 8 = c.sp + imm (i + 16) := by
      unfold imm
      bv_omega
    rw [stps, execs_cons, ih]
    simp only [Op.exec, row, List.flatMap_cons, List.cons_append, List.nil_append, List.map_cons, storeWords, ha]

theorem execs_ldps : ∃ reg, execs (ldps i ps) c = { c with reg := reg } ∧ (∀ r, r ∉ row ps → reg r = c.reg r) ∧
    ((row ps).Nodup → ∀ k (h : k < (row ps).length), reg (row ps)[k] = loadWord c.mem (c.sp + imm (i + 8 * k))) := by
  induction ps generalizing i c with
  | nil => exact ⟨c.reg, rfl, fun _ _ => rfl, fun _ k h => absurd h (Nat.not_lt_zero k)⟩
  | cons p ps ih =>
    obtain ⟨reg, hex, hother, hrow⟩ := ih (i := i + 16) (c := (Op.ldp p.1 p.2 i).exec c)
    refine ⟨reg, by rw [ldps, execs_cons, hex]; rfl, fun r hr => ?_, fun hnd k hk => ?_⟩
    · simp only [row, List.flatMap_cons, List.cons_append, List.nil_append, List.mem_cons, not_or] at hr
      rw [hother r hr.2.2]
      simp [Op.exec, hr.1, hr.2.1]
    · simp only [row, List.flatMap_cons, List.cons_append, List.nil_append, List.nodup_cons, List.mem_cons, not_or] at hnd
      obtain ⟨⟨hne, h1⟩, h2, hnd⟩ := hnd
      match k, hk with
      | 0, _ =>
        have hreg : reg p.1 = loadWord c.mem (c.sp + imm i) := by
          rw [hother _ h1]
          simp [Op.exec, hne]
        exact hreg
      | 1, _ =>
        have hreg : reg p.2 = loadWord c.mem (c.sp + imm i + 8) := by
          rw [hother _ h2]
          simp [Op.exec]
        have ha : c.sp + imm i + 8 = c.sp + imm (i + 8 * 1) := by
          unfold imm
          bv_omega
        rw [← ha]
        exact hreg
      | k + 2, hk =>
        have hk' : k < (row ps).length := by simpa [row] using hk
        have hreg := hrow hnd k hk'
        have ha : i + 16 + 8 * k = i + 8 * (k + 2) := by omega
        rw [ha] at hreg
        exact hreg

/-! The same through a register that moves on. -/

def stps_post (n : Reg) (ps : List (Reg × Reg)) : List Op := ps.map fun p => .stp_post p.1 p.2 n 16
def ldps_post (n : Reg) (ps : List (Reg × Reg)) : List Op := ps.map fun p => .ldp_post p.1 p.2 n 16

variable {n : Reg} {reg : Reg → BitVec 64} {sp : BitVec 64} {sys : SysReg → BitVec 64} {pstate pc : BitVec 64}
  {mem : BitVec 64 → UInt8}

theorem execs_stps_post (hn : n ∉ row ps) : execs (stps_post n ps) ⟨reg, sp, sys, pstate, pc, mem⟩ =
    ⟨Function.update reg n (reg n + imm (16 * ps.length)), sp, sys, pstate, pc, storeWords mem (reg n) ((row ps).map reg)⟩ := by
  induction ps generalizing reg mem with
  | nil =>
    have h0 : reg n + imm (16 * ([] : List (Reg × Reg)).length) = reg n := BitVec.add_zero _
    rw [h0, Function.update_eq_self]
    rfl
  | cons p ps ih =>
    simp only [row, List.flatMap_cons, List.cons_append, List.nil_append, List.mem_cons, not_or] at hn
    obtain ⟨h1, h2, hrow⟩ := hn
    have hother : (row ps).map (Function.update reg n (reg n + imm 16)) = (row ps).map reg :=
      List.map_congr_left fun r hr => Function.update_of_ne (by rintro rfl; exact hrow hr) _ _
    have ha : reg n + imm 16 + imm (16 * ps.length) = reg n + imm (16 * (p :: ps).length) := by
      rw [List.length_cons]
      unfold imm
      bv_omega
    have ha' : reg n + 8 + 8 = reg n + imm 16 := by
      unfold imm
      bv_omega
    rw [stps_post, List.map_cons, execs_cons, exec_stp_post, ← stps_post, ih hrow, hother, Function.update_self,
      Function.update_idem, ha]
    simp only [row, List.flatMap_cons, List.cons_append, List.nil_append, List.map_cons, storeWords, ha']

theorem execs_ldps_post (hn : n ∉ row ps) :
    ∃ reg', execs (ldps_post n ps) ⟨reg, sp, sys, pstate, pc, mem⟩ = ⟨reg', sp, sys, pstate, pc, mem⟩ ∧
    reg' n = reg n + imm (16 * ps.length) ∧ (∀ r, r ≠ n → r ∉ row ps → reg' r = reg r) ∧
    ((row ps).Nodup → ∀ k (h : k < (row ps).length), reg' (row ps)[k] = loadWord mem (reg n + imm (8 * k))) := by
  induction ps generalizing reg with
  | nil => exact ⟨reg, rfl, (BitVec.add_zero _).symm, fun _ _ _ => rfl, fun _ k h => absurd h (Nat.not_lt_zero k)⟩
  | cons p ps ih =>
    simp only [row, List.flatMap_cons, List.cons_append, List.nil_append, List.mem_cons, not_or] at hn
    obtain ⟨h1, h2, hrow⟩ := hn
    obtain ⟨reg', hex, hbase, hother, hwords⟩ := @ih (Function.update (Function.update (Function.update reg n (reg n + imm 16)) p.1
      (loadWord mem (reg n))) p.2 (loadWord mem (reg n + 8))) hrow
    have hn' : Function.update (Function.update (Function.update reg n (reg n + imm 16)) p.1 (loadWord mem (reg n))) p.2
        (loadWord mem (reg n + 8)) n = reg n + imm 16 := by
      rw [Function.update_of_ne h2, Function.update_of_ne h1, Function.update_self]
    rw [hn'] at hbase hwords
    refine ⟨reg', by rw [ldps_post, List.map_cons, execs_cons, exec_ldp_post, ← ldps_post, hex], ?_, fun r hr hr' => ?_, fun hnd k hk => ?_⟩
    · rw [hbase, List.length_cons]
      unfold imm
      bv_omega
    · simp only [row, List.flatMap_cons, List.cons_append, List.nil_append, List.mem_cons, not_or] at hr'
      rw [hother r hr hr'.2.2, Function.update_of_ne hr'.2.1, Function.update_of_ne hr'.1, Function.update_of_ne hr]
    · simp only [row, List.flatMap_cons, List.cons_append, List.nil_append, List.nodup_cons, List.mem_cons, not_or] at hnd
      obtain ⟨⟨hne, hp1⟩, hp2, hnd⟩ := hnd
      match k, hk with
      | 0, _ =>
        have hreg : reg' p.1 = loadWord mem (reg n) := by
          rw [hother _ (Ne.symm h1) hp1, Function.update_of_ne hne, Function.update_self]
        have ha : reg n + imm (8 * 0) = reg n := BitVec.add_zero _
        rw [ha]
        exact hreg
      | 1, _ =>
        have hreg : reg' p.2 = loadWord mem (reg n + 8) := by
          rw [hother _ (Ne.symm h2) hp2, Function.update_self]
        exact hreg
      | k + 2, hk =>
        have hk' : k < (row ps).length := by simpa [row] using hk
        have hreg := hwords hnd k hk'
        have ha : reg n + imm 16 + imm (8 * k) = reg n + imm (8 * (k + 2)) := by
          unfold imm
          bv_omega
        rw [ha] at hreg
        exact hreg

end Rows

end Lib.Exceptions
