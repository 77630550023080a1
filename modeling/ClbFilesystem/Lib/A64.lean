import Mathlib.Algebra.Group.Nat.Defs
import Mathlib.Logic.Function.Basic
/-!
# A fragment of A64

The instructions that loops over the bytes or words of memory are written in,
on a machine with the general registers, the flags that signed conditions read
and a memory of bytes, little-endian. A subroutine is the list of its
instructions; it returns where it comes to `ret`.
-/

namespace Lib.A64

inductive Reg where
  | x0 | x1 | x2 | x3 | x4 | x5 | x6 | x7 | x8 | x9 | x10 | x11 | x12 | x13 | x14 | x15
  | x16 | x17 | x18 | x19 | x20 | x21 | x22 | x23 | x24 | x25 | x26 | x27 | x28 | x29 | x30
  deriving DecidableEq, Repr

/-- What is stored: a register, or zero. -/
inductive Operand where
  | reg (r : Reg)
  | xzr
  deriving DecidableEq, Repr

/-- Loads and stores add `i` to the address register after the access; a branch has the index of its target. -/
inductive Instr where
  | mov (d n : Reg)
  | ldrb (t n : Reg) (i : Nat)
  | strb (t n : Reg) (i : Nat)
  | ldr (t n : Reg) (i : Nat)
  | str (t : Operand) (n : Reg) (i : Nat)
  | subs (d n : Reg) (i : Nat)
  | sub (d n m : Reg)
  | b_gt (l : Nat)
  | ret
  deriving DecidableEq, Repr

structure Machine where
  reg : Reg → BitVec 64
  /-- The last comparison: negative, zero, overflow. -/
  n : Bool
  z : Bool
  v : Bool
  mem : BitVec 64 → UInt8
  /-- The index of the next instruction. -/
  pc : Nat

/-! ## Words in memory -/

/-- Byte `k` of a word. -/
def byteOf (w : BitVec 64) (k : Nat) : UInt8 := UInt8.ofNat (w.toNat / 256 ^ k)

/-- The word with the bytes `f 0`, …, `f 7`. -/
def wordOf (f : Nat → UInt8) : BitVec 64 :=
  BitVec.ofNat 64 ((List.range 8).foldr (fun k n => (f k).toNat + 256 * n) 0)

def loadWord (mem : BitVec 64 → UInt8) (a : BitVec 64) : BitVec 64 := wordOf fun k => mem (a + BitVec.ofNat 64 k)

def storeWord (mem : BitVec 64 → UInt8) (a w : BitVec 64) : BitVec 64 → UInt8 := fun b =>
  if (b - a).toNat < 8 then byteOf w (b - a).toNat else mem b

theorem byteOf_wordOf (f : Nat → UInt8) {k : Nat} (hk : k < 8) : byteOf (wordOf f) k = f k := by
  have h : ∀ j, (f j).toNat < 256 := fun j => (f j).toNat_lt
  have h0 := h 0
  have h1 := h 1
  have h2 := h 2
  have h3 := h 3
  have h4 := h 4
  have h5 := h 5
  have h6 := h 6
  have h7 := h 7
  apply UInt8.toNat_inj.1
  simp only [byteOf, wordOf, List.range, List.range.loop, List.foldr, BitVec.toNat_ofNat, UInt8.toNat_ofNat']
  have hcases : k = 0 ∨ k = 1 ∨ k = 2 ∨ k = 3 ∨ k = 4 ∨ k = 5 ∨ k = 6 ∨ k = 7 := by omega
  rcases hcases with rfl | rfl | rfl | rfl | rfl | rfl | rfl | rfl <;> omega

/-- A word loaded and stored elsewhere: its bytes. -/
theorem storeWord_loadWord (mem : BitVec 64 → UInt8) (src dst : BitVec 64) :
    storeWord mem dst (loadWord mem src) = fun b => if (b - dst).toNat < 8 then mem (src + (b - dst)) else mem b := by
  funext b
  unfold storeWord loadWord
  split
  · next h =>
    rw [byteOf_wordOf _ h, BitVec.ofNat_toNat, BitVec.setWidth_eq]
  · rfl

/-- A byte loaded and stored. -/
theorem byteOf_setWidth (b : UInt8) : byteOf (b.toBitVec.setWidth 64) 0 = b := by
  have hb : b.toBitVec.toNat % 2 ^ 64 = b.toNat := Nat.mod_eq_of_lt (Nat.lt_trans b.toNat_lt (by decide))
  rw [byteOf, BitVec.toNat_setWidth, hb, Nat.pow_zero, Nat.div_one, UInt8.ofNat_toNat]

theorem byteOf_zero (k : Nat) : byteOf 0 k = 0 := by simp [byteOf]

/-! ## Execution -/

namespace Machine

def setReg (m : Machine) (r : Reg) (a : BitVec 64) : Machine := { m with reg := Function.update m.reg r a }

def setMem (m : Machine) (mem : BitVec 64 → UInt8) : Machine := { m with mem := mem }

def jump (m : Machine) (l : Nat) : Machine := { m with pc := l }

def next (m : Machine) : Machine := m.jump (m.pc + 1)

def read (m : Machine) : Operand → BitVec 64
  | .reg r => m.reg r
  | .xzr => 0

/-- The condition `gt`. -/
def gt (m : Machine) : Bool := !m.z && m.n == m.v

/-- The flags after `b` is taken from `a`. -/
def compare (m : Machine) (a b : BitVec 64) : Machine :=
  { m with n := (a - b).msb, z := a - b == 0, v := BitVec.ssubOverflow a b }

section Fields
variable (m : Machine) (r s : Reg) (a b : BitVec 64) (mem : BitVec 64 → UInt8) (l : Nat)

@[simp] theorem setReg_reg : (m.setReg r a).reg s = if s = r then a else m.reg s := Function.update_apply _ _ _ _
@[simp] theorem setReg_mem : (m.setReg r a).mem = m.mem := rfl
@[simp] theorem setReg_pc : (m.setReg r a).pc = m.pc := rfl
@[simp] theorem setReg_gt : (m.setReg r a).gt = m.gt := rfl
@[simp] theorem setMem_reg : (m.setMem mem).reg = m.reg := rfl
@[simp] theorem setMem_mem : (m.setMem mem).mem = mem := rfl
@[simp] theorem setMem_pc : (m.setMem mem).pc = m.pc := rfl
@[simp] theorem jump_reg : (m.jump l).reg = m.reg := rfl
@[simp] theorem jump_mem : (m.jump l).mem = m.mem := rfl
@[simp] theorem jump_pc : (m.jump l).pc = l := rfl
@[simp] theorem next_reg : m.next.reg = m.reg := rfl
@[simp] theorem next_mem : m.next.mem = m.mem := rfl
@[simp] theorem next_pc : m.next.pc = m.pc + 1 := rfl
@[simp] theorem next_gt : m.next.gt = m.gt := rfl
@[simp] theorem compare_reg : (m.compare a b).reg = m.reg := rfl
@[simp] theorem compare_mem : (m.compare a b).mem = m.mem := rfl
@[simp] theorem compare_pc : (m.compare a b).pc = m.pc := rfl

end Fields

end Machine

def Instr.exec : Instr → Machine → Option Machine
  | .mov d n, m => some (m.setReg d (m.reg n)).next
  | .ldrb t n i, m => some ((m.setReg n (m.reg n + BitVec.ofNat 64 i)).setReg t ((m.mem (m.reg n)).toBitVec.setWidth 64)).next
  | .strb t n i, m =>
    some ((m.setMem (Function.update m.mem (m.reg n) (byteOf (m.reg t) 0))).setReg n (m.reg n + BitVec.ofNat 64 i)).next
  | .ldr t n i, m => some ((m.setReg n (m.reg n + BitVec.ofNat 64 i)).setReg t (loadWord m.mem (m.reg n))).next
  | .str t n i, m => some ((m.setMem (storeWord m.mem (m.reg n) (m.read t))).setReg n (m.reg n + BitVec.ofNat 64 i)).next
  | .subs d n i, m => some ((m.compare (m.reg n) (BitVec.ofNat 64 i)).setReg d (m.reg n - BitVec.ofNat 64 i)).next
  | .sub d n r, m => some (m.setReg d (m.reg n - m.reg r)).next
  | .b_gt l, m => some (m.jump (if m.gt then l else m.pc + 1))
  | .ret, _ => none

def step (code : List Instr) (m : Machine) : Option Machine := code[m.pc]?.bind fun i => i.exec m

/-- `k` instructions. -/
def run (code : List Instr) : Nat → Machine → Option Machine
  | 0, m => some m
  | k + 1, m => (step code m).bind (run code k)

/-- From `m` the subroutine comes to its `ret`, in `m'`. -/
def Returns (code : List Instr) (m m' : Machine) : Prop := ∃ k, run code k m = some m' ∧ code[m'.pc]? = some .ret

/-! ## Rules -/

section Rules
variable {code : List Instr} {m m₁ m' m'' : Machine} {k : Nat}

theorem run_add (j : Nat) : run code (j + k) m = (run code j m).bind (run code k) := by
  induction j generalizing m with
  | zero => rw [Nat.zero_add]; rfl
  | succ j ih =>
    rw [Nat.succ_add, run, run]
    cases step code m with
    | none => rfl
    | some m₁ => exact ih

theorem Returns.here (h : code[m.pc]? = some .ret) : Returns code m m := ⟨0, rfl, h⟩

theorem Returns.after (h : run code k m = some m₁) (h' : Returns code m₁ m') : Returns code m m' := by
  obtain ⟨j, hrun, hret⟩ := h'
  refine ⟨k + j, ?_, hret⟩
  rw [run_add, h]
  exact hrun

/-- Nothing runs past `ret`. -/
theorem run_ret (h : code[m.pc]? = some .ret) (hrun : run code k m = some m') : m' = m := by
  cases k with
  | zero => exact (Option.some.inj hrun).symm
  | succ k =>
    have hstep : step code m = none := by
      rw [step, h]
      rfl
    rw [run, hstep] at hrun
    cases hrun

/-- A subroutine returns in one state at most. -/
theorem Returns.unique (h : Returns code m m') (h' : Returns code m m'') : m' = m'' := by
  obtain ⟨j, hrun, hret⟩ := h
  obtain ⟨k, hrun', hret'⟩ := h'
  rcases Nat.le_total j k with hle | hle
  · obtain ⟨i, rfl⟩ := Nat.exists_eq_add_of_le hle
    rw [run_add, hrun] at hrun'
    exact (run_ret hret hrun').symm
  · obtain ⟨i, rfl⟩ := Nat.exists_eq_add_of_le hle
    rw [run_add, hrun'] at hrun
    exact run_ret hret' hrun

/-- After a comparison `gt` tells the signed order, also where the difference overflows. -/
theorem gt_compare (m : Machine) (a b : BitVec 64) : (m.compare a b).gt = decide (b.toInt < a.toInt) := by
  have ha := a.toInt_lt
  have ha' := a.le_toInt
  have hb := b.toInt_lt
  have hb' := b.le_toInt
  have hsub : (a - b).toInt = (a.toInt - b.toInt).bmod (2 ^ 64) := BitVec.toInt_sub
  have hmsb : (a - b).msb = decide ((a - b).toInt < 0) := BitVec.msb_eq_toInt
  have hzero : (a - b == 0) = decide ((a - b).toInt = 0) := by
    rw [Bool.eq_iff_iff, beq_iff_eq, decide_eq_true_iff, ← BitVec.toInt_inj]
    rfl
  have hover : BitVec.ssubOverflow a b = decide (2 ^ 63 ≤ a.toInt - b.toInt ∨ a.toInt - b.toInt < -2 ^ 63) := by
    simp [BitVec.ssubOverflow]
  unfold Machine.gt Machine.compare
  simp only [hmsb, hzero, hover, hsub, Int.bmod_def]
  generalize a.toInt = x at *
  generalize b.toInt = y at *
  rw [Bool.eq_iff_iff]
  simp only [Bool.and_eq_true, Bool.not_eq_true', decide_eq_false_iff_not, beq_iff_eq, decide_eq_decide, decide_eq_true_iff]
  split <;> omega

/-- A count is taken down as a signed number. -/
theorem toInt_sub_of_lt {a : BitVec 64} {i : Nat} (hi : (i : Int) < a.toInt) :
    (a - BitVec.ofNat 64 i).toInt = a.toInt - i := by
  have ha := a.toInt_lt
  have hlt : i < 2 ^ 63 := by omega
  have hcount : (BitVec.ofNat 64 i).toInt = i := by
    rw [BitVec.toInt_ofNat', Int.bmod_def]
    split <;> omega
  rw [BitVec.toInt_sub, hcount, Int.bmod_def]
  split <;> omega

end Rules

end Lib.A64
