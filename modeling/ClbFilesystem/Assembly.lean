import ClbFilesystem.Lib.A64
import ClbFilesystem.Boot
/-!
# The copy loops in assembly

The instructions of `mm.S` and `filesystem.S`, and what the subroutines leave:
where no buffer runs past the end of the address space, what `memcpy`,
`memzero` and `memwrite` compute. `b.gt` is signed, so a count from 2^63 on is
taken for a negative one. `write_inode` makes no such call.
-/

namespace ClbFilesystem

open Lib A64

/-! ## The code -/

/-- `memcpy` of `mm.S`. -/
def memcpyCode : List Instr :=
  [.ldr .x3 .x0 8, .str (.reg .x3) .x1 8, .subs .x2 .x2 8, .b_gt 0, .ret]

/-- `memzero` of `mm.S`. -/
def memzeroCode : List Instr :=
  [.str .xzr .x0 8, .subs .x1 .x1 8, .b_gt 0, .ret]

/-- `memwrite` of `filesystem.S`; `b_memewrite` is instruction 1. -/
def memwriteCode : List Instr :=
  [.mov .x4 .x2, .ldrb .x3 .x0 1, .strb .x3 .x1 1, .subs .x4 .x4 1, .b_gt 1, .sub .x0 .x2 .x4, .ret]

/-! ## One turn of each loop -/

section Turns
variable (m : Machine)

theorem memcpy_turn (hpc : m.pc = 0) : ∃ m', run memcpyCode 4 m = some m' ∧ m'.reg .x0 = m.reg .x0 + 8 ∧ m'.reg .x1 = m.reg .x1 + 8 ∧
    m'.reg .x2 = m.reg .x2 - 8 ∧ m'.mem = storeWord m.mem (m.reg .x1) (loadWord m.mem (m.reg .x0)) ∧
    m'.pc = if 8 < (m.reg .x2).toInt then 0 else 4 := by
  simp [run, step, memcpyCode, hpc, Instr.exec, Machine.read, gt_compare]

theorem memzero_turn (hpc : m.pc = 0) : ∃ m', run memzeroCode 3 m = some m' ∧ m'.reg .x0 = m.reg .x0 + 8 ∧
    m'.reg .x1 = m.reg .x1 - 8 ∧ m'.mem = storeWord m.mem (m.reg .x0) 0 ∧ m'.pc = if 8 < (m.reg .x1).toInt then 0 else 3 := by
  simp [run, step, memzeroCode, hpc, Instr.exec, Machine.read, gt_compare]

theorem b_memewrite_turn (hpc : m.pc = 1) : ∃ m', run memwriteCode 4 m = some m' ∧ m'.reg .x0 = m.reg .x0 + 1 ∧
    m'.reg .x1 = m.reg .x1 + 1 ∧
    m'.reg .x2 = m.reg .x2 ∧ m'.reg .x4 = m.reg .x4 - 1 ∧ m'.mem = Function.update m.mem (m.reg .x1) (m.mem (m.reg .x0)) ∧
    m'.pc = if 1 < (m.reg .x4).toInt then 1 else 5 := by
  simp [run, step, memwriteCode, hpc, Instr.exec, gt_compare, byteOf_setWidth]

end Turns

/-! ## `memwrite` -/

/-- `n` bytes copied one by one, the addresses counted in registers. -/
def copyUp (mem : BitVec 64 → UInt8) (src dst : BitVec 64) : Nat → BitVec 64 → UInt8
  | 0 => mem
  | n + 1 => copyUp (Function.update mem dst (mem src)) (src + 1) (dst + 1) n

/-- The bytes `memwrite` copies: its count read as a signed number, but one at least. -/
def turns (n : BitVec 64) : Nat := max 1 n.toInt.toNat

/-- The loop ends, having counted down by the bytes it copied. -/
theorem b_memewrite_runs {c : Nat} (m : Machine) (hpc : m.pc = 1) (hc : turns (m.reg .x4) = c + 1) :
    ∃ k m', run memwriteCode k m = some m' ∧ m'.pc = 5 ∧ m'.reg .x2 = m.reg .x2 ∧ m'.reg .x4 = m.reg .x4 - BitVec.ofNat 64 (c + 1) ∧
      m'.mem = copyUp m.mem (m.reg .x0) (m.reg .x1) (c + 1) := by
  induction c generalizing m with
  | zero =>
    obtain ⟨m₁, hrun, -, -, h2, h4, hmem, hpc₁⟩ := b_memewrite_turn m hpc
    have hle : ¬ 1 < (m.reg .x4).toInt := by
      unfold turns at hc
      omega
    rw [if_neg hle] at hpc₁
    exact ⟨4, m₁, hrun, hpc₁, h2, h4, hmem⟩
  | succ c ih =>
    obtain ⟨m₁, hrun, h0, h1, h2, h4, hmem, hpc₁⟩ := b_memewrite_turn m hpc
    have hlt : 1 < (m.reg .x4).toInt := by
      unfold turns at hc
      omega
    have hcount : (m.reg .x4 - 1).toInt = (m.reg .x4).toInt - 1 := toInt_sub_of_lt (i := 1) hlt
    have hc₁ : turns (m₁.reg .x4) = c + 1 := by
      unfold turns at hc ⊢
      rw [h4, hcount]
      omega
    rw [if_pos hlt] at hpc₁
    obtain ⟨k, m', hrun', hpc', hx2, hx4, hmem'⟩ := ih m₁ hpc₁ hc₁
    refine ⟨4 + k, m', ?_, hpc', hx2.trans h2, ?_, ?_⟩
    · rw [run_add, hrun]
      exact hrun'
    · rw [hx4, h4]
      bv_omega
    · rw [hmem', hmem, h0, h1]
      rfl

theorem one_le_turns (n : BitVec 64) : 1 ≤ turns n := Nat.le_max_left _ _

/-- From every state `memwrite` returns, with the number of bytes it copied. -/
theorem memwriteCode_returns (m : Machine) (hpc : m.pc = 0) : ∃ m', Returns memwriteCode m m' ∧
    m'.mem = copyUp m.mem (m.reg .x0) (m.reg .x1) (turns (m.reg .x2)) ∧ m'.reg .x0 = BitVec.ofNat 64 (turns (m.reg .x2)) := by
  obtain ⟨c, hc⟩ := Nat.exists_eq_add_of_le' (one_le_turns (m.reg .x2))
  have hmov : run memwriteCode 1 m = some (m.setReg .x4 (m.reg .x2)).next := by
    simp [run, step, memwriteCode, hpc, Instr.exec]
  obtain ⟨k, m₁, hrun, hpc₁, hx2, hx4, hmem⟩ := b_memewrite_runs (m.setReg .x4 (m.reg .x2)).next (by simp [hpc]) (by simpa using hc)
  have hsub : run memwriteCode 1 m₁ = some (m₁.setReg .x0 (m₁.reg .x2 - m₁.reg .x4)).next := by
    simp [run, step, memwriteCode, hpc₁, Instr.exec]
  have hret : memwriteCode[((m₁.setReg .x0 (m₁.reg .x2 - m₁.reg .x4)).next).pc]? = some .ret := by
    simp [hpc₁, memwriteCode]
  refine ⟨_, ((Returns.here hret).after hsub |>.after hrun).after hmov, ?_, ?_⟩
  · simpa [hc] using hmem
  · have hstart : (m.setReg .x4 (m.reg .x2)).next.reg .x4 = (m.setReg .x4 (m.reg .x2)).next.reg .x2 := by simp
    rw [hstart, ← hx2] at hx4
    calc (m₁.setReg .x0 (m₁.reg .x2 - m₁.reg .x4)).next.reg .x0
      _ = m₁.reg .x2 - m₁.reg .x4 := by simp
      _ = BitVec.ofNat 64 (turns (m.reg .x2)) := by
        rw [hx4, hc]
        bv_omega

/-! ## Copying upwards -/

/-- The addresses `[src, src + n)` and `[dst, dst + n)` have none in common. -/
def Apart (src dst : BitVec 64) (n : Nat) : Prop :=
  ∀ i < n, ∀ j < n, src + BitVec.ofNat 64 i ≠ dst + BitVec.ofNat 64 j

theorem add_one_add (a : BitVec 64) (k : Nat) : a + 1 + BitVec.ofNat 64 k = a + BitVec.ofNat 64 (k + 1) := by
  bv_omega

section CopyUp
variable (mem : BitVec 64 → UInt8) (src dst : BitVec 64) {n k : Nat}

theorem copyUp_outside {a : BitVec 64} (h : ∀ k < n, a ≠ dst + BitVec.ofNat 64 k) : copyUp mem src dst n a = mem a := by
  induction n generalizing mem src dst with
  | zero => rfl
  | succ n ih =>
    have hne : a ≠ dst := by simpa using h 0 (Nat.succ_pos n)
    rw [copyUp, ih, Function.update_of_ne hne]
    intro k hk
    rw [add_one_add]
    exact h (k + 1) (Nat.succ_lt_succ hk)

theorem copyUp_inside (hn : n ≤ 2 ^ 64) (h : Apart src dst n) (hk : k < n) :
    copyUp mem src dst n (dst + BitVec.ofNat 64 k) = mem (src + BitVec.ofNat 64 k) := by
  induction n generalizing mem src dst k with
  | zero => exact absurd hk (Nat.not_lt_zero k)
  | succ n ih =>
    rw [copyUp]
    cases k with
    | zero =>
      -- The first byte is not written again.
      have hout : ∀ j < n, dst + BitVec.ofNat 64 0 ≠ dst + 1 + BitVec.ofNat 64 j := by
        intro j hj
        bv_omega
      rw [copyUp_outside _ _ _ hout]
      simp
    | succ k =>
      have happ : Apart (src + 1) (dst + 1) n := by
        intro i hi j hj
        rw [add_one_add, add_one_add]
        exact h (i + 1) (Nat.succ_lt_succ hi) (j + 1) (Nat.succ_lt_succ hj)
      have hne : src + BitVec.ofNat 64 (k + 1) ≠ dst := by simpa using h (k + 1) hk 0 (Nat.succ_pos n)
      rw [← add_one_add, ← add_one_add, ih _ _ _ (by omega) happ (Nat.lt_of_succ_lt_succ hk), Function.update_of_ne]
      rw [add_one_add]
      exact hne

end CopyUp

/-! ## The memory of the model -/

/-- The memory as registers address it. -/
def bus (M : Mem) : BitVec 64 → UInt8 := fun a => M a.toNat

section Bus
variable (M : Mem) {src dst : Nat}

theorem bus_ofNat (h : src < 2 ^ 64) : bus M (BitVec.ofNat 64 src) = M src := by
  rw [bus, BitVec.toNat_ofNat, Nat.mod_eq_of_lt h]

theorem sub_ofNat_lt (h : dst + 8 ≤ 2 ^ 64) (b : BitVec 64) :
    (b - BitVec.ofNat 64 dst).toNat < 8 ↔ dst ≤ b.toNat ∧ b.toNat < dst + 8 := by
  bv_omega

theorem bus_copy8 (hs : src + 8 ≤ 2 ^ 64) (hd : dst + 8 ≤ 2 ^ 64) :
    storeWord (bus M) (BitVec.ofNat 64 dst) (loadWord (bus M) (BitVec.ofNat 64 src)) = bus (M.copy8 src dst) := by
  rw [storeWord_loadWord]
  funext b
  show (if _ then M _ else M _) = if _ then M _ else M _
  by_cases h : (b - BitVec.ofNat 64 dst).toNat < 8
  · have hin := (sub_ofNat_lt hd b).1 h
    rw [if_pos h, if_pos hin]
    congr 1
    bv_omega
  · rw [if_neg h, if_neg (mt (sub_ofNat_lt hd b).2 h)]

theorem bus_zero8 (hd : dst + 8 ≤ 2 ^ 64) : storeWord (bus M) (BitVec.ofNat 64 dst) 0 = bus (M.zero8 dst) := by
  funext b
  unfold storeWord
  rw [byteOf_zero]
  exact if_congr (sub_ofNat_lt hd b) rfl rfl

theorem bus_copy1 (hs : src < 2 ^ 64) (hd : dst < 2 ^ 64) :
    Function.update (bus M) (BitVec.ofNat 64 dst) (bus M (BitVec.ofNat 64 src)) = bus (M.copy1 src dst) := by
  funext b
  rw [bus_ofNat M hs, bus, Mem.copy1, Function.update_apply, Function.update_apply]
  have hiff : b = BitVec.ofNat 64 dst ↔ b.toNat = dst := by
    bv_omega
  exact if_congr hiff rfl rfl

theorem ofNat_next (a k : Nat) : BitVec.ofNat 64 a + BitVec.ofNat 64 k = BitVec.ofNat 64 (a + k) := (BitVec.ofNat_add a k).symm

theorem bus_copyBytes {n : Nat} (hs : src + n ≤ 2 ^ 64) (hd : dst + n ≤ 2 ^ 64) :
    copyUp (bus M) (BitVec.ofNat 64 src) (BitVec.ofNat 64 dst) n = bus (M.copyBytes src dst n) := by
  induction n generalizing M src dst with
  | zero => rfl
  | succ n ih =>
    have hsrc : BitVec.ofNat 64 src + 1 = BitVec.ofNat 64 (src + 1) := ofNat_next src 1
    have hdst : BitVec.ofNat 64 dst + 1 = BitVec.ofNat 64 (dst + 1) := ofNat_next dst 1
    rw [copyUp, bus_copy1 M (by omega) (by omega), hsrc, hdst]
    exact ih _ (by omega) (by omega)

end Bus

/-! ## What the subroutines compute -/

section Refines
variable (M : Mem) (m : Machine)

/-- `memcpy` is what its instructions do. -/
theorem memcpyCode_returns (src dst : Nat) (n : Int) (hsrc : src + words n ≤ 2 ^ 64) (hdst : dst + words n ≤ 2 ^ 64)
    (hpc : m.pc = 0) (h0 : m.reg .x0 = BitVec.ofNat 64 src) (h1 : m.reg .x1 = BitVec.ofNat 64 dst) (h2 : (m.reg .x2).toInt = n)
    (hmem : m.mem = bus M) : ∃ m', Returns memcpyCode m m' ∧ m'.mem = bus (memcpy M src dst n) := by
  induction M, src, dst, n using memcpy.induct generalizing m with
  | case1 M src dst n hlt ih =>
    obtain ⟨m₁, hrun, hx0, hx1, hx2, hm, hpc₁⟩ := memcpy_turn m hpc
    rw [words_succ (by omega)] at hsrc hdst
    have hcount : (m₁.reg .x2).toInt = n - 8 := by
      rw [hx2, ← h2]
      exact toInt_sub_of_lt (i := 8) (by omega)
    rw [h0] at hx0
    rw [h1] at hx1
    rw [hmem, h0, h1, bus_copy8 M (by omega) (by omega)] at hm
    obtain ⟨m', hret, hmem'⟩ := ih m₁ (by omega) (by omega) (by rw [hpc₁, if_pos (by omega)])
      (hx0.trans (ofNat_next src 8)) (hx1.trans (ofNat_next dst 8)) hcount hm
    refine ⟨m', hret.after hrun, ?_⟩
    rw [memcpy, if_pos hlt, hmem']
  | case2 M src dst n hle =>
    obtain ⟨m₁, hrun, -, -, -, hm, hpc₁⟩ := memcpy_turn m hpc
    rw [words_of_le (by omega)] at hsrc hdst
    rw [if_neg (by omega)] at hpc₁
    refine ⟨m₁, (Returns.here (by rw [hpc₁]; rfl)).after hrun, ?_⟩
    rw [memcpy, if_neg hle, hm, hmem, h0, h1, bus_copy8 M hsrc hdst]

/-- `memzero` is what its instructions do. -/
theorem memzeroCode_returns (src : Nat) (n : Int) (hsrc : src + words n ≤ 2 ^ 64) (hpc : m.pc = 0)
    (h0 : m.reg .x0 = BitVec.ofNat 64 src) (h1 : (m.reg .x1).toInt = n) (hmem : m.mem = bus M) :
    ∃ m', Returns memzeroCode m m' ∧ m'.mem = bus (memzero M src n) := by
  induction M, src, n using memzero.induct generalizing m with
  | case1 M src n hlt ih =>
    obtain ⟨m₁, hrun, hx0, hx1, hm, hpc₁⟩ := memzero_turn m hpc
    rw [words_succ (by omega)] at hsrc
    have hcount : (m₁.reg .x1).toInt = n - 8 := by
      rw [hx1, ← h1]
      exact toInt_sub_of_lt (i := 8) (by omega)
    rw [h0] at hx0
    rw [hmem, h0, bus_zero8 M (by omega)] at hm
    obtain ⟨m', hret, hmem'⟩ := ih m₁ (by omega) (by rw [hpc₁, if_pos (by omega)]) (hx0.trans (ofNat_next src 8)) hcount hm
    refine ⟨m', hret.after hrun, ?_⟩
    rw [memzero, if_pos hlt, hmem']
  | case2 M src n hle =>
    obtain ⟨m₁, hrun, -, -, hm, hpc₁⟩ := memzero_turn m hpc
    rw [words_of_le (by omega)] at hsrc
    rw [if_neg (by omega)] at hpc₁
    refine ⟨m₁, (Returns.here (by rw [hpc₁]; rfl)).after hrun, ?_⟩
    rw [memzero, if_neg hle, hm, hmem, h0, bus_zero8 M hsrc]

theorem memwrite_turns (src dst : Nat) (n : BitVec 64) :
    memwrite M src dst n.toInt = ((turns n : Int), M.copyBytes src dst (turns n)) := by
  rcases lt_or_ge n.toInt 1 with hle | hge
  · have hone : turns n = 1 := by
      unfold turns
      omega
    rw [memwrite, b_memewrite, if_neg (by omega), hone]
    refine Prod.ext ?_ rfl
    show n.toInt - (n.toInt - 1) = _
    omega
  · have hcount : n.toInt = (turns n : Int) := by
      unfold turns
      omega
    rw [hcount]
    exact memwrite_eq M src dst (one_le_turns n)

/-- `memwrite` is what its instructions do. -/
theorem memwriteCode_refines (src dst : Nat) (hsrc : src + turns (m.reg .x2) ≤ 2 ^ 64) (hdst : dst + turns (m.reg .x2) ≤ 2 ^ 64)
    (hpc : m.pc = 0) (h0 : m.reg .x0 = BitVec.ofNat 64 src) (h1 : m.reg .x1 = BitVec.ofNat 64 dst) (hmem : m.mem = bus M) :
    ∃ m', Returns memwriteCode m m' ∧ m'.mem = bus (memwrite M src dst (m.reg .x2).toInt).2 ∧
      m'.reg .x0 = BitVec.ofInt 64 (memwrite M src dst (m.reg .x2).toInt).1 := by
  obtain ⟨m', hret, hmem', hx0⟩ := memwriteCode_returns m hpc
  refine ⟨m', hret, ?_, ?_⟩
  · rw [hmem', hmem, h0, h1, bus_copyBytes M hsrc hdst, memwrite_turns]
  · rw [hx0, memwrite_turns]
    exact (BitVec.ofInt_natCast 64 _).symm

end Refines

/-! ## The call in `write_inode` -/

/-- `write_inode`, with what it calls for `memwrite`. -/
def write_inode.calling (memwrite : Mem → Nat → Nat → Int → Except Fault (Int × Mem)) (inode : Int) (data : Nat) (size : Int)
    (s : State) : Except Fault (Int × State) := do
  let i ← index inode
  if (s.inode i).type ≠ .FILE then return (-1, s)
  let dst := toUlong ((s.inode i).data_block + (s.inode i).size)
  let max_size := toInt (FILE_MAX_SIZE - (s.inode i).size : Int)
  let size := if size > max_size then max_size else size
  if size ≤ 0 then return (0, s)
  let r ← memwrite s.mem data dst size
  let written := r.1
  return (written, { s with mem := r.2 }.modInode i fun n => { n with size := toUnsigned (n.size + written) })

section Call
variable {s : State} {i : Fin FS_NPAGES}

theorem write_inode_calling (inode : Int) (data : Nat) (size : Int) (s : State) :
    write_inode.calling (fun m src dst n => .ok (memwrite m src dst n)) inode data size s = write_inode inode data size s := rfl

/-- The count is the length, cut at the room that is left. -/
theorem write_inode_calling_eq (hs : (s.inode i).size ≤ FILE_MAX_SIZE) (data : Nat) (size : Int)
    (f : Mem → Nat → Nat → Int → Except Fault (Int × Mem)) :
    write_inode.calling f i data size s =
      if (s.inode i).type ≠ .FILE then .ok (-1, s)
      else if min size (FILE_MAX_SIZE - (s.inode i).size) ≤ 0 then .ok (0, s)
      else (f s.mem data (toUlong ((s.inode i).data_block + (s.inode i).size)) (min size (FILE_MAX_SIZE - (s.inode i).size))).map
        fun r => (r.1, { s with mem := r.2 }.modInode i fun n => { n with size := toUnsigned (n.size + r.1) }) := by
  have hmax : FILE_MAX_SIZE = 4096 := rfl
  have hroom : toInt (FILE_MAX_SIZE - (s.inode i).size : Int) = (FILE_MAX_SIZE - (s.inode i).size : Int) := by
    unfold toInt
    omega
  have hcut : (if size > (FILE_MAX_SIZE - (s.inode i).size : Int) then (FILE_MAX_SIZE - (s.inode i).size : Int) else size) =
      min size (FILE_MAX_SIZE - (s.inode i).size) := by
    split <;> omega
  unfold write_inode.calling
  simp only [index_val, bind, Except.bind, pure, Except.pure, hroom, hcut]
  congr 2

/-- A write changes nothing outside the page of its inode. -/
theorem write_inode_outside (hs : (s.inode i).size ≤ FILE_MAX_SIZE) (hb : (s.inode i).data_block + FILE_MAX_SIZE ≤ 2 ^ 64)
    {data : Nat} {size r : Int} {s' : State} (hw : write_inode i data size s = .ok (r, s')) {a : Nat}
    (ha : a < (s.inode i).data_block ∨ (s.inode i).data_block + FILE_MAX_SIZE ≤ a) : s'.mem a = s.mem a := by
  rw [← write_inode_calling, write_inode_calling_eq hs] at hw
  split at hw
  · cases hw
    rfl
  split at hw
  · cases hw
    rfl
  next hpos =>
    obtain ⟨n, hn⟩ : ∃ n : Nat, min size (FILE_MAX_SIZE - (s.inode i).size) = (n : Int) := ⟨_, (Int.toNat_of_nonneg (by omega)).symm⟩
    rw [hn] at hw hpos
    have hdst : toUlong ((s.inode i).data_block + (s.inode i).size) = (s.inode i).data_block + (s.inode i).size := by
      unfold toUlong
      omega
    rw [hdst, memwrite_eq _ _ _ (by omega)] at hw
    cases hw
    exact Mem.copyBytes_outside _ _ _ _ (by omega)

end Call

/-! ## An exact copy -/

/-- What a copy of `x2` bytes from `x0` to `x1` leaves; its result is an `int`. -/
structure Copied (m m' : Machine) : Prop where
  bytes : ∀ k < (m.reg .x2).toNat, m'.mem (m.reg .x1 + BitVec.ofNat 64 k) = m.mem (m.reg .x0 + BitVec.ofNat 64 k)
  frame : ∀ a, (∀ k < (m.reg .x2).toNat, a ≠ m.reg .x1 + BitVec.ofNat 64 k) → m'.mem a = m.mem a
  count : m'.reg .x0 = m.reg .x2
  int : (m.reg .x2).toNat < 2 ^ 31 → toInt (m'.reg .x0).toNat = (m.reg .x2).toNat

theorem turns_eq {n : BitVec 64} (h : 1 ≤ n.toNat) (h' : n.toNat < 2 ^ 63) : turns n = n.toNat := by
  have hsigned : n.toInt = n.toNat := BitVec.toInt_eq_toNat_of_lt (by omega)
  unfold turns
  omega

/-- `write_inode` calls `memwrite` with a count from 1 to the room left in the page only, and changes nothing
outside it; with a count below 2^63 `memwrite` returns, and the copy is exact. -/
theorem write_inode_memwrite :
    (∀ (s : State) (i : Fin FS_NPAGES) (data : Nat) (size : Int), (s.inode i).size ≤ FILE_MAX_SIZE →
      (∀ f : Mem → Nat → Nat → Int → Except Fault (Int × Mem),
        (∀ dst, dst = toUlong ((s.inode i).data_block + (s.inode i).size) → ∀ n : Int, 1 ≤ n →
          n ≤ FILE_MAX_SIZE - (s.inode i).size → f s.mem data dst n = .ok (memwrite s.mem data dst n)) →
        write_inode.calling f i data size s = write_inode i data size s) ∧
      ((s.inode i).data_block + FILE_MAX_SIZE ≤ 2 ^ 64 → ∀ r s', write_inode i data size s = .ok (r, s') →
        ∀ a, a < (s.inode i).data_block ∨ (s.inode i).data_block + FILE_MAX_SIZE ≤ a → s'.mem a = s.mem a)) ∧
    ∀ m : Machine, m.pc = 0 → 1 ≤ (m.reg .x2).toNat → (m.reg .x2).toNat < 2 ^ 63 → Apart (m.reg .x0) (m.reg .x1) (m.reg .x2).toNat →
      ∃ m', Returns memwriteCode m m' ∧ Copied m m' := by
  refine ⟨fun s i data size hs => ⟨fun f hf => ?_, fun hb r s' hw a => write_inode_outside hs hb hw⟩, fun m hpc h1 h63 happ => ?_⟩
  · rw [← write_inode_calling, write_inode_calling_eq hs, write_inode_calling_eq hs]
    split
    · rfl
    split
    · rfl
    next hpos => rw [hf _ rfl _ (by omega) (by omega)]
  · obtain ⟨m', hret, hmem, hx0⟩ := memwriteCode_returns m hpc
    rw [turns_eq h1 h63] at hmem hx0
    have hcount : m'.reg .x0 = m.reg .x2 := by rw [hx0, BitVec.ofNat_toNat, BitVec.setWidth_eq]
    refine ⟨m', hret, fun k hk => ?_, fun a ha => ?_, hcount, fun h31 => ?_⟩
    · rw [hmem]
      exact copyUp_inside _ _ _ (by omega) happ hk
    · rw [hmem]
      exact copyUp_outside _ _ _ ha
    · rw [hcount]
      unfold toInt
      omega

/-- Three bytes from 16 to 32. -/
def copyThree : Machine where
  reg r := if r = .x0 then 16 else if r = .x1 then 32 else if r = .x2 then 3 else 0
  n := false
  z := false
  v := false
  mem a := UInt8.ofNat a.toNat
  pc := 0

/-- Entry 1 is a file with six bytes of room. -/
def sixLeft : State := (initial fun _ => 0).modInode entry1 ({ · with type := .FILE, size := 4090 })

/-- `memwrite` where more than six bytes are a fault. -/
def sixAtMost (m : Mem) (src dst : Nat) (n : Int) : Except Fault (Int × Mem) :=
  if 1 ≤ n ∧ n ≤ 6 then .ok (memwrite m src dst n) else .error .outOfBounds

theorem write_inode_memwrite_six : write_inode.calling sixAtMost entry1 0 100 sixLeft = write_inode entry1 0 100 sixLeft ∧
    (∀ r s', write_inode entry1 0 100 sixLeft = .ok (r, s') → s'.mem (pageAddr 2) = sixLeft.mem (pageAddr 2)) ∧
    ∃ m', Returns memwriteCode copyThree m' ∧ m'.mem 33 = 17 ∧ m'.mem 35 = 35 := by
  have hinode : sixLeft.inode entry1 = { initialInode entry1 with type := .FILE, size := 4090 } := by
    rw [sixLeft, State.modInode_inode, if_pos rfl, initial_inode]
  have hsize : (sixLeft.inode entry1).size = 4090 := by rw [hinode]
  have hblock : (sixLeft.inode entry1).data_block = pageAddr 1 := by rw [hinode]; rfl
  have hmax : FILE_MAX_SIZE = 4096 := rfl
  have happ : Apart 16 32 3 := by
    unfold Apart
    decide
  obtain ⟨hwrite, hcopy⟩ := write_inode_memwrite
  obtain ⟨hcalls, hinside⟩ := hwrite sixLeft entry1 0 100 (by omega)
  rw [hblock] at hinside
  refine ⟨hcalls sixAtMost fun dst hd n h1 h6 => if_pos ⟨h1, by omega⟩, fun r s' hw => ?_, ?_⟩
  · exact hinside (by decide) r s' hw _ (.inr (by decide))
  · obtain ⟨m', hret, hcopied⟩ := hcopy copyThree rfl (by decide) (by decide) happ
    exact ⟨m', hret, hcopied.bytes 1 (by decide), hcopied.frame 35 (by decide)⟩

/-- The lower half of the address space to the upper. -/
def halves : Machine where
  reg r := if r = .x1 ∨ r = .x2 then BitVec.ofNat 64 (2 ^ 63) else 0
  n := false
  z := false
  v := false
  mem _ := 0
  pc := 0

/-- A count of 2^63 is negative to `b.gt`: one byte is copied and counted. -/
theorem memwrite_halves : ¬ ∀ m : Machine, m.pc = 0 → 1 ≤ (m.reg .x2).toNat → Apart (m.reg .x0) (m.reg .x1) (m.reg .x2).toNat →
    ∃ m', Returns memwriteCode m m' ∧ Copied m m' := by
  intro h
  have happ : Apart (halves.reg .x0) (halves.reg .x1) (halves.reg .x2).toNat := by
    intro i hi j hj
    have hi : i < 2 ^ 63 := hi
    have hj : j < 2 ^ 63 := hj
    show (0 : BitVec 64) + _ ≠ BitVec.ofNat 64 (2 ^ 63) + _
    bv_omega
  obtain ⟨m', hret, hcopied⟩ := h halves rfl (by decide) happ
  obtain ⟨m₁, hret₁, -, hx0⟩ := memwriteCode_returns halves rfl
  have hone : m'.reg .x0 = 1 := by
    rw [hret.unique hret₁, hx0]
    decide
  have hcount : m'.reg .x0 = BitVec.ofNat 64 (2 ^ 63) := hcopied.count
  rw [hone] at hcount
  exact absurd hcount (by decide)

end ClbFilesystem
