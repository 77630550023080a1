import ClbFilesystem.Descriptors
/-!
# Reading and writing

A write puts at most what is left of the page behind the bytes that count, and
counts what it put; `write_file` first makes the file empty without touching the
page. A length from 2^31 on is negative to `write_inode`, which then writes
nothing. A read starts at offset 0 and cuts the count at the size of the file,
but a count that reaches `FS_NPAGES` bytes is set to `FS_NPAGES`, and `memcpy`
copies whole words.
-/

namespace ClbFilesystem

open Lib

/-! ## The counts -/

/-- The bytes a write of `len` puts behind `base` bytes. -/
def writeCount (base : Nat) (len : UInt32) : Nat :=
  if len.toNat < 2 ^ 31 then min len.toNat (FILE_MAX_SIZE - base) else 0

/-- The bytes a read of `len` returns from a file of that size. -/
def readCount (size : Nat) (len : UInt32) : Nat :=
  if size = 0 ∨ len = 0 then 0
  else if FS_NPAGES ≤ len.toNat ∧ len.toNat < 2 ^ 31 then FS_NPAGES
  else min len.toNat size

theorem toNat_ne_zero {len : UInt32} (h : len ≠ 0) : len.toNat ≠ 0 := fun hzero => h (UInt32.toNat_inj.1 hzero)

theorem writeCount_le (base : Nat) (len : UInt32) : writeCount base len ≤ min len.toNat (FILE_MAX_SIZE - base) := by
  unfold writeCount
  split
  · exact le_refl _
  · exact Nat.zero_le _

theorem base_add_writeCount_le {base : Nat} (hb : base ≤ FILE_MAX_SIZE) (len : UInt32) :
    base + writeCount base len ≤ FILE_MAX_SIZE := by
  have h := writeCount_le base len
  omega

theorem readCount_le_len (size : Nat) (len : UInt32) : readCount size len ≤ len.toNat := by
  unfold readCount
  split_ifs <;> omega

theorem readCount_le_page {size : Nat} (hs : size ≤ FILE_MAX_SIZE) (len : UInt32) : readCount size len ≤ FILE_MAX_SIZE := by
  have hn : FS_NPAGES ≤ FILE_MAX_SIZE := by decide
  unfold readCount
  split_ifs <;> omega

theorem toInt_len (len : UInt32) : toInt len.toNat =
    if len.toNat < 2 ^ 31 then (len.toNat : Int) else (len.toNat : Int) - 2 ^ 32 := by
  have := len.toNat_lt
  unfold toInt
  split_ifs <;> omega

theorem pageAddr_bounds (i : Fin FS_NPAGES) : 2 ^ 32 ≤ pageAddr i ∧ pageAddr i + 2 ^ 32 < 2 ^ 64 := by
  have := i.isLt
  rw [pageAddr_eq]
  simp only [FS_NPAGES] at this
  omega

/-! ## `write_inode` -/

/-- Entry `i` has `r` bytes from `str` behind its first `base` ones, and ends there. -/
def State.written (s : State) (i : Fin FS_NPAGES) (str base r : Nat) : State :=
  { s with mem := s.mem.copyBytes str (pageAddr i + base) r }.modInode i ({ · with size := base + r })

section Written
variable (s : State) (i j : Fin FS_NPAGES) (str base r : Nat)

@[simp] theorem State.written_mem : (s.written i str base r).mem = s.mem.copyBytes str (pageAddr i + base) r := rfl
@[simp] theorem State.written_slot (d : Fin MAX_OPEN_FILES) : (s.written i str base r).slot d = s.slot d := rfl
@[simp] theorem State.written_token : (s.written i str base r).token = s.token := rfl

theorem State.written_inode :
    (s.written i str base r).inode j = if j = i then { s.inode j with size := base + r } else s.inode j :=
  State.modInode_inode _ _ _ _

@[simp] theorem State.written_kind : (s.written i str base r).kind j = s.kind j := by
  rw [kind, written_inode]
  split <;> rfl

end Written

theorem write_inode_eq {s : State} {i : Fin FS_NPAGES} (ht : (s.inode i).type = .FILE)
    (hb : (s.inode i).data_block = pageAddr i) (hs : (s.inode i).size ≤ FILE_MAX_SIZE) (str : Nat) (len : UInt32) :
    write_inode i str (toInt len.toNat) s = .ok ((writeCount (s.inode i).size len : Int),
      s.written i str (s.inode i).size (writeCount (s.inode i).size len)) := by
  obtain ⟨hlow, hhigh⟩ := pageAddr_bounds i
  have hlen := len.toNat_lt
  have hmax : FILE_MAX_SIZE = 4096 := rfl
  have hdst : toUlong (pageAddr i + (s.inode i).size) = pageAddr i + (s.inode i).size := by
    unfold toUlong; omega
  have hroom : toInt (FILE_MAX_SIZE - (s.inode i).size : Int) = (FILE_MAX_SIZE - (s.inode i).size : Int) := by
    unfold toInt; omega
  -- What is left of the length once it is cut at the room in the page.
  generalize hr : writeCount (s.inode i).size len = r
  have hcut : (if toInt len.toNat > (FILE_MAX_SIZE - (s.inode i).size : Int) then (FILE_MAX_SIZE - (s.inode i).size : Int)
      else toInt len.toNat) ≤ 0 ∧ r = 0 ∨
      (if toInt len.toNat > (FILE_MAX_SIZE - (s.inode i).size : Int) then (FILE_MAX_SIZE - (s.inode i).size : Int)
      else toInt len.toNat) = (r : Int) ∧ 1 ≤ r := by
    rw [toInt_len, ← hr]
    unfold writeCount
    split_ifs <;> omega
  unfold write_inode
  simp only [index_val, bind, Except.bind, pure, Except.pure, ht, ne_eq, not_true_eq_false, if_false, hb, hdst, hroom]
  rcases hcut with ⟨hle, rfl⟩ | ⟨heq, hpos⟩
  · simp only [hle, if_true]
    refine congrArg (fun s' => Except.ok ((0 : Int), s')) (State.ext_inode (fun j => ?_) rfl rfl rfl)
    rw [State.written_inode]
    by_cases hj : j = i
    · subst hj; simp
    · simp [hj]
  · have hsize : toUnsigned ((s.inode i).size + r : Int) = (s.inode i).size + r := by
      have := base_add_writeCount_le hs len
      rw [hr] at this
      unfold toUnsigned; omega
    simp only [heq, if_neg (show ¬ (r : Int) ≤ 0 by omega), memwrite_eq _ _ _ hpos]
    refine congrArg (fun s' => Except.ok ((r : Int), s')) (State.ext_inode (fun j => ?_) rfl rfl rfl)
    rw [State.written_inode, State.modInode_inode]
    by_cases hj : j = i
    · subst hj
      simp only [if_true]
      exact congrArg (fun k => ({ s.inode j with size := k } : Inode)) hsize
    · simp only [hj, if_false]
      rfl

/-! ## `write_file`, `append_file` -/

/-- The file a slot is open on. -/
def State.fileAt (s : State) (d : Fin MAX_OPEN_FILES) : InodePtr :=
  (s.slot d).inode.filter fun i => (s.inode i).type = .FILE

theorem State.fileAt_eq_some {s : State} {d : Fin MAX_OPEN_FILES} {i : Fin FS_NPAGES} :
    s.fileAt d = some i ↔ (s.slot d).inode = some i ∧ (s.inode i).type = .FILE := by
  simp [fileAt, Option.filter_eq_some_iff]

theorem fileOf_eq (s : State) (d : Fin MAX_OPEN_FILES) {str : Nat} (hstr : str ≠ 0) :
    fileOf (some (d.val : Int)) str s = .ok ((s.fileAt d).map fun i => (d, i)) := by
  unfold fileOf State.fileAt
  simp only [hstr, if_false, if_neg (show ¬ 0 > (d.val : Int) by omega), fdIndex_val, bind, Except.bind, pure, Except.pure]
  cases (s.slot d).inode with
  | none => rfl
  | some i => by_cases hi : (s.inode i).type = .FILE <;> simp [hi, Option.filter]

section Write
variable {s : State} {T : Tree} (h : TreeInv s T) {d : Fin MAX_OPEN_FILES} {str : Nat} (hstr : str ≠ 0) (len : UInt32)
include h hstr

theorem write_file_eq : write_file (some (d.val : Int)) str len s = .ok (match s.fileAt d with
    | none => (-1, s)
    | some i => ((writeCount 0 len : Int), s.written i str 0 (writeCount 0 len))) := by
  unfold write_file
  simp only [fileOf_eq s d hstr, bind, Except.bind]
  cases hi : s.fileAt d with
  | none => rfl
  | some i =>
    have ht := (State.fileAt_eq_some.1 hi).2
    have hreset : reset_inode i s = .ok (0, s.modInode i ({ · with size := 0 })) := by
      unfold reset_inode
      simp only [index_val, bind, Except.bind, pure, Except.pure, ht, ne_eq, not_true_eq_false, if_false]
    have hwrite := write_inode_eq (s := s.modInode i ({ · with size := 0 })) (i := i) (by simpa using ht)
      (by simpa using h.block i) (by simp) str len
    simp only [Option.map_some, h.id, hreset, ne_eq, not_true_eq_false, if_false, State.modInode_inode, if_true] at hwrite ⊢
    rw [hwrite]
    refine congrArg (fun s' => Except.ok ((writeCount 0 len : Int), s')) (State.ext_inode (fun j => ?_) rfl rfl rfl)
    rw [State.written_inode, State.written_inode, State.modInode_inode]
    by_cases hj : j = i <;> simp [hj]

theorem append_file_eq : append_file (some (d.val : Int)) str len s = .ok (match s.fileAt d with
    | none => (-1, s)
    | some i => ((writeCount (s.inode i).size len : Int),
        s.written i str (s.inode i).size (writeCount (s.inode i).size len))) := by
  unfold append_file
  simp only [fileOf_eq s d hstr, bind, Except.bind]
  cases hi : s.fileAt d with
  | none => rfl
  | some i =>
    have hwrite := write_inode_eq (State.fileAt_eq_some.1 hi).2 (h.block i) (h.size i) str len
    simp only [Option.map_some, h.id, hwrite]

end Write

/-! ## `read_file` -/

theorem size_to_read_eq {n : Inode} {i : Fin FS_NPAGES} (hb : n.data_block = pageAddr i) (hs : n.size ≤ FILE_MAX_SIZE)
    {len : UInt32} (hn : ¬ (n.size = 0 ∨ len = 0)) : size_to_read n 0 (toInt len.toNat) = readCount n.size len := by
  obtain ⟨hlow, hhigh⟩ := pageAddr_bounds i
  have hlen := len.toNat_lt
  have hmax : FILE_MAX_SIZE = 4096 := rfl
  have hpages : FS_NPAGES = 128 := rfl
  have hint := toInt_len len
  have hcount : toUnsigned (0 + toInt len.toNat) = len.toNat := by
    rw [hint]; unfold toUnsigned; split_ifs <;> omega
  have hstart : toUlong ((pageAddr i : Int) + 0) = pageAddr i := by unfold toUlong; omega
  have hend : toUlong ((pageAddr i : Int) + toInt len.toNat) ≥ pageAddr i + FS_NPAGES ↔
      FS_NPAGES ≤ len.toNat ∧ len.toNat < 2 ^ 31 := by
    rw [hint]; unfold toUlong; split_ifs <;> omega
  have hcap : toUlong ((pageAddr i : Int) + FS_NPAGES) = pageAddr i + FS_NPAGES := by unfold toUlong; omega
  have hcut : toUlong ((pageAddr i : Int) + FS_NPAGES - pageAddr i) = FS_NPAGES := by unfold toUlong; omega
  have hall : toUnsigned ((n.size : Int) - 0) = n.size := by unfold toUnsigned; omega
  have hmin : (if len.toNat ≥ n.size then n.size else toUlong (toInt len.toNat)) = min len.toNat n.size := by
    rw [hint]; unfold toUlong; split_ifs <;> omega
  unfold size_to_read readCount
  simp only [hb, hcount, hstart, hcap, hend, hcut, hall, hmin, if_neg hn]

/-- The memory after a read of `len` bytes of file `i` to `str`. -/
def State.fetched (s : State) (i : Fin FS_NPAGES) (str : Nat) (len : UInt32) : Mem :=
  if (s.inode i).size = 0 ∨ len = 0 then s.mem.write str [0]
  else memcpy s.mem (pageAddr i) str (readCount (s.inode i).size len)

theorem read_file_eq {s : State} {T : Tree} (h : TreeInv s T) {d : Fin MAX_OPEN_FILES} (hd : (s.slot d).next = 0)
    {str : Nat} (hstr : str ≠ 0) (len : UInt32) :
    read_file (some (d.val : Int)) str len s = .ok (match s.fileAt d with
      | none => (-1, s)
      | some i => ((readCount (s.inode i).size len : Int), { s with mem := s.fetched i str len })) := by
  unfold read_file
  simp only [fileOf_eq s d hstr, bind, Except.bind]
  cases hi : s.fileAt d with
  | none => rfl
  | some i =>
    have ht := (State.fileAt_eq_some.1 hi).2
    unfold State.fetched
    by_cases hz : (s.inode i).size = 0 ∨ len = 0
    · have hz' : 0 ≥ (s.inode i).size ∨ len = 0 := hz.imp_left le_of_eq
      have hcount : readCount (s.inode i).size len = 0 := by unfold readCount; rw [if_pos hz]
      simp only [Option.map_some, hd, hz', hz, hcount, if_true]
      rfl
    · have hz' : ¬ (0 ≥ (s.inode i).size ∨ len = 0) := fun e => hz (e.imp_left Nat.le_zero.1)
      have hrange : ¬ ((i.val : Int) < 0 ∨ (i.val : Int) ≥ FS_NPAGES) := by have := i.isLt; omega
      obtain ⟨hlow, hhigh⟩ := pageAddr_bounds i
      have hmax : FILE_MAX_SIZE = 4096 := rfl
      have hle := readCount_le_page (h.size i) len
      have hzero : toInt ((0 : Nat) : Int) = 0 := by decide
      have hstart : toUlong ((pageAddr i : Int) + 0) = pageAddr i := by unfold toUlong; omega
      have hret : toInt (readCount (s.inode i).size len) = readCount (s.inode i).size len := by unfold toInt; omega
      have hcopied : toLong (readCount (s.inode i).size len) = readCount (s.inode i).size len := by unfold toLong; omega
      unfold read_inode
      simp only [Option.map_some, hd, hz', hz, if_false, h.id, hrange, index_val, bind, Except.bind, pure, Except.pure, ht,
        ne_eq, not_true_eq_false, hzero, size_to_read_eq (h.block i) (h.size i) hz, h.block, hstart, hret, hcopied]

end ClbFilesystem
