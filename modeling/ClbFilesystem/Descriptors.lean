import ClbFilesystem.Delete
/-!
# Descriptors

Opening takes the first free slot, before the path is looked at; it is in use
from the moment its inode pointer is set. Closing looks at the slot only, so a
directory closed by `close_file`, or a deleted file, is closed like any other.
Both count in `ref` of the inode. Listing moves the cursor of the slot along the
brothers and writes a name to the caller's buffer.
-/

namespace ClbFilesystem

open Lib

namespace State

/-- The first slot that is not open. -/
def freeSlot (s : State) : Option (Fin MAX_OPEN_FILES) :=
  (List.finRange MAX_OPEN_FILES).find? fun d => (s.slot d).inode = none

theorem freeSlot_eq_some {s : State} {d : Fin MAX_OPEN_FILES} :
    s.freeSlot = some d ↔ (s.slot d).inode = none ∧ ∀ e < d, (s.slot e).inode ≠ none := by
  unfold freeSlot
  rw [← Fin.find?_eq_find?_finRange, Fin.find?_eq_some_iff]
  simp

theorem freeSlot_eq_none {s : State} : s.freeSlot = none ↔ ∀ d, (s.slot d).inode ≠ none := by
  simp [freeSlot]

/-- Slot `d` is open on `i`. -/
def opened (s : State) (set : Inode → FileDescriptor → FileDescriptor) (d : Fin MAX_OPEN_FILES) (i : Fin FS_NPAGES) :
    State :=
  (s.modSlot d fun slot => set (s.inode i) { slot with inode := some i }).modInode i fun n => { n with ref := n.ref + 1 }

/-- Slot `d`, open on `i`, is closed. -/
def closed (s : State) (clear : FileDescriptor → FileDescriptor) (d : Fin MAX_OPEN_FILES) (i : Fin FS_NPAGES) : State :=
  (s.modInode i fun n => { n with ref := n.ref - 1 }).modSlot d fun slot => clear { slot with inode := none }

/-- Slot `d` has listed its son `n`. -/
def listed (s : State) (mem : Mem) (d : Fin MAX_OPEN_FILES) (n : Fin FS_NPAGES) : State :=
  { s with mem := mem }.modSlot d ({ · with next_son := (s.inode n).brother })

end State

theorem get_next_fd_eq (s : State) :
    get_next_fd s = match s.freeSlot with | some d => (d.val : Int) | none => -1 := rfl

/-! ## `open_file`, `open_dir` -/

section Open
variable {s : State} {type : TypeFile} {invalid_path : VfsError} {set : Inode → FileDescriptor → FileDescriptor}

theorem openInode_full (h : s.freeSlot = none) (path : Option CStr) (fd : Int) :
    openInode type invalid_path set path (some fd) s = .ok ((.VFS_MAX_FD_REACHED, some (-1)), s) := by
  unfold openInode
  simp only [get_next_fd_eq, h]
  rfl

/-- With a free slot, where the path leads decides. -/
theorem openInode_eq {T : Tree} (h : TreeInv s T) (ht : s.token.length = MAX_SIZE_NAME + 1) {d : Fin MAX_OPEN_FILES}
    (hd : s.freeSlot = some d) (path : CStr) (fd : Int) :
    openInode type invalid_path set (some path) (some fd) s = .ok (match s.resolve path.chars with
      | none => ((invalid_path, some (d.val : Int)), { s with token := s.tokenAfter path.chars })
      | some i =>
        if s.kind i ≠ type then ((.VFS_INVALID_FD, some (d.val : Int)), { s with token := s.tokenAfter path.chars })
        else ((.VFS_OK, some (d.val : Int)), ({ s with token := s.tokenAfter path.chars } : State).opened set d i)) := by
  have hp := parse_path_eq h ht path
  generalize s.tokenAfter path.chars = tk at hp ⊢
  have hpos : ¬ ((d.val : Int) < 0) := by omega
  unfold openInode
  simp only [get_next_fd_eq, hd, hpos, if_false, bind, Except.bind, pure, Except.pure, hp]
  cases s.resolve path.chars with
  | none => rfl
  | some i =>
    by_cases hi : s.kind i = type
    · have hi' : (({ s with token := tk } : State).inode i).type = type := hi
      simp only [hi, hi', ne_eq, not_true_eq_false, if_false, fdIndex_val]
      rfl
    · have hi' : (({ s with token := tk } : State).inode i).type ≠ type := hi
      simp only [hi, hi', ne_eq, not_false_eq_true, if_true]

end Open

/-! ## `close_file`, `close_dir` -/

theorem close_negative {fd : Int} (h : 0 > fd) (clear : FileDescriptor → FileDescriptor) (s : State) :
    close clear (some fd) s = .ok ((.VFS_INVALID_FD, some fd), s) := by
  unfold close
  simp only [h, if_true]
  rfl

theorem close_eq (clear : FileDescriptor → FileDescriptor) (d : Fin MAX_OPEN_FILES) (s : State) :
    close clear (some (d.val : Int)) s = .ok (match (s.slot d).inode with
      | none => ((.VFS_INVALID_FD, some (-1)), s)
      | some i => ((.VFS_OK, some (-1)), s.closed clear d i)) := by
  unfold close
  simp only [if_neg (show ¬ 0 > (d.val : Int) by omega), fdIndex_val, bind, Except.bind, pure, Except.pure]
  cases (s.slot d).inode <;> rfl

/-! ## `get_next_dir_son` -/

/-- The memory with `bytes` at `dst`. -/
def Mem.write (m : Mem) (dst : Nat) : List UInt8 → Mem
  | [] => m
  | c :: bytes => Mem.write (Function.update m dst c) (dst + 1) bytes

theorem Mem.write_outside (m : Mem) (dst : Nat) (bytes : List UInt8) {a : Nat} (h : a < dst ∨ dst + bytes.length ≤ a) :
    m.write dst bytes a = m a := by
  induction bytes generalizing m dst with
  | nil => rfl
  | cons c bytes ih =>
    simp only [List.length_cons] at h
    unfold write
    rw [ih _ _ (by omega), Function.update_of_ne (by omega)]

/-- What is written does not depend on what was there. -/
theorem Mem.write_congr {m m' : Mem} (dst : Nat) (bytes : List UInt8) {a : Nat} (h : m a = m' a) :
    m.write dst bytes a = m'.write dst bytes a := by
  induction bytes generalizing m m' dst with
  | nil => exact h
  | cons c bytes ih =>
    apply ih (dst + 1)
    simp only [Function.update_apply, h]

/-- `strcpy` to the caller writes the string and its NUL. -/
theorem strcpyTo_eq (m : Mem) (dst : Nat) {c : List UInt8} (h0 : 0 ∉ c) (r : List UInt8) :
    strcpyTo m dst (c ++ 0 :: r) = .ok (m.write dst (c ++ [0])) := by
  induction c generalizing m dst with
  | nil => rfl
  | cons x c ih =>
    simp only [List.mem_cons, not_or] at h0
    simp only [List.cons_append, strcpyTo, ne_eq, Ne.symm h0.1, not_false_eq_true, if_true, Mem.write]
    exact ih _ _ h0.2

/-- A name has at most `MAX_SIZE_NAME` characters: after the field comes the low byte of `data_block`. -/
theorem TreeInv.length_nameOf {s : State} {T : Tree} (h : TreeInv s T) (i : Fin FS_NPAGES) :
    (s.inode i).nameOf.length ≤ MAX_SIZE_NAME := by
  have hlow : pageAddr i % 256 = 0 := by rw [pageAddr_eq]; omega
  obtain ⟨r, hr⟩ := exists_append_nul (h.zero_mem_nameRegion i)
  by_contra hlong
  have hlong' : MAX_SIZE_NAME < (cstr (s.inode i).nameRegion).length := by
    unfold Inode.nameOf at hlong; omega
  have hbyte : (s.inode i).nameRegion.drop MAX_SIZE_NAME = 0 :: (leBytes 8 (pageAddr i)).tail := by
    rw [Inode.drop_nameRegion, h.block]
    simp [leBytes, hlow]
  apply zero_not_mem_cstr (s.inode i).nameRegion
  have hget := congrArg (·[MAX_SIZE_NAME]?) hr
  rw [List.getElem?_append_left hlong', ← List.head?_drop, hbyte] at hget
  exact List.mem_of_getElem? hget.symm

/-- Listing: the name of the son under the cursor, or the end of the folder. -/
theorem get_next_dir_son_eq {s : State} {T : Tree} (h : TreeInv s T) {d : Fin MAX_OPEN_FILES} {son_name : Nat}
    (hb : son_name ≠ 0) : get_next_dir_son (some (d.val : Int)) son_name s = .ok (match (s.slot d).inode with
      | none => ((.VFS_INVALID_FD, some (-1)), s)
      | some i =>
        if s.kind i ≠ .FOLDER then ((.minusOne, some (d.val : Int)), s)
        else match (s.slot d).next_son with
          | some n => ((.VFS_OK, some (d.val : Int)), s.listed (s.mem.write son_name ((s.inode n).nameOf ++ [0])) d n)
          | none => ((.VFS_OK, some (d.val : Int)), { s with mem := s.mem.write son_name [0] })) := by
  unfold get_next_dir_son
  simp only [hb, if_false, if_neg (show ¬ 0 > (d.val : Int) by omega), fdIndex_val, bind, Except.bind, pure, Except.pure]
  cases (s.slot d).inode with
  | none => rfl
  | some i =>
    by_cases hi : s.kind i = .FOLDER
    · have hi' : (s.inode i).type = .FOLDER := hi
      simp only [hi, hi', ne_eq, not_true_eq_false, if_false]
      cases (s.slot d).next_son with
      | none => rfl
      | some n =>
        obtain ⟨r, hr⟩ := exists_append_nul (h.zero_mem_nameRegion n)
        have hcopy := strcpyTo_eq s.mem son_name (zero_not_mem_cstr (s.inode n).nameRegion) r
        rw [← hr] at hcopy
        simp only [hcopy]
        rfl
    · have hi' : (s.inode i).type ≠ .FOLDER := hi
      simp only [hi, hi', ne_eq, not_false_eq_true, if_true]

end ClbFilesystem
