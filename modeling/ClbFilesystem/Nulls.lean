import ClbFilesystem.Guards
import ClbFilesystem.Root
/-!
# Null pointers

Each call checks its pointer arguments before it follows one, but for the path of
the two opens, which `parse_path` reads at once. Inside the tables the checks of
the loops and the tree are enough: the only null pointer to an inode that is ever
followed is the father of the root.
-/

namespace ClbFilesystem

open Lib

namespace Call

/-- One of the pointers the call is given is null. -/
def NullArgument : Call → Prop
  | .create_file path name | .create_dir path name => path = none ∨ name = none
  | .delete_file path | .delete_dir path => path = none
  | .open_file path fd | .open_dir path fd => path = none ∨ fd = none
  | .close_file fd | .close_dir fd => fd = none
  | .read_file fd str _ | .write_file fd str _ | .append_file fd str _ => fd = none ∨ str = 0
  | .get_next_dir_son fd son_name => fd = none ∨ son_name = 0

/-- An open whose path is null, and not its variable. -/
def OpensNull (c : Call) : Prop := ∃ v, c.Opening none (some v)

/-- The call is asked to delete the root. -/
def DeletesRoot (c : Call) (s : State) : Prop := ∃ path, c.Deletes path ∧ Designates s path ROOT_INODE

end Call

/-- A null argument is answered by an error for it, with tables and contents unchanged, and no null pointer is
followed. -/
structure NullSafe (s : State) (c : Call) : Prop where
  answered : c.NullArgument → ∃ r s', exec c s = .ok (r, s') ∧
    (r.ret = .error .VFS_NULL_POINTER ∨ r.ret = .count (-1)) ∧
    s'.RAM_inodes_table = s.RAM_inodes_table ∧ s'.mem = s.mem ∧ s'.open_inodes = s.open_inodes
  followed : exec c s ≠ .error .nullPointer

section Calls
variable {s : State} {c : Call}

/-- The checks come first, except in the opens. -/
theorem exec_nullArgument (h : c.NullArgument) (hopen : ¬ c.OpensNull) :
    ∃ r, exec c s = .ok (r, s) ∧ (r.ret = .error .VFS_NULL_POINTER ∨ r.ret = .count (-1)) := by
  cases c
  case create_file path name =>
    rcases h with rfl | rfl
    · exact ⟨_, rfl, .inl rfl⟩
    · cases path <;> exact ⟨_, rfl, .inl rfl⟩
  case create_dir path name =>
    rcases h with rfl | rfl
    · exact ⟨_, rfl, .inl rfl⟩
    · cases path <;> exact ⟨_, rfl, .inl rfl⟩
  case delete_file path =>
    obtain rfl := h
    exact ⟨_, rfl, .inl rfl⟩
  case delete_dir path =>
    obtain rfl := h
    exact ⟨_, rfl, .inl rfl⟩
  case open_file path fd => cases fd with
    | none => exact ⟨_, rfl, .inl rfl⟩
    | some v =>
      obtain rfl := h.resolve_right (by simp)
      exact absurd ⟨v, .open_file⟩ hopen
  case open_dir path fd => cases fd with
    | none => exact ⟨_, rfl, .inl rfl⟩
    | some v =>
      obtain rfl := h.resolve_right (by simp)
      exact absurd ⟨v, .open_dir⟩ hopen
  case close_file fd =>
    obtain rfl := h
    exact ⟨_, rfl, .inl rfl⟩
  case close_dir fd =>
    obtain rfl := h
    exact ⟨_, rfl, .inl rfl⟩
  case get_next_dir_son fd son_name => cases fd with
    | none => exact ⟨_, rfl, .inl rfl⟩
    | some v =>
      obtain rfl := h.resolve_left (by simp)
      exact ⟨_, rfl, .inl rfl⟩
  all_goals
    rename_i fd str len
    cases fd with
    | none => exact ⟨_, rfl, .inr rfl⟩
    | some v =>
      obtain rfl := h.resolve_left (by simp)
      exact ⟨_, rfl, .inr rfl⟩

/-- An open with a null path follows it when a slot is free, else it reports the full table. -/
theorem exec_opensNull {v : Int} (hc : c.Opening none (some v)) : exec c s = match s.freeSlot with
    | some _ => .error .nullPointer
    | none => .ok ({ ret := .error .VFS_MAX_FD_REACHED, fd := some (-1) }, s) := by
  have hopen : ∀ type invalid_path set, openInode type invalid_path set none (some v) s = match s.freeSlot with
      | some _ => .error .nullPointer
      | none => .ok ((.VFS_MAX_FD_REACHED, some (-1)), s) := by
    intro type invalid_path set
    cases hd : s.freeSlot with
    | none => exact openInode_full hd none v
    | some d =>
      unfold openInode
      simp only [get_next_fd_eq, hd, if_neg (show ¬ ((d.val : Int) < 0) by omega)]
      rfl
  cases hc
  all_goals
    simp only [exec, open_file, open_dir, hopen]
    cases s.freeSlot <;> rfl

/-- A call on a slot returns. -/
theorem exec_slot_returns (hi : Inv s) {d : Fin MAX_OPEN_FILES} (hd : c.given = some (d.val : Int)) (hb : ¬ c.NullBuffer) :
    ∃ r s', exec c s = .ok (r, s') := by
  obtain ⟨T, ht⟩ := hi.tree
  cases c <;> cases hd
  case close_file => exact ⟨_, _, congrArg (Except.map Reply.ofFd) (close_eq _ d s)⟩
  case close_dir => exact ⟨_, _, congrArg (Except.map Reply.ofFd) (close_eq _ d s)⟩
  case read_file str len => exact ⟨_, _, congrArg (Except.map (Reply.ofCount _)) (read_file_eq ht (hi.next d) hb len)⟩
  case write_file str len => exact ⟨_, _, congrArg (Except.map (Reply.ofCount _)) (write_file_eq ht hb len)⟩
  case append_file str len => exact ⟨_, _, congrArg (Except.map (Reply.ofCount _)) (append_file_eq ht hb len)⟩
  case get_next_dir_son son_name => exact ⟨_, _, congrArg (Except.map Reply.ofFd) (get_next_dir_son_eq ht hb)⟩

/-- Whatever the descriptor, no null pointer is followed. -/
theorem exec_given_ne_null (hi : Inv s) {v : Int} (hv : c.given = some v) : exec c s ≠ .error .nullPointer := by
  by_cases hb : c.NullBuffer
  · obtain ⟨fd, hex⟩ := exec_nullBuffer (s := s) hv hb
    rw [hex]
    simp
  · rcases fdIndex_cases v with hneg | ⟨d, rfl⟩ | ⟨hpos, hout⟩
    · rw [exec_negative hv hneg]
      simp
    · obtain ⟨r, s', hex⟩ := exec_slot_returns hi hv hb
      rw [hex]
      simp
    · rw [exec_outside hv hpos hout hb]
      simp

theorem create_ne_null (hi : Inv s) (path name : Option CStr) (type : TypeFile) :
    create path name type s ≠ .error .nullPointer := by
  obtain ⟨T, ht⟩ := hi.tree
  cases path with
  | none => simp [create]
  | some path => cases name with
    | none => simp [create]
    | some name =>
      by_cases hn : ValidName name.chars
      · rw [create_eq ht hi.token path hn type]
        simp
      · rw [create_invalid hn]
        simp

theorem map_ne_null {α β : Type} {f : α → β} {x : Except Fault α} (h : x ≠ .error .nullPointer) :
    x.map f ≠ .error .nullPointer := by
  cases x with
  | error e => simpa [Except.map] using h
  | ok a => simp [Except.map]

theorem openInode_ne_null (hi : Inv s) {type : TypeFile} {invalid_path : VfsError}
    {set : Inode → FileDescriptor → FileDescriptor} (path : CStr) (fd : Option Int) :
    openInode type invalid_path set (some path) fd s ≠ .error .nullPointer := by
  obtain ⟨T, ht⟩ := hi.tree
  cases fd with
  | none => simp [openInode]
  | some v => cases hd : s.freeSlot with
    | none =>
      rw [openInode_full hd]
      simp
    | some d =>
      rw [openInode_eq ht hi.token hd path v]
      simp

/-- No call but a deletion of the root and an open with a null path follows a null pointer. -/
theorem exec_ne_null (hi : Inv s) (hroot : ¬ c.DeletesRoot s) (hopen : ¬ c.OpensNull) : exec c s ≠ .error .nullPointer := by
  obtain ⟨T, ht⟩ := hi.tree
  have delete : ∀ path : CStr, c.Deletes path → exec c s ≠ .error .nullPointer := by
    intro path hc hnull
    refine hroot ⟨path, hc, ?_⟩
    rw [hi.designates_iff, ht.resolve_root_iff]
    exact (exec_deletes_null_iff hi hc).1 hnull
  cases hv : c.given with
  | some v => exact exec_given_ne_null hi hv
  | none =>
    cases c
    case create_file path name => exact map_ne_null (create_ne_null hi path name .FILE)
    case create_dir path name => exact map_ne_null (create_ne_null hi path name .FOLDER)
    case delete_file path => cases path with
      | none => simp [exec, delete_file, ClbFilesystem.delete, Except.map]
      | some path => exact delete path .delete_file
    case delete_dir path => cases path with
      | none => simp [exec, delete_dir, ClbFilesystem.delete, Except.map]
      | some path => exact delete path .delete_dir
    case open_file path fd => cases path with
      | some path => exact map_ne_null (openInode_ne_null hi path fd)
      | none => cases fd with
        | none => simp [exec, open_file, openInode, Except.map]
        | some v => exact absurd ⟨v, .open_file⟩ hopen
    case open_dir path fd => cases path with
      | some path => exact map_ne_null (openInode_ne_null hi path fd)
      | none => cases fd with
        | none => simp [exec, open_dir, openInode, Except.map]
        | some v => exact absurd ⟨v, .open_dir⟩ hopen
    all_goals
      cases hv
      simp [exec, close_file, close_dir, close, read_file, write_file, append_file, fileOf, get_next_dir_son, Except.map, bind,
        Except.bind, pure, Except.pure]

end Calls

/-- In every reachable state a call that is not asked to delete the root treats null pointers as it should if and
only if it is no open with a null path and a variable. -/
theorem Reachable.nullSafe_iff {s : State} (h : Reachable s) {c : Call} (hroot : ¬ c.DeletesRoot s) :
    NullSafe s c ↔ ¬ c.OpensNull := by
  constructor
  · rintro hsafe ⟨v, hc⟩
    have hnull : c.NullArgument := by cases hc <;> exact .inl rfl
    obtain ⟨r, s', hex, hret, -⟩ := hsafe.answered hnull
    rw [exec_opensNull hc] at hex
    split at hex
    · cases hex
    · cases hex
      rcases hret with hret | hret <;> cases hret
  · intro hopen
    refine ⟨fun hnull => ?_, exec_ne_null h.invariant hroot hopen⟩
    obtain ⟨r, hex, hret⟩ := exec_nullArgument (s := s) hnull hopen
    exact ⟨r, s, hex, hret, rfl, rfl, rfl⟩

/-- `open_file("/a", 0)` at boot. -/
theorem nullSafe_boot : NullSafe (afterCalls []) (.open_file (some pathA) none) := by
  refine (Reachable.nullSafe_iff (reachable_afterCalls []) ?_).2 ?_
  · rintro ⟨path, hc, -⟩
    cases hc
  · rintro ⟨v, hc⟩
    cases hc

/-- `open_file(0, &fd)` at boot. -/
theorem nullSafe_fails : ¬ ∀ s, Reachable s → ∀ c : Call, ¬ c.DeletesRoot s → NullSafe s c := by
  intro hall
  have hd : (afterCalls []).freeSlot = some slot0 := by decide +kernel
  have hsafe := hall _ (reachable_afterCalls []) (.open_file none (some 0)) (by rintro ⟨path, hc, -⟩; cases hc)
  apply hsafe.followed
  rw [exec_opensNull .open_file, hd]

end ClbFilesystem
