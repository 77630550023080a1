import ClbFilesystem.Paths
/-!
# Deleting the root

The root has no father, and nothing on the way from the path to `free_inode`
checks for it: a deletion whose path is a run of slashes empties the tree and
then follows a null pointer. No call that returns touches the root, so it is a
folder without father in every state of every run.
-/

namespace ClbFilesystem

open Lib

/-- If the path leads to the root, the call returns an error and leaves everything as it is. -/
def RootSafe (s : State) (c : Call) (path : CStr) : Prop :=
  Designates s path ROOT_INODE → ∃ e s', exec c s = .ok ({ ret := .error e }, s') ∧ e ≠ .VFS_OK ∧
    s'.RAM_inodes_table = s.RAM_inodes_table ∧ s'.mem = s.mem ∧ s'.open_inodes = s.open_inodes

/-- A deletion follows a null pointer exactly when its path is a run of slashes. -/
theorem exec_deletes_null_iff {s : State} (hi : Inv s) {c : Call} {path : CStr} (hc : c.Deletes path) :
    exec c s = .error .nullPointer ↔ SlashRun path.chars := by
  obtain ⟨T, ht⟩ := hi.tree
  rw [← ht.resolve_root_iff]
  cases hp : s.resolve path.chars with
  | none =>
    rw [hc.exec_eq, delete_eq ht hi.token path]
    simp only [hp]
    exact iff_of_false (by rintro ⟨⟩) (by simp)
  | some i =>
    rw [exec_deletes hi hc hp]
    by_cases hr : i = ROOT_INODE <;> simp [hr]

/-- In every reachable state the root is a folder without father, and the paths that lead to it are the runs
of slashes. Deleting through such a path never returns; a deletion treats the root as it should exactly when
it is not asked to delete it. -/
theorem Reachable.root_safe_iff {s : State} (h : Reachable s) :
    ((s.inode ROOT_INODE).type = .FOLDER ∧ (s.inode ROOT_INODE).father = none) ∧
    (∀ path, Designates s path ROOT_INODE ↔ SlashRun path.chars) ∧
    ∀ c path, c.Deletes path → (RootSafe s c path ↔ ¬ SlashRun path.chars) ∧
      (exec c s = .error .nullPointer ↔ SlashRun path.chars) := by
  have hi := h.invariant
  obtain ⟨T, ht⟩ := hi.tree
  have hroot : ∀ path : CStr, Designates s path ROOT_INODE ↔ SlashRun path.chars :=
    fun path => (hi.designates_iff path _).trans (ht.resolve_root_iff path.chars)
  refine ⟨⟨ht.root, ht.root_father⟩, hroot, fun c path hc => ⟨?_, exec_deletes_null_iff hi hc⟩⟩
  constructor
  · intro hsafe hrun
    obtain ⟨e, s', hex, -⟩ := hsafe ((hroot path).2 hrun)
    rw [(exec_deletes_null_iff hi hc).2 hrun] at hex
    cases hex
  · intro hno hd
    exact absurd ((hroot path).1 hd) hno

/-- At boot: `/a` is no way to the root, `//` is. -/
theorem root_safe_boot : RootSafe (afterCalls []) (.delete_dir (some pathA)) pathA ∧
    exec (.delete_dir (some slashes)) (afterCalls []) = .error .nullPointer :=
  ⟨((Reachable.root_safe_iff (reachable_afterCalls [])).2.2 _ _ .delete_dir).1.2 fun h => absurd (h.2 97 (by simp [pathA])) (by decide),
    ((Reachable.root_safe_iff (reachable_afterCalls [])).2.2 _ _ .delete_dir).2.2 ⟨by simp [slashes], by simp [slashes, slash]⟩⟩

/-- `delete_file("/")` at boot does not return. -/
theorem root_safe_fails : ¬ ∀ s, Reachable s → ∀ c path, c.Deletes path → RootSafe s c path := by
  intro hall
  have hi := (reachable_afterCalls []).invariant
  obtain ⟨T, ht⟩ := hi.tree
  have hrun : SlashRun rootName.chars := ⟨by simp [rootName], by simp [rootName, slash]⟩
  obtain ⟨e, s', hex, -⟩ := hall _ (reachable_afterCalls []) _ rootName .delete_file
    ((hi.designates_iff rootName _).2 ((ht.resolve_root_iff _).2 hrun))
  rw [(exec_deletes_null_iff hi .delete_file).2 hrun] at hex
  cases hex

end ClbFilesystem
