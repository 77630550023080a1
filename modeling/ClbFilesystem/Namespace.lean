import ClbFilesystem.Abstract
/-!
# The namespace calls refine an ordered tree

`CreateSpec` and `DeleteSpec` are what creation and deletion are for, on the tree
a state stands for: which error each call returns and when, and what becomes of
the tree. The code meets them in every reachable state.
-/

namespace ClbFilesystem

open Lib

/-- The folder a path leads to. -/
def State.folderAt (s : State) (path : List UInt8) : InodePtr := (s.resolve path).filter fun d => s.kind d = .FOLDER

theorem State.folderAt_eq_some {s : State} {path : List UInt8} {d : Fin FS_NPAGES} :
    s.folderAt path = some d ↔ s.resolve path = some d ∧ s.kind d = .FOLDER := by
  simp [folderAt, Option.filter_eq_some_iff]

/-- Creating `name` of that type in the folder at `path`, from `s`, returns `e` and leaves `s'`. -/
structure CreateSpec (s : State) (path name : List UInt8) (type : TypeFile) (e : VfsError) (s' : State) : Prop where
  invalid_name : e = .VFS_INVALID_NAME ↔ ¬ ValidName name
  invalid_fd : ValidName name → (e = .VFS_INVALID_FD ↔ s.folderAt path = none)
  memory_full : ValidName name → ∀ d, s.folderAt path = some d → (e = .VFS_MEMORY_FULL ↔ s.tree.size = FS_NPAGES)
  ok : ValidName name → ∀ d, s.folderAt path = some d → s.tree.size ≠ FS_NPAGES → e = .VFS_OK ∧
    ∃ i, (∀ m ∈ s.tree.labels, m.ino ≠ i) ∧ s'.tree = s.tree.addSon (fun m => m.ino = d) ⟨i, name, type, []⟩
  refused : e ≠ .VFS_OK → s'.tree = s.tree

/-- Deleting what `path` leads to, which is not the root, from `s`, returns `e` and leaves `s'`. -/
structure DeleteSpec (s : State) (path : List UInt8) (e : VfsError) (s' : State) : Prop where
  invalid_fd : e = .VFS_INVALID_FD ↔ s.resolve path = none
  ok : ∀ i, s.resolve path = some i → e = .VFS_OK ∧ s'.tree = s.tree.prune fun m => m.ino = i
  refused : e ≠ .VFS_OK → s'.tree = s.tree

theorem create_refines {s : State} (hi : Inv s) (path name : CStr) {type : TypeFile} (htype : type ≠ .EMPTY) :
    ∃ e s', create (some path) (some name) type s = .ok (e, s') ∧
      CreateSpec s path.chars name.chars type e s' := by
  obtain ⟨T, ht⟩ := hi.tree
  by_cases hn : ValidName name.chars
  · -- The error returned is none of the others, so each equivalence is decided by the branch taken.
    have token : ∀ tk, ({ s with token := tk } : State).tree = s.tree := fun tk => rfl
    rw [create_eq ht hi.token path hn type]
    cases hp : s.resolve path.chars with
    | none =>
      have hnone : s.folderAt path.chars = none := by unfold State.folderAt; rw [hp]; rfl
      exact ⟨_, _, rfl, by simp [hn], by simp [hnone], by simp [hnone], by simp [hnone], fun _ => token _⟩
    | some d =>
      by_cases hd : s.kind d = .FOLDER
      · have hsome : s.folderAt path.chars = some d := State.folderAt_eq_some.2 ⟨hp, hd⟩
        simp only [hd, ne_eq, not_true_eq_false, if_false]
        cases hf : s.freeEntry with
        | none =>
          have hfull := ht.tree_full.2 hf
          exact ⟨_, _, rfl, by simp [hn], by simp [hsome], by simp [hfull], by simp [hfull], fun _ => token _⟩
        | some i =>
          have hfree := (State.freeEntry_eq_some.1 hf).1
          have hroom : s.tree.size ≠ FS_NPAGES := fun hfull => by rw [ht.tree_full.1 hfull] at hf; cases hf
          refine ⟨_, _, rfl, by simp [hn], by simp [hsome], by simp [hroom], fun _ d' hd' _ => ⟨rfl, i, ?_, ?_⟩, by simp⟩
          · intro m hm
            obtain ⟨j, hj, rfl⟩ := (ht.mem_tree m).1 hm
            rintro rfl
            exact (ht.live _).2 hj hfree
          · obtain rfl : d = d' := Option.some.inj (hsome.symm.trans hd')
            exact (ht.setToken (s.tokenAfter path.chars)).tree_created hn.2 hd hfree htype
      · have hnone : s.folderAt path.chars = none := by
          unfold State.folderAt
          rw [hp]
          simp [Option.filter, hd]
        simp only [hd, ne_eq, not_false_eq_true, if_true]
        exact ⟨_, _, rfl, by simp [hn], by simp [hnone], by simp [hnone], by simp [hnone], fun _ => token _⟩
  · exact ⟨_, _, create_invalid hn path type s, by simp [hn], fun h => absurd h hn, fun h => absurd h hn,
      fun h => absurd h hn, fun _ => rfl⟩

theorem delete_refines {s : State} (hi : Inv s) (path : CStr) (hr : s.resolve path.chars ≠ some ROOT_INODE) :
    ∃ e s', delete (some path) s = .ok (e, s') ∧ DeleteSpec s path.chars e s' := by
  obtain ⟨T, ht⟩ := hi.tree
  rw [delete_eq ht hi.token path]
  cases hp : s.resolve path.chars with
  | none => exact ⟨_, _, rfl, by simp [hp], by simp [hp], fun _ => rfl⟩
  | some i =>
    have hir : i ≠ ROOT_INODE := by rintro rfl; exact hr hp
    simp only [hir, if_false]
    refine ⟨_, _, rfl, by simp [hp], fun j hj => ⟨rfl, ?_⟩, by simp⟩
    obtain rfl : i = j := Option.some.inj (hp.symm.trans hj)
    exact (ht.setToken (s.tokenAfter path.chars)).tree_removed (ht.resolve_mem hp) hir

/-- In every reachable state creation and deletion do on the tree what they are for; a path leads where
`parse_path` says. -/
theorem Reachable.namespace_refines {s : State} (h : Reachable s) (c : Call) :
    (∀ path : CStr, ∃ t, parse_path path.chars s = .ok (s.resolve path.chars, t) ∧ t.tree = s.tree) ∧
    (∀ path name type, c.Creates path name type → ∃ e s', exec c s = .ok ({ ret := .error e }, s') ∧
      CreateSpec s path.chars name.chars type e s') ∧
    (∀ path, c.Deletes path → s.resolve path.chars ≠ some ROOT_INODE →
      ∃ e s', exec c s = .ok ({ ret := .error e }, s') ∧ DeleteSpec s path.chars e s') := by
  have hi := h.invariant
  refine ⟨fun path => ?_, fun path name type hc => ?_, fun path hc hr => ?_⟩
  · obtain ⟨T, ht⟩ := hi.tree
    exact ⟨_, parse_path_eq ht hi.token path, rfl⟩
  · obtain ⟨e, s', heq, hspec⟩ := create_refines hi path name hc.type_ne
    refine ⟨e, s', ?_, hspec⟩
    cases hc
    · simp only [exec, create_file, heq]; rfl
    · simp only [exec, create_dir, heq]; rfl
  · obtain ⟨e, s', heq, hspec⟩ := delete_refines hi path hr
    refine ⟨e, s', ?_, hspec⟩
    cases hc
    · simp only [exec, delete_file, heq]; rfl
    · simp only [exec, delete_dir, heq]; rfl

/-- With a folder `a` in the root: creating `a/b`, and deleting `a`. -/
theorem namespace_refines_folder :
    (∃ e s', exec (.create_file (some pathA) (some nameB))
        (afterCalls [.create_dir (some rootName) (some nameA)]) = .ok ({ ret := .error e }, s') ∧
      CreateSpec (afterCalls [.create_dir (some rootName) (some nameA)]) pathA.chars nameB.chars .FILE e s') ∧
    (∃ e s', exec (.delete_dir (some pathA))
        (afterCalls [.create_dir (some rootName) (some nameA)]) = .ok ({ ret := .error e }, s') ∧
      DeleteSpec (afterCalls [.create_dir (some rootName) (some nameA)]) pathA.chars e s') :=
  ⟨(Reachable.namespace_refines (reachable_afterCalls _) _).2.1 _ _ _ .create_file,
    (Reachable.namespace_refines (reachable_afterCalls _) _).2.2 _ .delete_dir (by decide +kernel)⟩

end ClbFilesystem
