import ClbFilesystem.Boot
/-!
# The inode tree

`TreeInv s T` says that the table of `s` threads the tree `T` of inode numbers,
that exactly its nodes are in use, and what the fields of a free or a leaf entry
are. It looks at the inode table only, so a step that leaves the table alone
keeps it (`TreeInv.congr`). `Inv` adds the scratch token and the read cursors.
-/

namespace ClbFilesystem

open Lib

abbrev Tree := Forest (Fin FS_NPAGES)

structure TreeInv (s : State) (T : Tree) : Prop where
  rooted : ∃ F, T = .cons ROOT_INODE F .nil
  threads : s.links.Threads none (some ROOT_INODE) T
  nodup : T.labels.Nodup
  live : ∀ i, (s.inode i).type ≠ .EMPTY ↔ i ∈ T.labels
  root : (s.inode ROOT_INODE).type = .FOLDER
  id : ∀ i, (s.inode i).id = i
  block : ∀ i, (s.inode i).data_block = pageAddr i
  free : ∀ i, (s.inode i).type = .EMPTY →
    (s.inode i).father = none ∧ (s.inode i).brother = none ∧ (s.inode i).first_son = none
  file : ∀ i, (s.inode i).type = .FILE → (s.inode i).first_son = none
  empty : ∀ i, (s.inode i).type ≠ .FILE → (s.inode i).size = 0
  size : ∀ i, (s.inode i).size ≤ FILE_MAX_SIZE

structure Inv (s : State) : Prop where
  tree : ∃ T, TreeInv s T
  token : s.token.length = MAX_SIZE_NAME + 1
  next : ∀ d, (s.slot d).next = 0

/-! ## Facts about a tree of inodes -/

namespace TreeInv

variable {s s' : State} {T : Tree}

theorem congr (h : TreeInv s T) (hs : s'.RAM_inodes_table = s.RAM_inodes_table) : TreeInv s' T := by
  have hi : ∀ i, s'.inode i = s.inode i := fun i => congrFun hs i
  have hl : s'.links = s.links := by simp only [State.links, hi]
  exact { h with
    threads := hl ▸ h.threads
    live := fun i => hi i ▸ h.live i
    root := hi _ ▸ h.root
    id := fun i => hi i ▸ h.id i
    block := fun i => hi i ▸ h.block i
    free := fun i => hi i ▸ h.free i
    file := fun i => hi i ▸ h.file i
    empty := fun i => hi i ▸ h.empty i
    size := fun i => hi i ▸ h.size i }

/-- The scratch token has no part in it. -/
theorem setToken (h : TreeInv s T) (tk : List UInt8) : TreeInv { s with token := tk } T := h.congr rfl

theorem root_mem (h : TreeInv s T) : ROOT_INODE ∈ T.labels :=
  (h.live _).1 (by rw [h.root]; decide)

theorem root_father (h : TreeInv s T) : (s.inode ROOT_INODE).father = none := by
  obtain ⟨F, rfl⟩ := h.rooted
  exact h.threads.2.1

theorem root_brother (h : TreeInv s T) : (s.inode ROOT_INODE).brother = none := by
  obtain ⟨F, rfl⟩ := h.rooted
  exact h.threads.2.2.2

theorem not_empty_of_folder (h : TreeInv s T) {i : Fin FS_NPAGES} (hi : (s.inode i).type = .FOLDER) : i ∈ T.labels :=
  (h.live i).1 (by rw [hi]; decide)

theorem size_le (h : TreeInv s T) : T.size ≤ FS_NPAGES := by
  simpa using Forest.size_le_card h.nodup

/-- The tree is the one read from the table. -/
theorem read_eq (h : TreeInv s T) : s.links.read FS_NPAGES (some ROOT_INODE) = T := h.threads.read_eq h.size_le

/-- The father of a node other than the root is a folder of the tree, and the node is on its chain. -/
theorem father_spec (h : TreeInv s T) {i : Fin FS_NPAGES} (hi : i ∈ T.labels) (hr : i ≠ ROOT_INODE) :
    ∃ k ∈ T.labels, ∃ G, (s.inode i).father = some k ∧ T.sonsOf k = some G ∧ i ∈ G.roots := by
  rcases h.threads.mem_chain h.nodup i hi with htop | hk
  · obtain ⟨F, rfl⟩ := h.rooted
    simp only [Forest.roots, List.mem_singleton] at htop
    exact absurd htop hr
  · exact hk

/-- The sons of a node are threaded from its first son. -/
theorem sons_threads (h : TreeInv s T) {i : Fin FS_NPAGES} {G : Tree} (hG : T.sonsOf i = some G) :
    s.links.Threads (some i) (s.inode i).first_son G := h.threads.sonsOf hG

/-- Only a folder has sons. -/
theorem folder_of_father (h : TreeInv s T) {i k : Fin FS_NPAGES} (hf : (s.inode i).father = some k) :
    (s.inode k).type = .FOLDER := by
  have hi : i ∈ T.labels := (h.live i).1 fun he => by simp [(h.free i he).1] at hf
  have hr : i ≠ ROOT_INODE := by rintro rfl; simp [h.root_father] at hf
  obtain ⟨k', hk', G, hf', hG, hroot⟩ := h.father_spec hi hr
  obtain rfl : k' = k := Option.some.inj (hf'.symm.trans hf)
  -- A node with a son has a first son, so it is no file.
  have hfirst : (s.inode k').first_son ≠ none := by
    intro hnone
    have hG' := h.sons_threads hG
    rw [hnone] at hG'
    cases G with
    | nil => simp [Forest.roots] at hroot
    | cons j sons rest => exact absurd hG'.1 (by simp)
  cases ht : (s.inode k').type with
  | FILE => exact absurd (h.file k' ht) hfirst
  | FOLDER => rfl
  | EMPTY => exact absurd ht ((h.live k').2 hk')

end TreeInv

/-! ## At boot -/

theorem initial_treeInv (mem : Mem) : TreeInv (initial mem) (.cons ROOT_INODE .nil .nil) where
  rooted := ⟨_, rfl⟩
  threads := by simp [Links.Threads, State.links, initial_inode, initialInode]
  nodup := by simp [Forest.labels]
  live i := by simp [Forest.labels, initial_inode, initialInode]
  root := by simp [initial_inode, initialInode]
  id i := by simp [initial_inode, initialInode]
  block i := by simp [initial_inode, initialInode]
  free i := by simp [initial_inode, initialInode]
  file i := by simp [initial_inode, initialInode]
  empty i := by simp [initial_inode, initialInode]
  size i := by simp [initial_inode, initialInode]

theorem initial_inv (mem : Mem) : Inv (initial mem) where
  tree := ⟨_, initial_treeInv mem⟩
  token := by simp [initial, bootStep, boot]
  next d := by simp [initial_slot]

end ClbFilesystem
