import ClbFilesystem.Effect
/-!
# The filesystem a state stands for

An ordered tree of named files and folders with their content, whatever entries
and pages hold it; the number of its entry says which node is meant. Creation
appends a leaf to a folder of it, deletion prunes it.
-/

namespace ClbFilesystem

open Lib

/-- A file or folder. -/
structure Node where
  ino : Fin FS_NPAGES
  name : List UInt8
  kind : TypeFile
  content : List UInt8
  deriving DecidableEq

namespace State

/-- The bytes of a data block that count: the first `size`. -/
def content (s : State) (i : Fin FS_NPAGES) : List UInt8 :=
  (List.range (s.inode i).size).map fun k => s.mem ((s.inode i).data_block + k)

def node (s : State) (i : Fin FS_NPAGES) : Node where
  ino := i
  name := (s.inode i).nameOf
  kind := s.kind i
  content := s.content i

/-- The tree read from the root. -/
def tree (s : State) : Forest Node := (s.links.read FS_NPAGES (some ROOT_INODE)).map s.node

variable {s s' : State} {i : Fin FS_NPAGES}

@[simp] theorem length_content (s : State) (i : Fin FS_NPAGES) : (s.content i).length = (s.inode i).size := by
  simp [content]

theorem content_congr (hs : (s'.inode i).size = (s.inode i).size)
    (hb : (s'.inode i).data_block = (s.inode i).data_block)
    (hm : ∀ k < (s.inode i).size, s'.mem ((s.inode i).data_block + k) = s.mem ((s.inode i).data_block + k)) :
    s'.content i = s.content i := by
  unfold content
  rw [hs, hb]
  exact List.map_congr_left fun k hk => hm k (List.mem_range.1 hk)

end State

namespace TreeInv

variable {s : State} {T : Tree} (h : TreeInv s T)
include h

theorem tree_eq : s.tree = T.map s.node := by
  unfold State.tree
  rw [h.read_eq]

theorem tree_size : s.tree.size = T.size := by rw [h.tree_eq, Forest.size_map]

theorem mem_tree (n : Node) : n ∈ s.tree.labels ↔ ∃ i ∈ T.labels, s.node i = n := by
  rw [h.tree_eq, Forest.labels_map, List.mem_map]

/-- The tree has a node for every entry exactly when none is free. -/
theorem tree_full : s.tree.size = FS_NPAGES ↔ s.freeEntry = none := by
  have hcard : T.labels.toFinset.card = T.size := by
    rw [List.toFinset_card_of_nodup h.nodup, Forest.length_labels]
  rw [h.tree_size, State.freeEntry_eq_none, ← hcard]
  constructor
  · intro hfull i
    have huniv : T.labels.toFinset = Finset.univ := by
      apply Finset.eq_univ_of_card
      rw [hfull, Fintype.card_fin]
    have hi : i ∈ T.labels.toFinset := huniv ▸ Finset.mem_univ i
    exact (h.live i).2 (List.mem_toFinset.1 hi)
  · intro hall
    have huniv : T.labels.toFinset = Finset.univ := by
      rw [Finset.eq_univ_iff_forall]
      intro i
      exact List.mem_toFinset.2 ((h.live i).1 (hall i))
    rw [huniv, Finset.card_univ, Fintype.card_fin]

/-- Creation appends an empty leaf to the folder. -/
theorem tree_created {name : CStr} (hl : name.chars.length ≤ MAX_SIZE_NAME) {type : TypeFile} {d i : Fin FS_NPAGES}
    (hd : (s.inode d).type = .FOLDER) (hi : (s.inode i).type = .EMPTY) (ht : type ≠ .EMPTY) :
    (s.created name type d i).tree = s.tree.addSon (fun m => m.ino = d) ⟨i, name.chars, type, []⟩ := by
  have hiT : i ∉ T.labels := fun hm => (h.live i).2 hm hi
  have hname := h.created_nameOf hl type d i
  have hold : ∀ j ∈ T.labels, (s.created name type d i).node j = s.node j := by
    intro j hj
    have hji : j ≠ i := fun e => hiT (e ▸ hj)
    have hcontent : (s.created name type d i).content j = s.content j :=
      State.content_congr (by simp) (by simp) fun _ _ => rfl
    simp only [State.node, hname, State.kind, State.created_type, hji, if_false, hcontent]
  have hnew : (s.created name type d i).node i = ⟨i, name.chars, type, []⟩ := by
    have hsize := h.empty i (by rw [hi]; decide)
    simp [State.node, hname, State.kind, State.created_type, State.content, hsize]
  rw [(h.created name hd hi ht).tree_eq, h.tree_eq, ← Forest.map_congr hold, ← hnew]
  exact Forest.map_addSon (s.created name type d i).node (fun m => m.ino = d) i T

/-- Deletion prunes the tree. -/
theorem tree_removed {i : Fin FS_NPAGES} (hiT : i ∈ T.labels) (hi : i ≠ ROOT_INODE) :
    (s.removed i).tree = s.tree.prune fun m => m.ino = i := by
  obtain ⟨G, hG⟩ := Forest.exists_sonsOf hiT
  have hold : ∀ j ∈ (T.prune (· = i)).labels, (s.removed i).node j = s.node j := by
    intro j hj
    have hji : j ∉ i :: s.below i := by
      rw [h.below_eq hG]
      exact ((Forest.mem_labels_prune h.nodup hG).1 hj).2
    have hinode := s.removed_inode i j
    rw [if_neg hji] at hinode
    have hcontent : (s.removed i).content j = s.content j :=
      State.content_congr (by rw [hinode]) (by rw [hinode]) fun _ _ => rfl
    simp only [State.node, State.kind, hcontent, hinode]
    rfl
  rw [(h.removed hiT hi).tree_eq, h.tree_eq, Forest.map_congr hold]
  exact Forest.map_prune s.node (fun m => m.ino = i) T

end TreeInv

end ClbFilesystem
