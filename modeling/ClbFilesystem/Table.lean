import ClbFilesystem.Effect
/-!
# The inode table in every run

`WellFormed` says in terms of the table alone, without the tree, what the three
pointers, the types and the sizes look like in every state that calls lead to:
nothing dangles, nothing is lost, nothing goes round.
-/

namespace ClbFilesystem

open Lib

/-- `i` is met from the first son of `d` along the brothers, and the chain ends. -/
def State.OnChain (s : State) (d i : Fin FS_NPAGES) : Prop :=
  ∃ l, s.links.Chain (s.inode d).first_son l ∧ i ∈ l

structure WellFormed (s : State) : Prop where
  id : ∀ i, (s.inode i).id = i
  root : (s.inode ROOT_INODE).type = .FOLDER ∧ (s.inode ROOT_INODE).father = none
  /-- Every chain ends, meets no entry twice, and its entries have that father. -/
  chains : ∀ d, ∃ l, s.links.Chain (s.inode d).first_son l ∧ l.Nodup ∧ ∀ i ∈ l, (s.inode i).father = some d
  /-- An entry in use, other than the root, is once on the chain of its father, a folder, and on no other. -/
  placed : ∀ i, (s.inode i).type ≠ .EMPTY → i ≠ ROOT_INODE → ∃ d l, (s.inode i).father = some d ∧
    (s.inode d).type = .FOLDER ∧ s.links.Chain (s.inode d).first_son l ∧ l.count i = 1 ∧ ∀ e, s.OnChain e i → e = d
  reachable : ∀ i, (s.inode i).type ≠ .EMPTY → Relation.ReflTransGen s.OnChain ROOT_INODE i
  empty : ∀ i, (s.inode i).type = .EMPTY → (s.inode i).father = none ∧ (s.inode i).brother = none ∧
    (s.inode i).first_son = none ∧ (s.inode i).size = 0 ∧ ∀ d, ¬ s.OnChain d i
  file : ∀ i, (s.inode i).type = .FILE → (s.inode i).first_son = none ∧ (s.inode i).size ≤ FILE_MAX_SIZE
  folder : ∀ i, (s.inode i).type = .FOLDER → (s.inode i).size = 0

/-- The entries on the chain of a node are those with that father. -/
theorem TreeInv.onChain_iff {s : State} {T : Tree} (h : TreeInv s T) (d i : Fin FS_NPAGES) :
    s.OnChain d i ↔ (s.inode i).father = some d := by
  rw [← h.mem_sons d i]
  constructor
  · rintro ⟨l, hl, hi⟩
    rwa [(h.chain_sons d).1.unique hl]
  · intro hi
    exact ⟨s.sons d, (h.chain_sons d).1, hi⟩

theorem TreeInv.reachable {s : State} {T : Tree} (h : TreeInv s T) {i : Fin FS_NPAGES} (hi : i ∈ T.labels) :
    Relation.ReflTransGen s.OnChain ROOT_INODE i := by
  obtain ⟨r, hr, hpath⟩ := h.threads.reachable i hi
  obtain ⟨F, rfl⟩ := h.rooted
  obtain rfl : r = ROOT_INODE := by simpa [Forest.roots] using hr
  exact Relation.ReflTransGen.mono (fun a b hab => (h.onChain_iff a b).2 hab) _ _ hpath

/-- The inode table is well formed in every state that calls from boot lead to. -/
theorem Reachable.wellFormed {s : State} (h : Reachable s) : WellFormed s := by
  obtain ⟨T, ht⟩ := h.invariant.tree
  refine ⟨ht.id, ⟨ht.root, ht.root_father⟩, fun d => ?_, fun i hi hr => ?_, fun i hi => ?_, fun i hi => ?_,
    fun i hi => ⟨ht.file i hi, ht.size i⟩, fun i hi => ht.empty i (by rw [hi]; decide)⟩
  · exact ⟨s.sons d, (ht.chain_sons d).1, ht.sons_nodup d, fun i hi => (ht.mem_sons d i).1 hi⟩
  · obtain ⟨d, -, G, hf, -, -⟩ := ht.father_spec ((ht.live i).1 hi) hr
    have hsons := (ht.mem_sons d i).2 hf
    refine ⟨d, s.sons d, hf, ht.folder_of_father hf, (ht.chain_sons d).1,
      List.count_eq_one_of_mem (ht.sons_nodup d) hsons, fun e he => ?_⟩
    have hfe := (ht.onChain_iff e i).1 he
    rw [hf] at hfe
    exact (Option.some.inj hfe).symm
  · exact ht.reachable ((ht.live i).1 hi)
  · obtain ⟨hf, hb, hs⟩ := ht.free i hi
    refine ⟨hf, hb, hs, ht.empty i (by rw [hi]; decide), fun d hd => ?_⟩
    rw [ht.onChain_iff, hf] at hd
    cases hd

/-- A folder with a file in it, then another file. -/
theorem wellFormed_nested : WellFormed (afterCalls [.create_dir (some rootName) (some nameA),
    .create_file (some pathA) (some nameB),
    .create_file (some rootName) (some nameC)]) :=
  Reachable.wellFormed (reachable_afterCalls _)

end ClbFilesystem
