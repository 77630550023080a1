import Mathlib.Data.List.Perm.Basic
import Mathlib.Data.Fintype.Card
/-!
# Ordered forests

An ordered forest is empty, or a first tree (its label and the forest of its
sons) followed by the rest of the forest. A rooted ordered tree is the forest
`cons a sons nil`. The operations are the two a tree of files needs: append a
leaf after the sons of a node, and remove a node with everything below it.
-/

namespace Lib

inductive Forest (α : Type) where
  | nil
  | cons (label : α) (sons rest : Forest α)
  deriving DecidableEq, Repr

namespace Forest

variable {α β : Type}

/-- The labels in preorder. -/
def labels : Forest α → List α
  | nil => []
  | cons a sons rest => a :: (sons.labels ++ rest.labels)

/-- The labels of the top trees, in order. -/
def roots : Forest α → List α
  | nil => []
  | cons a _ rest => a :: rest.roots

def size : Forest α → Nat
  | nil => 0
  | cons _ sons rest => sons.size + rest.size + 1

def map (g : α → β) : Forest α → Forest β
  | nil => nil
  | cons a sons rest => cons (g a) (sons.map g) (rest.map g)

def leaf (a : α) : Forest α := cons a nil nil

/-- The forest with the leaf `a` after its last tree. -/
def snoc (a : α) : Forest α → Forest α
  | nil => leaf a
  | cons b sons rest => cons b sons (rest.snoc a)

/-- The leaf `a` becomes the last son of every node whose label satisfies `p`. -/
def addSon (p : α → Bool) (a : α) : Forest α → Forest α
  | nil => nil
  | cons b sons rest => cons b (if p b then sons.snoc a else sons.addSon p a) (rest.addSon p a)

/-- The forest without the nodes whose label satisfies `p` and what is below them. -/
def prune (p : α → Bool) : Forest α → Forest α
  | nil => nil
  | cons b sons rest => if p b then rest.prune p else cons b (sons.prune p) (rest.prune p)

/-- The sons of the first node in preorder with label `i`. -/
def sonsOf [DecidableEq α] (i : α) : Forest α → Option (Forest α)
  | nil => none
  | cons b sons rest => if b = i then some sons else (sons.sonsOf i).or (rest.sonsOf i)

/-! ## Labels -/

@[simp] theorem length_labels (F : Forest α) : F.labels.length = F.size := by
  induction F with
  | nil => rfl
  | cons a sons rest ihs ihr => simp [labels, size, ihs, ihr]

@[simp] theorem labels_map (g : α → β) (F : Forest α) : (F.map g).labels = F.labels.map g := by
  induction F with
  | nil => rfl
  | cons a sons rest ihs ihr => simp [labels, map, ihs, ihr]

@[simp] theorem size_map (g : α → β) (F : Forest α) : (F.map g).size = F.size := by
  induction F with
  | nil => rfl
  | cons a sons rest ihs ihr => simp [size, map, ihs, ihr]

theorem roots_subset (F : Forest α) : ∀ i ∈ F.roots, i ∈ F.labels := by
  induction F with
  | nil => simp [roots]
  | cons a sons rest _ ihr =>
    intro i hi
    simp only [roots, List.mem_cons] at hi
    simp only [labels, List.mem_cons, List.mem_append]
    exact hi.imp_right fun h => .inr (ihr i h)

theorem nodup_roots {F : Forest α} (hn : F.labels.Nodup) : F.roots.Nodup := by
  induction F with
  | nil => simp [roots]
  | cons a sons rest _ ihr =>
    simp only [labels, List.nodup_cons, List.nodup_append, List.mem_append] at hn
    simp only [roots, List.nodup_cons]
    exact ⟨fun h => hn.1 (.inr (roots_subset rest a h)), ihr hn.2.2.1⟩

theorem map_congr {g g' : α → β} {F : Forest α} (h : ∀ i ∈ F.labels, g i = g' i) : F.map g = F.map g' := by
  induction F with
  | nil => rfl
  | cons a sons rest ihs ihr =>
    simp only [labels, List.mem_cons, List.mem_append, forall_eq_or_imp] at h
    simp only [map, h.1, ihs fun i hi => h.2 i (.inl hi), ihr fun i hi => h.2 i (.inr hi)]

theorem size_le_card [Fintype α] [DecidableEq α] {F : Forest α} (hn : F.labels.Nodup) :
    F.size ≤ Fintype.card α := by
  rw [← length_labels, ← List.toFinset_card_of_nodup hn]
  exact Finset.card_le_univ _

/-! ## A new leaf -/

theorem labels_snoc (a : α) (F : Forest α) : (F.snoc a).labels = F.labels ++ [a] := by
  induction F with
  | nil => rfl
  | cons b sons rest _ ihr => simp [snoc, labels, ihr]

theorem map_snoc (g : α → β) (a : α) (F : Forest α) : (F.snoc a).map g = (F.map g).snoc (g a) := by
  induction F with
  | nil => rfl
  | cons b sons rest _ ihr => simp [snoc, map, ihr]

theorem map_addSon (g : α → β) (p : β → Bool) (a : α) (F : Forest α) :
    (F.addSon (fun i => p (g i)) a).map g = (F.map g).addSon p (g a) := by
  induction F with
  | nil => rfl
  | cons b sons rest ihs ihr =>
    simp only [addSon, map, ihr]
    split <;> simp [map_snoc, ihs]

theorem addSon_of_not_mem {p : α → Bool} {a : α} {F : Forest α} (h : ∀ i ∈ F.labels, p i = false) :
    F.addSon p a = F := by
  induction F with
  | nil => rfl
  | cons b sons rest ihs ihr =>
    simp only [labels, List.mem_cons, List.mem_append, forall_eq_or_imp] at h
    simp only [addSon, h.1, Bool.false_eq_true, if_false, ihs fun i hi => h.2 i (.inl hi),
      ihr fun i hi => h.2 i (.inr hi)]

theorem labels_addSon_perm [DecidableEq α] {d a : α} {F : Forest α} (hn : F.labels.Nodup) (hd : d ∈ F.labels) :
    (F.addSon (· = d) a).labels.Perm (a :: F.labels) := by
  induction F with
  | nil => simp [labels] at hd
  | cons b sons rest ihs ihr =>
    simp only [labels, List.nodup_cons, List.mem_append, not_or, List.nodup_append] at hn
    obtain ⟨⟨hbs, hbr⟩, hns, hnr, hdis⟩ := hn
    simp only [labels, List.mem_cons, List.mem_append] at hd
    -- `d` occurs in one place, so the other two parts stay as they are.
    have other : ∀ {G : Forest α}, d ∉ G.labels → G.addSon (· = d) a = G := fun h =>
      addSon_of_not_mem fun i hi => by simpa using fun e : i = d => h (e ▸ hi)
    simp only [addSon, labels]
    by_cases hb : b = d
    · subst hb
      rw [other hbr]
      simp only [decide_true, if_true, labels_snoc, List.append_assoc, List.singleton_append]
      exact (List.perm_middle.cons b).trans (.swap a b _)
    · simp only [hb, decide_false, Bool.false_eq_true, if_false]
      rcases hd with rfl | hd | hd
      · exact absurd rfl hb
      · rw [other fun h => hdis d hd d h rfl]
        exact (((ihs hns hd).append_right _).cons b).trans (.swap a b _)
      · rw [other fun h => hdis d h d hd rfl]
        exact ((((ihr hnr hd).append_left _).trans List.perm_middle).cons b).trans (.swap a b _)

/-! ## Removal -/

theorem map_prune (g : α → β) (p : β → Bool) (F : Forest α) :
    (F.prune (fun i => p (g i))).map g = (F.map g).prune p := by
  induction F with
  | nil => rfl
  | cons b sons rest ihs ihr =>
    simp only [prune, map]
    split <;> simp [map, ihs, ihr]

theorem prune_of_not_mem {p : α → Bool} {F : Forest α} (h : ∀ i ∈ F.labels, p i = false) : F.prune p = F := by
  induction F with
  | nil => rfl
  | cons b sons rest ihs ihr =>
    simp only [labels, List.mem_cons, List.mem_append, forall_eq_or_imp] at h
    simp only [prune, h.1, Bool.false_eq_true, if_false, ihs fun i hi => h.2 i (.inl hi),
      ihr fun i hi => h.2 i (.inr hi)]

section SonsOf
variable [DecidableEq α]

theorem sonsOf_eq_none {i : α} {F : Forest α} (h : i ∉ F.labels) : F.sonsOf i = none := by
  induction F with
  | nil => rfl
  | cons b sons rest ihs ihr =>
    simp only [labels, List.mem_cons, List.mem_append, not_or] at h
    simp [sonsOf, Ne.symm h.1, ihs h.2.1, ihr h.2.2]

theorem exists_sonsOf {i : α} {F : Forest α} (h : i ∈ F.labels) : ∃ G, F.sonsOf i = some G := by
  induction F with
  | nil => simp [labels] at h
  | cons b sons rest ihs ihr =>
    simp only [labels, List.mem_cons, List.mem_append] at h
    by_cases hb : b = i
    · exact ⟨sons, by simp [sonsOf, hb]⟩
    · simp only [sonsOf, hb, if_false]
      by_cases hs : i ∈ sons.labels
      · obtain ⟨G, hG⟩ := ihs hs
        exact ⟨G, by simp [hG]⟩
      · obtain ⟨G, hG⟩ := ihr ((h.resolve_left (Ne.symm hb)).resolve_left hs)
        exact ⟨G, by simp [sonsOf_eq_none hs, hG]⟩

/-- A node, what is below it and what is left without it make up the forest. -/
theorem labels_prune_perm {i : α} {F G : Forest α} (hn : F.labels.Nodup) (hG : F.sonsOf i = some G) :
    F.labels.Perm ((i :: G.labels) ++ (F.prune (· = i)).labels) := by
  induction F generalizing G with
  | nil => simp [sonsOf] at hG
  | cons b sons rest ihs ihr =>
    simp only [labels, List.nodup_cons, List.mem_append, not_or, List.nodup_append] at hn
    obtain ⟨⟨hbs, hbr⟩, hns, hnr, hdis⟩ := hn
    have other : ∀ {K : Forest α}, i ∉ K.labels → K.prune (· = i) = K := fun h =>
      prune_of_not_mem fun j hj => by simpa using fun e : j = i => h (e ▸ hj)
    simp only [sonsOf] at hG
    by_cases hb : b = i
    · subst hb
      simp only [if_true, Option.some.injEq] at hG
      subst hG
      simp [prune, labels, other hbr]
    · simp only [hb, if_false] at hG
      simp only [prune, hb, decide_false, Bool.false_eq_true, if_false, labels]
      have front : ∀ {l k : List α}, l.Perm ((i :: G.labels) ++ k) →
          (b :: l).Perm ((i :: G.labels) ++ (b :: k)) := fun h => (h.cons b).trans List.perm_middle.symm
      by_cases hs : i ∈ sons.labels
      · obtain ⟨G', hG'⟩ := exists_sonsOf hs
        rw [hG'] at hG
        simp only [Option.some_or, Option.some.injEq] at hG
        subst hG
        rw [other fun h => hdis i hs i h rfl]
        apply front
        rw [← List.append_assoc]
        exact (ihs hns hG').append_right _
      · rw [sonsOf_eq_none hs, Option.none_or] at hG
        rw [other hs]
        refine front (((ihr hnr hG).append_left _).trans ?_)
        rw [← List.append_assoc, ← List.append_assoc]
        exact List.perm_append_comm.append_right _

theorem mem_of_sonsOf {i : α} {F G : Forest α} (hG : F.sonsOf i = some G) : i ∈ F.labels := by
  by_contra h
  rw [sonsOf_eq_none h] at hG
  cases hG

theorem sonsOf_subset {i : α} {F G : Forest α} (hn : F.labels.Nodup) (hG : F.sonsOf i = some G) :
    ∀ j ∈ G.labels, j ∈ F.labels := fun j hj =>
  (labels_prune_perm hn hG).mem_iff.2 (by simp [hj])

/-- What is left after a removal. -/
theorem mem_labels_prune {i j : α} {F G : Forest α} (hn : F.labels.Nodup) (hG : F.sonsOf i = some G) :
    j ∈ (F.prune (· = i)).labels ↔ j ∈ F.labels ∧ j ∉ i :: G.labels := by
  have hp := labels_prune_perm hn hG
  have hd := List.nodup_append.1 (hp.nodup_iff.1 hn)
  rw [hp.mem_iff, List.mem_append]
  constructor
  · intro h
    exact ⟨.inr h, fun h' => hd.2.2 j h' j h rfl⟩
  · rintro ⟨h | h, hnot⟩
    · exact absurd h hnot
    · exact h

theorem nodup_prune {i : α} {F G : Forest α} (hn : F.labels.Nodup) (hG : F.sonsOf i = some G) :
    (F.prune (· = i)).labels.Nodup :=
  (List.nodup_append.1 ((labels_prune_perm hn hG).nodup_iff.1 hn)).2.1

theorem nodup_sonsOf {i : α} {F G : Forest α} (hn : F.labels.Nodup) (hG : F.sonsOf i = some G) :
    (i :: G.labels).Nodup :=
  (List.nodup_append.1 ((labels_prune_perm hn hG).nodup_iff.1 hn)).1

end SonsOf

end Forest

end Lib
