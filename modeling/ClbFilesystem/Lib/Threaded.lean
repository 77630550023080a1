import ClbFilesystem.Lib.Forest
import Mathlib.Logic.Relation
/-!
# Forests threaded through a table

A table of nodes can hold an ordered forest in three pointers a node: to its
father, to its first son and to its next brother. `Threads L f p F` says that
the chain starting at pointer `p` is the forest `F`, all of whose trees have
father pointer `f`. The two pointer updates a tree of files needs, linking a
leaf behind the last son of a node and unlinking a node, act on the forest as
`addSon` and `prune`.
-/

namespace Lib

/-- The three pointers of every node. -/
structure Links (ι : Type) where
  father : ι → Option ι
  brother : ι → Option ι
  first_son : ι → Option ι

namespace Links

open Forest

variable {ι : Type} (L : Links ι)

def Threads (f : Option ι) : Option ι → Forest ι → Prop
  | p, .nil => p = none
  | p, .cons i sons rest =>
    p = some i ∧ L.father i = f ∧ Threads (some i) (L.first_son i) sons ∧ Threads f (L.brother i) rest

/-- The nodes met from `p` along the brothers: the chain ends, and they are `l`. -/
def Chain : Option ι → List ι → Prop
  | p, [] => p = none
  | p, i :: l => p = some i ∧ Chain (L.brother i) l

/-- `L` and `L'` have the same pointers at `i`. -/
def Same (L' : Links ι) (i : ι) : Prop :=
  L'.father i = L.father i ∧ L'.brother i = L.brother i ∧ L'.first_son i = L.first_son i

variable {L} {L' : Links ι} {f p : Option ι} {F : Forest ι}

theorem Chain.unique {l l' : List ι} (h : L.Chain p l) (h' : L.Chain p l') : l = l' := by
  induction l generalizing p l' with
  | nil => cases l' with
    | nil => rfl
    | cons j l' => rw [h] at h'; exact absurd h'.1 (by simp)
  | cons i l ih => cases l' with
    | nil => obtain ⟨rfl, _⟩ := h; exact absurd h' (by simp [Chain])
    | cons j l' =>
      obtain ⟨rfl, h⟩ := h
      obtain ⟨hij, h'⟩ := h'
      cases hij
      rw [ih h h']

/-! ## Positions on a chain -/

section Positions
variable {l : List ι} {i j : ι}

/-- A chain looks at the brothers of its nodes only. -/
theorem Chain.frame (h : L.Chain p l) (hb : ∀ j ∈ l, L'.brother j = L.brother j) : L'.Chain p l := by
  induction l generalizing p with
  | nil => exact h
  | cons k l ih =>
    obtain ⟨rfl, h⟩ := h
    refine ⟨rfl, ?_⟩
    rw [hb k (by simp)]
    exact ih h fun j hj => hb j (by simp [hj])

/-- The brother of a node of a chain comes next on it. -/
theorem Chain.brother_mem (h : L.Chain p l) (hj : j ∈ l) (hb : L.brother j = some i) : i ∈ l.tail := by
  induction l generalizing p with
  | nil => simp at hj
  | cons k l ih =>
    obtain ⟨rfl, h⟩ := h
    cases l with
    | nil =>
      obtain rfl := List.mem_singleton.1 hj
      rw [h] at hb; cases hb
    | cons k' l =>
      rcases List.mem_cons.1 hj with rfl | hj
      · rw [h.1] at hb; cases hb; simp
      · exact List.mem_of_mem_tail (ih h hj)

/-- A node that the pointer to the chain leads to is the brother of no node on it. -/
theorem Chain.head_ne (h : L.Chain (some i) l) (hn : l.Nodup) (hj : j ∈ l) : L.brother j ≠ some i := by
  intro hb
  have ht := h.brother_mem hj hb
  cases l with
  | nil => simp at hj
  | cons k l =>
    cases h.1
    exact (List.nodup_cons.1 hn).1 ht

theorem Chain.brother_inj {j' : ι} (h : L.Chain p l) (hn : l.Nodup) (hj : j ∈ l) (hj' : j' ∈ l)
    (hb : L.brother j = some i) (hb' : L.brother j' = some i) : j = j' := by
  induction l generalizing p with
  | nil => simp at hj
  | cons k l ih =>
    obtain ⟨rfl, h⟩ := h
    have hnl := (List.nodup_cons.1 hn).2
    -- If one of the two is `k`, then `i` heads the rest of the chain, and the other is `k` too.
    rcases List.mem_cons.1 hj with rfl | hjl <;> rcases List.mem_cons.1 hj' with rfl | hjl'
    · rfl
    · rw [hb] at h; exact absurd hb' (h.head_ne hnl hjl')
    · rw [hb'] at h; exact absurd hb (h.head_ne hnl hjl)
    · exact ih h hnl hjl hjl'

theorem Chain.head?_eq (h : L.Chain p l) : p = l.head? := by
  cases l with
  | nil => exact h
  | cons k l => exact h.1

/-- The brother of a node is the node behind it. -/
theorem Chain.brother_eq {l' : List ι} (h : L.Chain p (l ++ i :: l')) : L.brother i = l'.head? := by
  induction l generalizing p with
  | nil => exact h.2.head?_eq
  | cons k l ih => exact ih h.2

/-- The node without brother is the last of its chain. -/
theorem Chain.brother_eq_none_iff (h : L.Chain p l) (hn : l.Nodup) (hj : j ∈ l) :
    L.brother j = none ↔ l.getLast? = some j := by
  induction l generalizing p with
  | nil => simp at hj
  | cons k l ih =>
    obtain ⟨rfl, h⟩ := h
    obtain ⟨hkl, hnl⟩ := List.nodup_cons.1 hn
    cases l with
    | nil =>
      obtain rfl := List.mem_singleton.1 hj
      have hend : L.brother j = none := h
      simp [hend]
    | cons k' l =>
      rw [List.getLast?_cons_cons]
      rcases List.mem_cons.1 hj with rfl | hj
      · constructor
        · intro hb; rw [h.1] at hb; cases hb
        · intro hlast; exact absurd (List.mem_of_getLast? hlast) hkl
      · exact ih h hnl hj

end Positions

/-! ## What a threaded forest says about its nodes -/

theorem Threads.chain (h : L.Threads f p F) : L.Chain p F.roots := by
  induction F generalizing f p with
  | nil => exact h
  | cons i sons rest _ ihr => exact ⟨h.1, ihr h.2.2.2⟩

theorem Threads.father_of_root (h : L.Threads f p F) : ∀ i ∈ F.roots, L.father i = f := by
  induction F generalizing p with
  | nil => simp [roots]
  | cons i sons rest _ ihr =>
    simp only [roots, List.mem_cons, forall_eq_or_imp]
    exact ⟨h.2.1, ihr h.2.2.2⟩

/-- The father of a node is in the forest, or is the father of the whole. -/
theorem Threads.father_mem (h : L.Threads f p F) :
    ∀ i ∈ F.labels, L.father i = f ∨ ∃ k ∈ F.labels, L.father i = some k := by
  induction F generalizing f p with
  | nil => simp [labels]
  | cons i sons rest ihs ihr =>
    intro j hj
    simp only [labels, List.mem_cons, List.mem_append] at hj ⊢
    rcases hj with rfl | hj | hj
    · exact .inl h.2.1
    · rcases ihs h.2.2.1 j hj with hf | ⟨k, hk, hf⟩
      · exact .inr ⟨i, .inl rfl, hf⟩
      · exact .inr ⟨k, .inr (.inl hk), hf⟩
    · rcases ihr h.2.2.2 j hj with hf | ⟨k, hk, hf⟩
      · exact .inl hf
      · exact .inr ⟨k, .inr (.inr hk), hf⟩

theorem Threads.sonsOf [DecidableEq ι] {i : ι} {G : Forest ι} (h : L.Threads f p F) (hG : F.sonsOf i = some G) :
    L.Threads (some i) (L.first_son i) G := by
  induction F generalizing f p with
  | nil => simp [Forest.sonsOf] at hG
  | cons j sons rest ihs ihr =>
    simp only [Forest.sonsOf] at hG
    split at hG
    · next hj => cases hG; exact hj ▸ h.2.2.1
    · rcases Option.or_eq_some_iff.1 hG with hs | ⟨_, hr⟩
      · exact ihs h.2.2.1 hs
      · exact ihr h.2.2.2 hr

/-- A node lies at the top of the forest, or on the chain of its father. -/
theorem Threads.mem_chain [DecidableEq ι] (h : L.Threads f p F) (hn : F.labels.Nodup) :
    ∀ i ∈ F.labels, i ∈ F.roots ∨ ∃ k ∈ F.labels, ∃ G, L.father i = some k ∧ F.sonsOf k = some G ∧ i ∈ G.roots := by
  induction F generalizing f p with
  | nil => simp [labels]
  | cons j sons rest ihs ihr =>
    simp only [labels, List.nodup_cons, List.mem_append, not_or, List.nodup_append] at hn
    obtain ⟨⟨hjs, hjr⟩, hns, hnr, hdis⟩ := hn
    intro i hi
    simp only [labels, List.mem_cons, List.mem_append] at hi ⊢
    rcases hi with rfl | hi | hi
    · exact .inl (by simp [roots])
    · right
      rcases ihs h.2.2.1 hns i hi with hr | ⟨k, hk, G, hf, hG, hir⟩
      · exact ⟨j, .inl rfl, sons, h.2.2.1.father_of_root i hr, by simp [Forest.sonsOf], hr⟩
      · have hjk : j ≠ k := fun e => hjs (e ▸ hk)
        exact ⟨k, .inr (.inl hk), G, hf, by simp [Forest.sonsOf, hjk, hG], hir⟩
    · rcases ihr h.2.2.2 hnr i hi with hr | ⟨k, hk, G, hf, hG, hir⟩
      · exact .inl (by simp [roots, hr])
      · have hjk : j ≠ k := fun e => hjr (e ▸ hk)
        have hks : k ∉ sons.labels := fun hs => hdis k hs k hk rfl
        exact .inr ⟨k, .inr (.inr hk), G, hf, by simp [Forest.sonsOf, hjk, sonsOf_eq_none hks, hG], hir⟩

/-- Every node is below a top one along the sons. -/
theorem Threads.reachable (h : L.Threads f p F) :
    ∀ i ∈ F.labels, ∃ r ∈ F.roots, Relation.ReflTransGen (fun a b => L.father b = some a) r i := by
  induction F generalizing f p with
  | nil => simp [labels]
  | cons j sons rest ihs ihr =>
    intro i hi
    simp only [labels, List.mem_cons, List.mem_append] at hi
    simp only [roots, List.mem_cons]
    rcases hi with rfl | hi | hi
    · exact ⟨i, .inl rfl, .refl⟩
    · obtain ⟨r, hr, hri⟩ := ihs h.2.2.1 i hi
      exact ⟨j, .inl rfl, .head (h.2.2.1.father_of_root r hr) hri⟩
    · obtain ⟨r, hr, hri⟩ := ihr h.2.2.2 i hi
      exact ⟨r, .inr hr, hri⟩

/-- A threaded forest looks at the pointers of its own nodes only. -/
theorem Threads.frame (h : L.Threads f p F) (hs : ∀ i ∈ F.labels, L.Same L' i) : L'.Threads f p F := by
  induction F generalizing f p with
  | nil => exact h
  | cons i sons rest ihs ihr =>
    simp only [labels, List.mem_cons, List.mem_append, forall_eq_or_imp] at hs
    obtain ⟨⟨hf, hb, hfs⟩, hs⟩ := hs
    refine ⟨h.1, hf.trans h.2.1, ?_, ?_⟩
    · rw [hfs]; exact ihs h.2.2.1 fun j hj => hs j (.inl hj)
    · rw [hb]; exact ihr h.2.2.2 fun j hj => hs j (.inr hj)

theorem Threads.leaf {a : ι} (hf : L.father a = f) (hb : L.brother a = none) (hs : L.first_son a = none) :
    L.Threads f (some a) (Forest.leaf a) := ⟨rfl, hf, hs, hb⟩

/-! ## Reading the forest back -/

/-- The forest found from pointer `p`, looking at most `n` pointers deep. -/
def read (L : Links ι) : Nat → Option ι → Forest ι
  | 0, _ => .nil
  | _ + 1, none => .nil
  | n + 1, some i => .cons i (L.read n (L.first_son i)) (L.read n (L.brother i))

theorem Threads.read_eq (h : L.Threads f p F) {n : Nat} (hn : F.size ≤ n) : L.read n p = F := by
  induction F generalizing f p n with
  | nil =>
    rw [h]
    cases n <;> rfl
  | cons i sons rest ihs ihr =>
    obtain ⟨rfl, -, hs, hr⟩ := h
    cases n with
    | zero => simp [size] at hn
    | succ n =>
      simp only [size] at hn
      simp only [read, ihs hs (by omega : sons.size ≤ n), ihr hr (by omega : rest.size ≤ n)]

theorem Threads.unique {F' : Forest ι} (h : L.Threads f p F) (h' : L.Threads f p F') : F = F' :=
  (h.read_eq (Nat.le_max_left _ F'.size)).symm.trans (h'.read_eq (Nat.le_max_right _ _))

/-- The chain found from pointer `p`, of at most `n` nodes. -/
def chainList (L : Links ι) : Nat → Option ι → List ι
  | 0, _ => []
  | _ + 1, none => []
  | n + 1, some i => i :: L.chainList n (L.brother i)

@[simp] theorem chainList_none (L : Links ι) (n : Nat) : L.chainList n none = [] := by cases n <;> rfl

theorem Chain.chainList_eq {l : List ι} (h : L.Chain p l) {n : Nat} (hn : l.length ≤ n) : L.chainList n p = l := by
  induction l generalizing p n with
  | nil =>
    rw [h]
    cases n <;> rfl
  | cons i l ih =>
    obtain ⟨rfl, h⟩ := h
    cases n with
    | zero => simp at hn
    | succ n => simp only [chainList, ih h (by simpa using hn)]

/-! ## Linking a leaf behind the last son -/

section Link
variable [DecidableEq ι]

/-- Node `a` becomes the last son of `d`: behind the son without brother, or first if there is none. -/
def link (L : Links ι) (d a : ι) : Links ι where
  father i := if i = a then some d else L.father i
  brother i := if L.father i = some d ∧ L.brother i = none ∧ i ≠ a then some a else L.brother i
  first_son i := if i = d ∧ L.first_son d = none then some a else L.first_son i

variable {d a : ι}

/-- The nodes of a forest whose father is not `d` keep their pointers. -/
theorem Threads.link_frame (h : L.Threads f p F) (hfd : f ≠ some d) (hd : d ∉ F.labels) (ha : a ∉ F.labels) :
    (L.link d a).Threads f p F := by
  apply h.frame
  intro i hi
  have hia : i ≠ a := fun e => ha (e ▸ hi)
  have hid : i ≠ d := fun e => hd (e ▸ hi)
  have hf : L.father i ≠ some d := by
    rcases h.father_mem i hi with hf | ⟨k, hk, hf⟩
    · rwa [hf]
    · rw [hf]; exact fun e => hd (Option.some.inj e ▸ hk)
  simp [Same, link, hia, hid, hf]

/-- The chain of `d` gets the leaf `a` at its end. -/
theorem Threads.link_snoc (h : L.Threads (some d) p F) (hd : d ∉ F.labels) (ha : a ∉ F.labels) (had : a ≠ d)
    (hb : L.brother a = none) (hs : L.first_son a = none) :
    (L.link d a).Threads (some d) (if p = none then some a else p) (F.snoc a) := by
  induction F generalizing p with
  | nil =>
    rw [h, if_pos rfl]
    exact .leaf (by simp [link]) (by simp [link, hb]) (by simp [link, had, hs])
  | cons i sons rest _ ihr =>
    obtain ⟨rfl, hf, hsons, hrest⟩ := h
    simp only [labels, List.mem_cons, List.mem_append, not_or] at hd ha
    refine ⟨by simp, by simp [link, Ne.symm ha.1, hf], ?_, ?_⟩
    · have hid : (some i : Option ι) ≠ some d := fun e => hd.1 (Option.some.inj e).symm
      simp only [link, Ne.symm hd.1, false_and, if_false]
      exact hsons.link_frame hid hd.2.1 ha.2.1
    · have := ihr hrest hd.2.2 ha.2.2
      convert this using 1
      simp only [link, hf, true_and, Ne.symm ha.1, ne_eq, not_false_eq_true, and_true]

/-- A chain of nodes of another father stays as it is. -/
theorem Chain.link_frame {l : List ι} (h : L.Chain p l) (hf : ∀ j ∈ l, L.father j ≠ some d) : (L.link d a).Chain p l :=
  h.frame fun j hj => by simp [Links.link, hf j hj]

/-- The chain of the sons of `d` gets `a` at its end. -/
theorem Chain.link_snoc {l : List ι} (h : L.Chain p l) (hf : ∀ j ∈ l, L.father j = some d) (ha : a ∉ l)
    (hb : L.brother a = none) : (L.link d a).Chain (if p = none then some a else p) (l ++ [a]) := by
  induction l generalizing p with
  | nil =>
    rw [h, if_pos rfl]
    exact ⟨rfl, by simp [Links.link, hb, Chain]⟩
  | cons j l ih =>
    obtain ⟨rfl, hrest⟩ := h
    simp only [List.mem_cons, not_or] at ha
    have hj : (L.link d a).brother j = if L.brother j = none then some a else L.brother j := by
      simp [Links.link, hf j (by simp), Ne.symm ha.1]
    refine ⟨by simp, ?_⟩
    rw [hj]
    exact ih hrest (fun k hk => hf k (by simp [hk])) ha.2

/-- Linking `a` under `d` adds it as the last son of `d`. -/
theorem Threads.link (h : L.Threads f p F) (hn : F.labels.Nodup) (hfd : f ≠ some d) (ha : a ∉ F.labels) (had : a ≠ d)
    (hb : L.brother a = none) (hs : L.first_son a = none) :
    (L.link d a).Threads f p (F.addSon (· = d) a) := by
  induction F generalizing f p with
  | nil => exact h
  | cons i sons rest ihs ihr =>
    obtain ⟨rfl, hf, hsons, hrest⟩ := h
    simp only [labels, List.nodup_cons, List.mem_append, not_or, List.nodup_append] at hn
    obtain ⟨⟨his, hir⟩, hns, hnr, -⟩ := hn
    simp only [labels, List.mem_cons, List.mem_append, not_or] at ha
    obtain ⟨hai, has, har⟩ := ha
    refine ⟨rfl, by simp [Links.link, Ne.symm hai, hf], ?_, ?_⟩
    · by_cases hid : i = d
      · subst hid
        simp only [decide_true, if_true, Links.link, true_and]
        exact hsons.link_snoc his has had hb hs
      · simp only [hid, decide_false, Bool.false_eq_true, if_false, Links.link, false_and]
        exact ihs hsons hns (by simpa using hid) has
    · have hbr : (L.link d a).brother i = L.brother i := by simp [Links.link, hf, hfd]
      rw [hbr]
      exact ihr hrest hnr hfd har

end Link

/-! ## Unlinking a node -/

section Unlink
variable [DecidableEq ι]

/-- Every pointer to `i` now goes to its brother. -/
def unlink (L : Links ι) (i : ι) : Links ι where
  father := L.father
  brother j := if L.brother j = some i then L.brother i else L.brother j
  first_son j := if L.first_son j = some i then L.brother i else L.first_son j

/-- Unlinking `i` takes it out of its chain. -/
theorem Chain.unlink {l : List ι} (i : ι) (h : L.Chain p l) (hn : l.Nodup) :
    (L.unlink i).Chain (if p = some i then L.brother i else p) (l.filter (· ≠ i)) := by
  induction l generalizing p with
  | nil => rw [h]; simp [Chain]
  | cons j l ih =>
    obtain ⟨rfl, hrest⟩ := h
    obtain ⟨hj, hn⟩ := List.nodup_cons.1 hn
    have hl := ih hrest hn
    by_cases hji : j = i
    · subst hji
      have hhead : L.brother j ≠ some j := by
        intro hb
        rw [hb] at hrest
        exact hj (List.mem_of_mem_head? hrest.head?_eq.symm)
      rw [if_neg hhead] at hl
      simpa using hl
    · simp only [Option.some.injEq, hji, if_false, ne_eq, not_false_eq_true, decide_true, List.filter_cons_of_pos]
      exact ⟨rfl, hl⟩

/-- Unlinking `i` removes it, and what is below it, from the forest. -/
theorem Threads.unlink (i : ι) (h : L.Threads f p F) :
    (L.unlink i).Threads f (if p = some i then L.brother i else p) (F.prune (· = i)) := by
  induction F generalizing f p with
  | nil => rw [h]; simp [prune, Threads]
  | cons j sons rest ihs ihr =>
    obtain ⟨rfl, hf, hsons, hrest⟩ := h
    simp only [prune]
    by_cases hji : j = i
    · subst hji
      simp only [decide_true, if_true]
      simpa using ihr hrest
    · simp only [hji, decide_false, Bool.false_eq_true, if_false, Option.some.injEq]
      exact ⟨rfl, hf, ihs hsons, ihr hrest⟩

end Unlink

end Links

end Lib
