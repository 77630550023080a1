import Mathlib.Data.Finset.Card
import Mathlib.Data.Finset.Insert
import Mathlib.Data.List.Infix
/-!
# Radix trees in a store

A finite set of words closed under prefixes, each with a place of its own in a
store; the place of a word has an entry for each letter, which leads to the place
of the longer word if that is in the set and is empty if not. The words of full
depth are the leaves, whose places hold other things.
-/

namespace Lib

section Spanned
variable {α : Type} [DecidableEq α] {ps : List (List α)} {p n : List α}

/-- All prefixes of some words. -/
def spanned (ps : List (List α)) : Finset (List α) := (ps.flatMap List.inits).toFinset

theorem mem_spanned : n ∈ spanned ps ↔ ∃ p ∈ ps, n <+: p := by
  simp only [spanned, List.mem_toFinset, List.mem_flatMap, List.mem_inits]

theorem spanned_snoc : spanned (ps ++ [p]) = spanned ps ∪ p.inits.toFinset := by
  ext n
  simp only [Finset.mem_union, mem_spanned, List.mem_toFinset, List.mem_inits, List.mem_append, List.mem_singleton]
  constructor
  · rintro ⟨q, hq | rfl, hn⟩
    · exact .inl ⟨q, hq, hn⟩
    · exact .inr hn
  · rintro (⟨q, hq, hn⟩ | hn)
    · exact ⟨q, .inl hq, hn⟩
    · exact ⟨p, .inr rfl, hn⟩

theorem spanned_mono {qs : List (List α)} (h : ps ⊆ qs) : spanned ps ⊆ spanned qs := by
  intro n hn
  obtain ⟨p, hp, hpre⟩ := mem_spanned.1 hn
  exact mem_spanned.2 ⟨p, h hp, hpre⟩

/-- A word as long as all the others is there only if it is one of them. -/
theorem mem_of_mem_spanned {d : Nat} (hps : ∀ p ∈ ps, p.length = d) (hn : n ∈ spanned ps) (hd : n.length = d) : n ∈ ps := by
  obtain ⟨p, hp, hpre⟩ := mem_spanned.1 hn
  obtain rfl := hpre.eq_of_length (hd.trans (hps p hp).symm)
  exact hp

end Spanned

variable {α P E : Type} [DecidableEq α]

/-- The tree `N`, each word at its place; an entry on level `l` that leads to `q` is `enc l q`. -/
structure Stored (enc : Nat → P → E) (empty : E) (depth : Nat) (entry : P → α → E) (place : List α → P)
    (N : Finset (List α)) : Prop where
  closed : ∀ n x, n ++ [x] ∈ N → n ∈ N
  inj : ∀ m ∈ N, ∀ n ∈ N, place m = place n → m = n
  edge : ∀ n ∈ N, n.length < depth → ∀ x,
    entry (place n) x = if n ++ [x] ∈ N then enc n.length (place (n ++ [x])) else empty

namespace Stored

variable {enc : Nat → P → E} {empty : E} {depth : Nat} {entry entry' : P → α → E} {place : List α → P} {N : Finset (List α)}
  {m n : List α} {x : α} {q : P}

theorem nil (enc : Nat → P → E) (empty : E) (depth : Nat) (entry : P → α → E) (place : List α → P) :
    Stored enc empty depth entry place ∅ := by
  constructor <;> simp

theorem nil_mem (h : Stored enc empty depth entry place N) (hn : n ∈ N) : [] ∈ N := by
  induction n using List.reverseRecOn with
  | nil => exact hn
  | append_singleton n x ih => exact ih (h.closed n x hn)

/-- Only the entries of the places above the leaves count. -/
theorem congr (h : Stored enc empty depth entry place N)
    (heq : ∀ n ∈ N, n.length < depth → ∀ x, entry' (place n) x = entry (place n) x) :
    Stored enc empty depth entry' place N := by
  refine ⟨h.closed, h.inj, fun n hn hd x => ?_⟩
  rw [heq n hn hd]
  exact h.edge n hn hd x

/-- A root on an empty place. -/
theorem root [DecidableEq P] (hq : ∀ x, entry q x = empty) :
    Stored enc empty depth entry (Function.update place [] q) {[]} := by
  refine ⟨fun n x h => ?_, fun m hm n hn _ => ?_, fun n hn _ x => ?_⟩
  · simp at h
  · rw [Finset.mem_singleton.1 hm, Finset.mem_singleton.1 hn]
  · obtain rfl := Finset.mem_singleton.1 hn
    rw [Function.update_self, if_neg (by simp)]
    exact hq x

/-- A new word below `n`, at a place of its own: one entry is written. -/
theorem insert (h : Stored enc empty depth entry place N) (hn : n ∈ N) (hx : n ++ [x] ∉ N) (hq : ∀ m ∈ N, place m ≠ q)
    (hone : n.length < depth → entry' (place n) x = enc n.length q)
    (hsame : ∀ m ∈ N, m.length < depth → ∀ y, ¬ (m = n ∧ y = x) → entry' (place m) y = entry (place m) y)
    (hempty : n.length + 1 < depth → ∀ y, entry' q y = empty) :
    Stored enc empty depth entry' (Function.update place (n ++ [x]) q) (insert (n ++ [x]) N) := by
  have hold : ∀ m ∈ N, Function.update place (n ++ [x]) q m = place m := by
    intro m hm
    refine Function.update_of_ne ?_ _ _
    rintro rfl
    exact hx hm
  refine ⟨fun m y hm => ?_, fun m hm m' hm' heq => ?_, fun m hm hd y => ?_⟩
  · rcases Finset.mem_insert.1 hm with heq | hm
    · obtain ⟨rfl, -⟩ := List.append_inj' heq rfl
      exact Finset.mem_insert_of_mem hn
    · exact Finset.mem_insert_of_mem (h.closed m y hm)
  · rcases Finset.mem_insert.1 hm with rfl | hm <;> rcases Finset.mem_insert.1 hm' with rfl | hm'
    · rfl
    · rw [Function.update_self, hold m' hm'] at heq
      exact absurd heq.symm (hq m' hm')
    · rw [Function.update_self, hold m hm] at heq
      exact absurd heq (hq m hm)
    · rw [hold m hm, hold m' hm'] at heq
      exact h.inj m hm m' hm' heq
  · rcases Finset.mem_insert.1 hm with rfl | hm
    · -- The new word has no word below it.
      have hnone : n ++ [x] ++ [y] ∉ Insert.insert (n ++ [x]) N := by
        intro hmem
        rcases Finset.mem_insert.1 hmem with heq | hmem
        · simpa using congrArg List.length heq
        · exact hx (h.closed _ y hmem)
      rw [Function.update_self, if_neg hnone]
      exact hempty (by simpa using hd) y
    · rw [hold m hm]
      by_cases hmx : m = n ∧ y = x
      · obtain ⟨rfl, rfl⟩ := hmx
        rw [if_pos (Finset.mem_insert_self _ _), Function.update_self]
        exact hone hd
      · have hne : m ++ [y] ≠ n ++ [x] := by
          intro heq
          obtain ⟨rfl, hyx⟩ := List.append_inj' heq rfl
          exact hmx ⟨rfl, (List.cons.inj hyx).1⟩
        rw [hsame m hm hd y hmx, h.edge m hm hd y, Function.update_of_ne hne]
        simp only [Finset.mem_insert, hne, false_or]

end Stored

end Lib
