import Mathlib.Data.Fintype.Card
import Mathlib.Data.Fintype.EquivFin
/-!
# Tables of handles

A slot of a table of handles is free, or holds an entry of another table. Two
things are kept beside: how many slots hold an entry, and, where an entry that
was given back may be given out again, the instance of it that a slot was taken
on. Taking a free slot and dropping a held one change a single slot.
-/

namespace Lib

variable {κ α : Type}

/-- A table after a slot of it has been set. -/
def setSlot [DecidableEq κ] (p : κ → Option α) (d : κ) (x : Option α) : κ → Option α := Function.update p d x

/-! ## How many slots hold an entry -/

section Holders
variable [Fintype κ] [DecidableEq α] {p : κ → Option α} {d : κ} {i j : α}

def holders (p : κ → Option α) (i : α) : Nat := (Finset.univ.filter fun d => p d = some i).card

theorem holders_eq_zero : holders p i = 0 ↔ ∀ d, p d ≠ some i := by
  unfold holders
  rw [Finset.card_eq_zero, Finset.filter_eq_empty_iff]
  simp

variable [DecidableEq κ]

/-- Taking a free slot for `i` adds one holder to `i`. -/
theorem holders_take (hd : p d = none) : holders (setSlot p d (some i)) j = holders p j + if j = i then 1 else 0 := by
  unfold holders
  by_cases hj : j = i
  · subst hj
    have hins : (Finset.univ.filter fun e => setSlot p d (some j) e = some j) =
        insert d (Finset.univ.filter fun e => p e = some j) := by
      ext e
      simp only [setSlot, Function.update_apply, Finset.mem_filter, Finset.mem_univ, true_and, Finset.mem_insert]
      by_cases he : e = d <;> simp [he]
    rw [hins, Finset.card_insert_of_notMem (by simp [hd]), if_pos rfl]
  · have hsame : (Finset.univ.filter fun e => setSlot p d (some i) e = some j) =
        Finset.univ.filter fun e => p e = some j := by
      ext e
      simp only [setSlot, Function.update_apply, Finset.mem_filter, Finset.mem_univ, true_and]
      by_cases he : e = d
      · subst he; simp [hd, Ne.symm hj]
      · simp [he]
    rw [hsame, if_neg hj, Nat.add_zero]

/-- Dropping a slot on `i` takes one holder from `i`. -/
theorem holders_drop (hd : p d = some i) : holders (setSlot p d none) j + (if j = i then 1 else 0) = holders p j := by
  have hback : setSlot (setSlot p d none) d (some i) = p := by
    unfold setSlot
    rw [Function.update_idem, ← hd, Function.update_eq_self]
  have htake := holders_take (p := setSlot p d none) (d := d) (i := i) (j := j) (by simp [setSlot])
  rw [hback] at htake
  exact htake.symm

end Holders

/-! ## Instances -/

/-- The number of times each entry has been given out, and the entry and the number each slot was taken on. -/
structure Instances (κ α : Type) where
  count : α → Nat
  taken : κ → Option (α × Nat)

namespace Instances

variable (g : Instances κ α)

/-- Each slot is on the entry it was taken on, and that entry has not been given out since. -/
def Current (p : κ → Option α) : Prop := ∀ d i n, g.taken d = some (i, n) → p d = some i ∧ g.count i = n

/-- The entries in `S` are given out. -/
def renew (S : α → Prop) [DecidablePred S] : Instances κ α :=
  { g with count := fun i => if S i then g.count i + 1 else g.count i }

theorem renew_none {S : α → Prop} [DecidablePred S] (h : ∀ i, ¬ S i) : g.renew S = g := by
  unfold renew
  simp only [h, if_false]

variable [DecidableEq κ]

/-- Slot `d` is taken on the present instance of `i`. -/
def take (d : κ) (i : α) : Instances κ α := { g with taken := Function.update g.taken d (some (i, g.count i)) }

def drop (d : κ) : Instances κ α := { g with taken := Function.update g.taken d none }

variable {g} {p : κ → Option α} {d : κ} {i : α}

omit [DecidableEq κ] in
/-- Giving out entries keeps the slots current exactly when no slot is on one of them. -/
theorem current_renew {S : α → Prop} [DecidablePred S] (h : g.Current p) :
    (g.renew S).Current p ↔ ∀ d i n, g.taken d = some (i, n) → ¬ S i := by
  constructor
  · intro hcur d i n hd hS
    have hold := (h d i n hd).2
    have hnew := (hcur d i n hd).2
    simp only [renew, hS, if_true] at hnew
    omega
  · intro hno d i n hd
    refine ⟨(h d i n hd).1, ?_⟩
    simp only [renew, hno d i n hd, if_false]
    exact (h d i n hd).2

theorem current_take (h : g.Current p) : (g.take d i).Current (setSlot p d (some i)) := by
  intro e j n he
  simp only [take, setSlot, Function.update_apply] at he ⊢
  split at he
  · next hed =>
    cases he
    exact ⟨if_pos hed, rfl⟩
  · next hed =>
    rw [if_neg hed]
    exact h e j n he

/-- A free slot is taken for another use. -/
theorem current_set (h : g.Current p) (hd : p d = none) (x : Option α) : g.Current (setSlot p d x) := by
  intro e j n he
  obtain ⟨hp, hn⟩ := h e j n he
  have hed : e ≠ d := by
    rintro rfl
    rw [hd] at hp
    cases hp
  refine ⟨?_, hn⟩
  rw [setSlot, Function.update_of_ne hed]
  exact hp

theorem current_drop (h : g.Current p) : (g.drop d).Current (setSlot p d none) := by
  intro e j n he
  simp only [drop, setSlot, Function.update_apply] at he ⊢
  split at he
  · cases he
  · next hed =>
    rw [if_neg hed]
    exact h e j n he

end Instances

end Lib
