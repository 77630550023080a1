import Mathlib.Data.List.Basic
import Mathlib.Data.List.Nodup
import Mathlib.Logic.Function.Iterate
/-!
# Going through a list that changes

A cursor goes through a list while elements are put at its end and taken out of
it. `Iter` splits the list at the cursor. As long as the element under the cursor
is not taken out, an element that is never taken out is met exactly once.
-/

namespace Lib

/-- A list, split into what the cursor has passed and what it has still to come to. -/
structure Iter (α : Type) where
  passed : List α
  rest : List α

namespace Iter

variable {α : Type} (it : Iter α) (a x y : α)

def list : List α := it.passed ++ it.rest

/-- The element under the cursor; none behind the end. -/
def cursor : Option α := it.rest.head?

/-- Before the first element. -/
def start (l : List α) : Iter α := ⟨[], l⟩

def next : Iter α → Iter α
  | ⟨passed, x :: rest⟩ => ⟨passed ++ [x], rest⟩
  | ⟨passed, []⟩ => ⟨passed, []⟩

/-- A new last element; a cursor behind the end stays there. -/
def push : Iter α := if it.rest = [] then ⟨it.passed ++ [a], []⟩ else ⟨it.passed, it.rest ++ [a]⟩

@[simp] theorem list_start (l : List α) : (start l).list = l := rfl
@[simp] theorem cursor_start (l : List α) : (start l).cursor = l.head? := rfl

@[simp] theorem list_next : it.next.list = it.list := by
  obtain ⟨passed, rest⟩ := it
  cases rest <;> simp [next, list]

@[simp] theorem list_push : (it.push a).list = it.list ++ [a] := by
  unfold push
  split
  · next h => simp [list, h]
  · simp [list]

@[simp] theorem cursor_push : (it.push a).cursor = it.cursor := by
  obtain ⟨passed, rest⟩ := it
  unfold push
  cases rest <;> simp [cursor]

theorem cursor_mem {it : Iter α} {x : α} (h : it.cursor = some x) : x ∈ it.list := by
  simp [list, List.mem_of_mem_head? h]

/-- The cursor moves to the element that follows in the list. -/
theorem cursor_next {it : Iter α} {x : α} (h : it.cursor = some x) :
    ∃ l l', it.list = l ++ x :: l' ∧ it.next.cursor = l'.head? := by
  obtain ⟨passed, rest⟩ := it
  cases rest with
  | nil => cases h
  | cons y rest =>
    obtain rfl := Option.some.inj h
    exact ⟨passed, rest, rfl, rfl⟩

theorem next_of_end {it : Iter α} (h : it.cursor = none) : it.next = it := by
  obtain ⟨passed, rest⟩ := it
  obtain rfl := List.head?_eq_none_iff.1 h
  rfl

/-- From the start the cursor goes through the list in order. -/
theorem iterate_next_start (l : List α) (k : Nat) : next^[k] (start l) = ⟨l.take k, l.drop k⟩ := by
  induction k with
  | zero => simp [start]
  | succ k ih =>
    rw [Function.iterate_succ_apply', ih]
    cases hd : l.drop k with
    | nil =>
      have hk : l.length ≤ k := List.drop_eq_nil_iff.1 hd
      simp [next, List.take_of_length_le hk, List.take_of_length_le (Nat.le_succ_of_le hk), List.drop_of_length_le (Nat.le_succ_of_le hk)]
    | cons x rest =>
      have hx : l[k]? = some x := by rw [← List.head?_drop, hd]; rfl
      have hrest : l.drop (k + 1) = rest := by rw [← List.tail_drop, hd]; rfl
      simp [next, hrest, List.take_add_one, hx]

@[simp] theorem cursor_iterate_next_start (l : List α) (k : Nat) : (next^[k] (start l)).cursor = l[k]? := by
  rw [iterate_next_start, cursor, List.head?_drop]

variable [DecidableEq α]

/-- Element `x` is taken out. -/
def remove : Iter α := ⟨it.passed.filter (· ≠ x), it.rest.filter (· ≠ x)⟩

@[simp] theorem list_remove : (it.remove x).list = it.list.filter (· ≠ x) := by
  simp [list, remove]

theorem cursor_remove {it : Iter α} {x : α} (h : it.cursor ≠ some x) : (it.remove x).cursor = it.cursor := by
  obtain ⟨passed, rest⟩ := it
  cases rest with
  | nil => rfl
  | cons y rest =>
    have hyx : y ≠ x := fun e => h (by simp [cursor, e])
    simp [cursor, remove, hyx]

/-! ## An element that stays -/

/-- Element `x` is ahead and was not met, or is behind and was met once; `met` lists what the cursor has met. -/
def Due (met : List α) : Prop := x ∈ it.rest ∧ met.count x = 0 ∨ x ∈ it.passed ∧ met.count x = 1

variable {it a x y} {met : List α}

theorem due_start {l : List α} (h : x ∈ l) : (start l).Due x [] := .inl ⟨h, rfl⟩

theorem Due.next (h : it.Due x met) (hn : it.list.Nodup) (hy : it.cursor = some y) : it.next.Due x (met ++ [y]) := by
  obtain ⟨passed, rest⟩ := it
  cases rest with
  | nil => cases hy
  | cons z rest =>
    obtain rfl := Option.some.inj hy
    simp only [list, List.nodup_append, List.nodup_cons] at hn
    rcases h with ⟨hr, hc⟩ | ⟨hp, hc⟩
    · rcases List.mem_cons.1 hr with rfl | hr
      · exact .inr ⟨by simp [Iter.next], by simp [hc]⟩
      · have hxz : z ≠ x := by
          rintro rfl
          exact hn.2.1.1 hr
        exact .inl ⟨hr, by simp [hc, hxz]⟩
    · have hxz : z ≠ x := by
        rintro rfl
        exact hn.2.2 z hp z (by simp) rfl
      exact .inr ⟨by simp [Iter.next, hp], by simp [hc, hxz]⟩

theorem Due.push (h : it.Due x met) : (it.push a).Due x met := by
  unfold Iter.push
  rcases h with ⟨hr, hc⟩ | ⟨hp, hc⟩
  · rw [if_neg (List.ne_nil_of_mem hr)]
    exact .inl ⟨by simp [hr], hc⟩
  · split
    · exact .inr ⟨by simp [hp], hc⟩
    · exact .inr ⟨hp, hc⟩

theorem Due.remove (h : it.Due x met) (hxy : x ≠ y) : (it.remove y).Due x met := by
  rcases h with ⟨hr, hc⟩ | ⟨hp, hc⟩
  · exact .inl ⟨by simp [Iter.remove, hr, hxy], hc⟩
  · exact .inr ⟨by simp [Iter.remove, hp, hxy], hc⟩

/-- Behind the end everything that is due has been met. -/
theorem Due.count (h : it.Due x met) (hend : it.cursor = none) : met.count x = 1 := by
  rcases h with ⟨hr, -⟩ | ⟨-, hc⟩
  · rw [List.head?_eq_none_iff.1 hend] at hr
    simp at hr
  · exact hc

end Iter

end Lib
