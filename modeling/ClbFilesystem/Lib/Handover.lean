import Mathlib.Data.List.Induction
import Mathlib.Logic.Function.Basic
/-!
# Two processes and one cell

Each of two processes takes turns of two steps: it puts a value into a cell they
share, then gets it back. A schedule is clean when no put of one process falls
between a put and the get that follows it of the other. Under a clean schedule
every process goes on as if the cell were its own.
-/

namespace Lib

inductive Side where
  | left
  | right
  deriving DecidableEq, Repr

def Side.other : Side → Side
  | .left => .right
  | .right => .left

/-- Which processes are between a put and its get, and whose put was the last. -/
structure Board where
  half : Side → Bool
  owner : Option Side

namespace Board

def start : Board := ⟨fun _ => false, none⟩

def step (b : Board) (x : Side) : Board :=
  if b.half x then { b with half := Function.update b.half x false }
  else { half := Function.update b.half x true, owner := some x }

def run (b : Board) (σ : List Side) : Board := σ.foldl step b

/-- Every get of the schedule comes with the own put being the last. -/
def Clean : Board → List Side → Prop
  | _, [] => True
  | b, x :: σ => (b.half x = true → b.owner = some x) ∧ (b.step x).Clean σ

theorem run_snoc (b : Board) (σ : List Side) (x : Side) : b.run (σ ++ [x]) = (b.run σ).step x := by
  unfold run
  rw [List.foldl_append]
  rfl

theorem half_step (b : Board) (x y : Side) : (b.step x).half y = if y = x then !b.half x else b.half y := by
  unfold step
  cases hb : b.half x <;> by_cases hy : y = x <;> simp [hy]

theorem owner_step (b : Board) (x : Side) : (b.step x).owner = if b.half x then b.owner else some x := by
  unfold step
  split <;> rfl

/-- A process is between put and get after an odd number of its steps. -/
theorem half_run_start (σ : List Side) (x : Side) : (start.run σ).half x = decide (σ.count x % 2 = 1) := by
  induction σ using List.reverseRecOn with
  | nil => simp [run, start]
  | append_singleton σ y ih =>
    rw [run_snoc, half_step, List.count_append, List.count_singleton]
    by_cases hy : x = y
    · subst hy
      rw [if_pos rfl, ih, Bool.eq_iff_iff]
      simp
      omega
    · have hyx : y ≠ x := Ne.symm hy
      rw [if_neg hy, ih]
      simp [hyx]

theorem owner_ne_none {σ : List Side} {x : Side} (h : x ∈ σ) : (start.run σ).owner ≠ none := by
  induction σ using List.reverseRecOn with
  | nil => simp at h
  | append_singleton σ y ih =>
    rw [run_snoc, owner_step]
    split
    · next hhalf =>
      apply ih
      rw [half_run_start] at hhalf
      rcases List.mem_append.1 h with h | h
      · exact h
      · obtain rfl := List.mem_singleton.1 h
        exact List.count_pos_iff.1 (by simp at hhalf; omega)
    · simp

/-- A schedule that is not clean has a get that finds the put of the other process. -/
theorem exists_of_not_clean {b : Board} {σ : List Side} (h : ¬ b.Clean σ) :
    ∃ τ x ρ, σ = τ ++ x :: ρ ∧ (b.run τ).half x = true ∧ (b.run τ).owner ≠ some x := by
  induction σ generalizing b with
  | nil => exact absurd trivial h
  | cons y σ ih =>
    by_cases hy : b.half y = true → b.owner = some y
    · obtain ⟨τ, x, ρ, rfl, hhalf, howner⟩ := ih fun hc => h ⟨hy, hc⟩
      exact ⟨y :: τ, x, ρ, rfl, hhalf, howner⟩
    · rw [Classical.not_imp] at hy
      exact ⟨[], y, σ, rfl, hy⟩

end Board

/-! ## The processes -/

/-- The processes, each in a state of its own, and the cell. -/
structure Shared (α κ : Type) where
  acts : Side → α
  cell : κ

namespace Shared

variable {α κ : Type} (turn : α → κ → α × κ)

def step (c : Shared α κ) (x : Side) : Shared α κ :=
  let r := turn (c.acts x) c.cell
  ⟨Function.update c.acts x r.1, r.2⟩

def run (c : Shared α κ) (σ : List Side) : Shared α κ := σ.foldl (step turn) c

theorem run_snoc (c : Shared α κ) (σ : List Side) (x : Side) : c.run turn (σ ++ [x]) = (c.run turn σ).step turn x := by
  unfold run
  rw [List.foldl_append]
  rfl

theorem run_append_cons (c : Shared α κ) (σ ρ : List Side) (x : Side) :
    c.run turn (σ ++ x :: ρ) = ((c.run turn σ).step turn x).run turn ρ := by
  unfold run
  rw [List.foldl_append]
  rfl

theorem step_acts_self (c : Shared α κ) (x : Side) : (c.step turn x).acts x = (turn (c.acts x) c.cell).1 :=
  Function.update_self ..

theorem step_acts_of_ne (c : Shared α κ) {x y : Side} (h : y ≠ x) : (c.step turn x).acts y = c.acts y :=
  Function.update_of_ne h ..

theorem step_cell (c : Shared α κ) (x : Side) : (c.step turn x).cell = (turn (c.acts x) c.cell).2 := rfl

variable (K : κ → Prop) (I : Side → α → Prop) (J : Side → α → κ → Prop)

/-- What is known of the processes: `I` of one that is about to put, `J` of one that has put, as long as the cell
holds its value, and `K` of the cell. -/
structure Held (b : Board) (c : Shared α κ) : Prop where
  cell : K c.cell
  ready : ∀ x, b.half x = false → I x (c.acts x)
  owned : ∀ x, b.half x = true → b.owner = some x → J x (c.acts x) c.cell
  spoilt : ∀ x, b.half x = true → ∃ k, J x (c.acts x) k

variable {turn K I J} {b : Board} {c : Shared α κ}
  (hput : ∀ x a k, K k → I x a → J x (turn a k).1 (turn a k).2 ∧ K (turn a k).2)
  (hget : ∀ x a k, K k → J x a k → I x (turn a k).1 ∧ K (turn a k).2)
include hput hget

theorem Held.step (h : Held K I J b c) (x : Side) (hx : b.half x = true → b.owner = some x) :
    Held K I J (b.step x) (c.step turn x) := by
  cases hhalf : b.half x with
  | false =>
    obtain ⟨hJ, hK⟩ := hput x _ _ h.cell (h.ready x hhalf)
    refine ⟨hK, fun y hy => ?_, fun y _ ho => ?_, fun y hy => ?_⟩
    · by_cases hyx : y = x
      · subst hyx
        rw [Board.half_step, if_pos rfl, hhalf] at hy
        cases hy
      · rw [step_acts_of_ne turn c hyx]
        rw [Board.half_step, if_neg hyx] at hy
        exact h.ready y hy
    · -- The put takes the cell over.
      rw [Board.owner_step, hhalf] at ho
      obtain rfl : x = y := Option.some.inj ho
      rw [step_acts_self]
      exact hJ
    · by_cases hyx : y = x
      · subst hyx
        exact ⟨_, by rw [step_acts_self]; exact hJ⟩
      · rw [step_acts_of_ne turn c hyx]
        rw [Board.half_step, if_neg hyx] at hy
        exact h.spoilt y hy
  | true =>
    have hown := hx hhalf
    obtain ⟨hI, hK⟩ := hget x _ _ h.cell (h.owned x hhalf hown)
    refine ⟨hK, fun y hy => ?_, fun y hy ho => ?_, fun y hy => ?_⟩
    · by_cases hyx : y = x
      · subst hyx
        rw [step_acts_self]
        exact hI
      · rw [step_acts_of_ne turn c hyx]
        rw [Board.half_step, if_neg hyx] at hy
        exact h.ready y hy
    · rw [Board.owner_step, hhalf, if_pos rfl, hown] at ho
      obtain rfl : x = y := Option.some.inj ho
      rw [Board.half_step, if_pos rfl, hhalf] at hy
      cases hy
    · by_cases hyx : y = x
      · subst hyx
        rw [Board.half_step, if_pos rfl, hhalf] at hy
        cases hy
      · rw [step_acts_of_ne turn c hyx]
        rw [Board.half_step, if_neg hyx] at hy
        exact h.spoilt y hy

/-- Under a clean schedule every process goes on as if the cell were its own. -/
theorem Held.run (h : Held K I J b c) {σ : List Side} (hσ : b.Clean σ) : Held K I J (b.run σ) (c.run turn σ) := by
  induction σ generalizing b c with
  | nil => exact h
  | cons x σ ih => exact ih (h.step hput hget x hσ.1) hσ.2

end Shared

end Lib
