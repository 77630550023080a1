import ClbFilesystem.Lib.Runs
/-!
# Runs seen through another system

A run of a larger system, looked at through a function of its states and one of
its events, is a run of a smaller one if every step is. What a step of a kind
leaves alone, a run of such steps does.
-/

namespace Lib

variable {σ τ ε η γ : Type} {R : σ → ε → σ → Prop} {s₀ s : σ} {tr : List (Step σ ε)}

/-- The steps of a run as the smaller system has them. -/
def seen (f : σ → τ) (g : ε → η) (tr : List (Step σ ε)) : List (Step τ η) :=
  tr.map fun st => ⟨f st.pre, g st.event, f st.post⟩

namespace Run

/-- Each step may use that the run before it has been seen as a run. -/
theorem seen {R' : τ → η → τ → Prop} (f : σ → τ) (g : ε → η)
    (hstep : ∀ tr s e s', Run R s₀ tr s → Run R' (f s₀) (Lib.seen f g tr) (f s) → R s e s' → R' (f s) (g e) (f s'))
    (h : Run R s₀ tr s) : Run R' (f s₀) (Lib.seen f g tr) (f s) := by
  induction h with
  | nil => exact .nil
  | snoc hrun hr ih =>
    unfold Lib.seen
    rw [List.map_append]
    exact .snoc ih (hstep _ _ _ _ hrun ih hr)

/-- What is the same on both sides of every step that meets `K` is the same at the end of a run of such steps. -/
theorem frame (I : σ → Prop) (K : Step σ ε → Prop) (φ : σ → γ) (h₀ : I s₀) (hI : ∀ s e s', I s → R s e s' → I s')
    (hφ : ∀ s e s', I s → R s e s' → K ⟨s, e, s'⟩ → φ s' = φ s) (h : Run R s₀ tr s) (hK : ∀ st ∈ tr, K st) : φ s = φ s₀ := by
  induction h with
  | nil => rfl
  | snoc hrun hr ih =>
    have hlast := hφ _ _ _ (hrun.inv I h₀ hI) hr (hK _ (by simp))
    rw [hlast]
    exact ih fun st hst => hK st (by simp [hst])

end Run

end Lib
