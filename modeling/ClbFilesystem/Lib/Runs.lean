import Mathlib.Data.List.Induction
/-!
# Runs of a transition system

A system is a step relation `R s e s'`. A `Run` lists its steps, each with the
states around it, so that a property of a history can look back at any step. The
rules are the ones whole-run results are built from: an invariant, a value
carried along the history, and a property that certain steps alone break.
-/

namespace Lib

structure Step (σ ε : Type) where
  pre : σ
  event : ε
  post : σ

variable {σ ε γ : Type} {R : σ → ε → σ → Prop} {s₀ s : σ} {tr : List (Step σ ε)}

/-- The runs from `s₀`: the steps made, and the state after them. -/
inductive Run (R : σ → ε → σ → Prop) (s₀ : σ) : List (Step σ ε) → σ → Prop
  | nil : Run R s₀ [] s₀
  | snoc {tr s e s'} : Run R s₀ tr s → R s e s' → Run R s₀ (tr ++ [⟨s, e, s'⟩]) s'

namespace Run

/-- What every step keeps holds after every run. -/
theorem inv (I : σ → Prop) (h₀ : I s₀) (hstep : ∀ s e s', I s → R s e s' → I s') (h : Run R s₀ tr s) : I s := by
  induction h with
  | nil => exact h₀
  | snoc _ hr ih => exact hstep _ _ _ ih hr

/-- A rank that no step raises, and that marked steps lower, bounds how many of those there are. -/
theorem rank (I : σ → Prop) (rank : σ → Nat) (mark : Step σ ε → Bool) (h₀ : I s₀)
    (hstep : ∀ s e s', I s → R s e s' → I s' ∧ rank s' + (if mark ⟨s, e, s'⟩ then 1 else 0) ≤ rank s) (h : Run R s₀ tr s) :
    I s ∧ tr.countP mark + rank s ≤ rank s₀ := by
  induction h with
  | nil => exact ⟨h₀, by simp⟩
  | snoc _ hr ih =>
    obtain ⟨hinv, hle⟩ := hstep _ _ _ ih.1 hr
    refine ⟨hinv, ?_⟩
    rw [List.countP_append, List.countP_singleton]
    omega

/-- A value folded along the history stays related to the state. -/
theorem history (g₀ : γ) (next : γ → Step σ ε → γ) (P : γ → σ → Prop) (h₀ : P g₀ s₀)
    (hstep : ∀ tr g s e s', Run R s₀ tr s → P g s → R s e s' → P (next g ⟨s, e, s'⟩) s') (h : Run R s₀ tr s) :
    P (tr.foldl next g₀) s := by
  induction h with
  | nil => exact h₀
  | snoc hrun hr ih =>
    rw [List.foldl_append]
    exact hstep _ _ _ _ _ hrun ih hr

/-- Every step of a run starts where a prefix of the run ends. -/
theorem of_mem (h : Run R s₀ tr s) : ∀ st ∈ tr, ∃ tr', Run R s₀ tr' st.pre ∧ R st.pre st.event st.post := by
  induction h with
  | nil => simp
  | @snoc tr s e s' hrun hr ih =>
    intro st hst
    rcases List.mem_append.1 hst with hst | hst
    · exact ih st hst
    · obtain rfl := List.mem_singleton.1 hst
      exact ⟨tr, hrun, hr⟩

/-- A run whose steps all meet `K` is a run of the steps that do. -/
theorem restrict (h : Run R s₀ tr s) (K : Step σ ε → Prop) (hK : ∀ st ∈ tr, K st) :
    Run (fun s e s' => R s e s' ∧ K ⟨s, e, s'⟩) s₀ tr s := by
  induction h with
  | nil => exact .nil
  | snoc hrun hr ih => exact .snoc (ih fun st hst => hK st (by simp [hst])) ⟨hr, hK _ (by simp)⟩

theorem inversion (h : Run R s₀ tr s) :
    tr = [] ∧ s = s₀ ∨ ∃ tr' u e, tr = tr' ++ [⟨u, e, s⟩] ∧ Run R s₀ tr' u ∧ R u e s := by
  cases h with
  | nil => exact .inl ⟨rfl, rfl⟩
  | snoc hrun hr => exact .inr ⟨_, _, _, rfl, hrun, hr⟩

/-- The last step of a run is made after the others, and the run ends where it does. -/
theorem of_snoc {st : Step σ ε} (h : Run R s₀ (tr ++ [st]) s) :
    Run R s₀ tr st.pre ∧ R st.pre st.event st.post ∧ s = st.post := by
  rcases h.inversion with ⟨hnil, -⟩ | ⟨tr', u, e, heq, hrun, hr⟩
  · simp at hnil
  · obtain ⟨rfl, hst⟩ := List.append_inj' heq rfl
    obtain rfl := (List.cons.inj hst).1
    exact ⟨hrun, hr, rfl⟩

/-- If `P` holds where runs begin, and each step keeps it exactly when it meets `K`, then it holds all along a run
if and only if all steps of the run meet `K`. Both may look at the history before. -/
theorem forall_prefix_iff {B : σ → Prop} (P : List (Step σ ε) → σ → Prop) (K : List (Step σ ε) → Step σ ε → Prop)
    (h₀ : ∀ s₀, B s₀ → P [] s₀) (hstep : ∀ tr s₀ s e s', B s₀ → Run R s₀ tr s → P tr s → R s e s' →
      (P (tr ++ [⟨s, e, s'⟩]) s' ↔ K tr ⟨s, e, s'⟩)) (hB : B s₀) (h : Run R s₀ tr s) :
    (∀ tr' s₁ s', tr' <+: tr → B s₁ → Run R s₁ tr' s' → P tr' s') ↔ ∀ tr' st, tr' ++ [st] <+: tr → K tr' st := by
  induction h with
  | nil =>
    constructor
    · intro _ tr' st hp
      simp at hp
    · intro _ tr' s₁ s' hp hB₁ hr
      obtain rfl := List.prefix_nil.1 hp
      rcases hr.inversion with ⟨-, rfl⟩ | ⟨_, _, _, hnil, -⟩
      · exact h₀ _ hB₁
      · simp at hnil
  | @snoc tr s e s' hrun hr ih =>
    -- The last step is judged by the states on its two sides, the steps before by the induction.
    have hlast : (∀ tr' s₁ s', tr' <+: tr → B s₁ → Run R s₁ tr' s' → P tr' s') →
        (P (tr ++ [⟨s, e, s'⟩]) s' ↔ K tr ⟨s, e, s'⟩) :=
      fun hprev => hstep _ _ _ _ _ hB hrun (hprev _ _ _ (List.prefix_refl _) hB hrun) hr
    constructor
    · intro hall tr' st hp
      have hprev : ∀ tr' s₁ s', tr' <+: tr → B s₁ → Run R s₁ tr' s' → P tr' s' :=
        fun tr' s₁ t hp' => hall tr' s₁ t (hp'.trans (List.prefix_append _ _))
      rcases List.prefix_concat_iff.1 hp with heq | hp'
      · obtain ⟨rfl, hst⟩ := List.append_inj' heq rfl
        obtain rfl := (List.cons.inj hst).1
        exact (hlast hprev).1 (hall _ _ _ (List.prefix_refl _) hB (hrun.snoc hr))
      · exact ih.1 hprev tr' st hp'
    · intro hall tr' s₁ t hp hB₁ ht
      have hprev := ih.2 fun tr' st hp' => hall tr' st (hp'.trans (List.prefix_append _ _))
      rcases List.prefix_concat_iff.1 hp with rfl | hp'
      · obtain rfl := ht.of_snoc.2.2
        exact (hlast hprev).2 (hall _ _ (List.prefix_refl _))
      · exact hprev tr' s₁ t hp' hB₁ ht

/-- The same, for a property of states and a condition on single steps. -/
theorem forall_states_iff {B : σ → Prop} (P : σ → Prop) (K : Step σ ε → Prop) (h₀ : ∀ s₀, B s₀ → P s₀)
    (hstep : ∀ tr s₀ s e s', B s₀ → Run R s₀ tr s → P s → R s e s' → (P s' ↔ K ⟨s, e, s'⟩)) (hB : B s₀) (h : Run R s₀ tr s) :
    (∀ tr' s₁ s', tr' <+: tr → B s₁ → Run R s₁ tr' s' → P s') ↔ ∀ st ∈ tr, K st := by
  rw [h.forall_prefix_iff (fun _ => P) (fun _ => K) h₀ hstep hB]
  constructor
  · intro hall st hst
    obtain ⟨tr₁, tr₂, rfl⟩ := List.append_of_mem hst
    exact hall tr₁ st ⟨tr₂, by simp⟩
  · intro hall tr' st hp
    exact hall st (hp.subset (by simp))

/-! ## Runs in pieces -/

theorem append {u : σ} {tl : List (Step σ ε)} (h : Run R s₀ tr u) (htl : Run R u tl s) : Run R s₀ (tr ++ tl) s := by
  induction htl with
  | nil => simpa using h
  | snoc _ hr ih =>
    rw [← List.append_assoc]
    exact ih.snoc hr

theorem split {tl : List (Step σ ε)} (h : Run R s₀ (tr ++ tl) s) : ∃ u, Run R s₀ tr u ∧ Run R u tl s := by
  induction tl using List.reverseRecOn generalizing s with
  | nil => exact ⟨s, by simpa using h, .nil⟩
  | append_singleton tl st ih =>
    rw [← List.append_assoc] at h
    obtain ⟨hrun, hr, rfl⟩ := h.of_snoc
    obtain ⟨u, hu, htl⟩ := ih hrun
    exact ⟨u, hu, htl.snoc hr⟩

/-- The first step of a run is made where the run begins. -/
theorem of_cons {st : Step σ ε} (h : Run R s₀ (st :: tr) s) : s₀ = st.pre ∧ R st.pre st.event st.post ∧ Run R st.post tr s := by
  have h : Run R s₀ ([st] ++ tr) s := h
  obtain ⟨u, hu, htl⟩ := h.split
  have hu : Run R s₀ ([] ++ [st]) u := hu
  obtain ⟨hnil, hr, rfl⟩ := hu.of_snoc
  rcases hnil.inversion with ⟨-, heq⟩ | ⟨_, _, _, hne, -⟩
  · exact ⟨heq.symm, hr, htl⟩
  · simp at hne

/-- What a step begins and the steps after it keep holds up to any later step. -/
theorem between {l mid r : List (Step σ ε)} {st₁ st₂ : Step σ ε} (h : Run R s₀ (l ++ st₁ :: (mid ++ st₂ :: r)) s) (P : σ → Prop)
    (h₁ : R st₁.pre st₁.event st₁.post → P st₁.post)
    (hstep : ∀ st ∈ mid, P st.pre → R st.pre st.event st.post → P st.post) : P st₂.pre := by
  obtain ⟨_, -, htl⟩ := h.split
  obtain ⟨-, hr₁, htl⟩ := htl.of_cons
  obtain ⟨u, hmid, htl⟩ := htl.split
  obtain ⟨rfl, -, -⟩ := htl.of_cons
  have hkeep := hmid.restrict (fun st => P st.pre → P st.post) fun st hst hP => by
    obtain ⟨_, -, hr⟩ := hmid.of_mem st hst
    exact hstep st hst hP hr
  exact hkeep.inv P (h₁ hr₁) fun _ _ _ hs hr => hr.2 hs

end Run

end Lib
