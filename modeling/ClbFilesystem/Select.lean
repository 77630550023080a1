import ClbFilesystem.Preemption
/-!
# The choice of the scheduler

The scan finds the greatest counter of a running task, and the refill makes every
counter that is not negative positive. So `_schedule` goes round its loop twice
at most, and in a run of the kernel no call of the scheduler fails.
-/

namespace ClbFilesystem

open Lib

/-! ## The scan -/

section Scan
variable {k : Kernel}

/-- One turn of the scan. -/
def scanStep (k : Kernel) (x : Int × Fin NR_TASKS) (i : Fin NR_TASKS) : Int × Fin NR_TASKS :=
  if k.better x.1 i then (k.counterOf i, i) else x

theorem scan_eq (k : Kernel) : scan k = (List.finRange NR_TASKS).foldl (scanStep k) (-1, ⟨0, by decide⟩) := rfl

theorem better_iff {c : Int} {i : Fin NR_TASKS} : k.better c i = true ↔
    ∃ p, k.task i = some p ∧ (k.task_struct p).state = .RUNNING ∧ c < (k.task_struct p).counter := by
  unfold Kernel.better
  split <;> simp_all

/-- The counters fit an `int`. -/
def Kernel.Short (k : Kernel) : Prop := ∀ i p, k.task i = some p → (k.task_struct p).counter < 2 ^ 31

theorem Kernel.Short.counterOf_eq (h : k.Short) {i : Fin NR_TASKS} {p : TaskPtr} (hi : k.task i = some p)
    (hp : 0 ≤ (k.task_struct p).counter) : k.counterOf i = (k.task_struct p).counter := by
  have hlt := h i p hi
  unfold Kernel.counterOf
  simp only [hi, toInt]
  omega

/-- A running task of the array. -/
def Kernel.Runnable (k : Kernel) (i : Fin NR_TASKS) (p : TaskPtr) : Prop := k.task i = some p ∧ (k.task_struct p).state = .RUNNING

/-- The first of the running tasks with the greatest counter. -/
structure Kernel.Greatest (k : Kernel) (i : Fin NR_TASKS) (p : TaskPtr) : Prop where
  runnable : k.Runnable i p
  max : ∀ j q, k.Runnable j q → (k.task_struct q).counter ≤ (k.task_struct p).counter
  first : ∀ j q, k.Runnable j q → j < i → (k.task_struct q).counter < (k.task_struct p).counter

/-- No task seen in the scan has a greater counter than the one found, which is that of the first such task seen. -/
theorem foldl_scanStep (h : k.Short) {l : List (Fin NR_TASKS)} (hl : l.Pairwise (· < ·)) (x : Int × Fin NR_TASKS) (hx : -1 ≤ x.1) :
    x.1 ≤ (l.foldl (scanStep k) x).1 ∧
    (∀ i ∈ l, ∀ p, k.Runnable i p → (k.task_struct p).counter ≤ (l.foldl (scanStep k) x).1) ∧
    (l.foldl (scanStep k) x = x ∨ x.1 < (l.foldl (scanStep k) x).1 ∧
      (∃ p, k.Runnable (l.foldl (scanStep k) x).2 p ∧ (k.task_struct p).counter = (l.foldl (scanStep k) x).1) ∧
      ∀ i ∈ l, ∀ p, k.Runnable i p → i < (l.foldl (scanStep k) x).2 → (k.task_struct p).counter < (l.foldl (scanStep k) x).1) := by
  induction l generalizing x with
  | nil => exact ⟨le_refl _, by simp, .inl rfl⟩
  | cons i l ih =>
    rw [List.pairwise_cons] at hl
    rw [List.foldl_cons]
    by_cases hb : k.better x.1 i = true
    · have hstep : scanStep k x i = (k.counterOf i, i) := if_pos hb
      obtain ⟨p, hp, hrun, hlt⟩ := better_iff.1 hb
      have hc := h.counterOf_eq hp (by omega)
      obtain ⟨hge, hall, hfound⟩ := ih hl.2 (scanStep k x i) (by rw [hstep]; show -1 ≤ k.counterOf i; omega)
      rw [hstep] at hge hall hfound ⊢
      have hown : ∀ q, k.Runnable i q → (k.task_struct q).counter = k.counterOf i := by
        intro q hq
        obtain rfl : p = q := Option.some.inj (hp.symm.trans hq.1)
        exact hc.symm
      simp only at hge hfound
      refine ⟨by omega, fun j hj q hq => ?_, .inr ?_⟩
      · rcases List.mem_cons.1 hj with rfl | hj
        · rw [hown q hq]
          exact hge
        · exact hall j hj q hq
      · rcases hfound with heq | ⟨hgt, hfound, hfirst⟩
        · rw [heq]
          refine ⟨by simp only; omega, ⟨p, ⟨hp, hrun⟩, hc.symm⟩, fun j hj q _ hlt => ?_⟩
          rcases List.mem_cons.1 hj with rfl | hj
          · exact absurd hlt (lt_irrefl _)
          · exact absurd hlt (hl.1 j hj).asymm
        · refine ⟨by omega, hfound, fun j hj q hq hlt => ?_⟩
          rcases List.mem_cons.1 hj with rfl | hj
          · rw [hown q hq]
            exact hgt
          · exact hfirst j hj q hq hlt
    · have hstep : scanStep k x i = x := if_neg hb
      rw [hstep]
      obtain ⟨hge, hall, hfound⟩ := ih hl.2 x hx
      have hown : ∀ q, k.Runnable i q → (k.task_struct q).counter ≤ x.1 := by
        intro q hq
        by_contra hlt
        exact hb (better_iff.2 ⟨q, hq.1, hq.2, not_le.1 hlt⟩)
      refine ⟨hge, fun j hj q hq => ?_, hfound.imp_right fun ⟨hgt, hfound, hfirst⟩ => ⟨hgt, hfound, fun j hj q hq hlt => ?_⟩⟩
      · rcases List.mem_cons.1 hj with rfl | hj
        · exact (hown q hq).trans hge
        · exact hall j hj q hq
      · rcases List.mem_cons.1 hj with rfl | hj
        · exact (hown q hq).trans_lt hgt
        · exact hfirst j hj q hq hlt

theorem scan_ge (h : k.Short) {i : Fin NR_TASKS} {p : TaskPtr} (hp : k.Runnable i p) : (k.task_struct p).counter ≤ (scan k).1 := by
  rw [scan_eq]
  exact (foldl_scanStep h (List.pairwise_lt_finRange _) _ le_rfl).2.1 i (List.mem_finRange i) p hp

/-- Either no running task has a counter from 0 on, or the scan finds the first with the greatest. -/
theorem scan_found (h : k.Short) : scan k = (-1, ⟨0, by decide⟩) ∨
    ∃ p, k.Greatest (scan k).2 p ∧ (k.task_struct p).counter = (scan k).1 ∧ 0 ≤ (scan k).1 := by
  have hge := fun i p => scan_ge (k := k) h (i := i) (p := p)
  rw [scan_eq] at hge ⊢
  rcases (foldl_scanStep h (List.pairwise_lt_finRange _) (-1, ⟨0, by decide⟩) le_rfl).2.2 with heq | ⟨hgt, ⟨p, hrun, hc⟩, hfirst⟩
  · exact .inl heq
  · refine .inr ⟨p, ⟨hrun, fun j q hq => ?_, fun j q hq hlt => ?_⟩, hc, hgt⟩
    · rw [hc]
      exact hge j q hq
    · rw [hc]
      exact hfirst j (List.mem_finRange j) q hq hlt

end Scan

/-! ## The refill -/

section Refill
variable {k : Kernel}

theorem shiftRight_one (c : Int) : c >>> (1 : Nat) = c / 2 := by
  rw [Int.shiftRight_eq_div_pow]
  rfl

theorem refillTask_task (k : Kernel) (i : Fin NR_TASKS) : (refillTask k i).task = k.task := by
  unfold refillTask
  split <;> rfl

theorem refillTask_task_struct (k : Kernel) (i : Fin NR_TASKS) (q : TaskPtr) : (refillTask k i).task_struct q =
    if k.task i = some q then
      { k.task_struct q with counter := (k.task_struct q).counter / 2 + (k.task_struct q).priority }
    else k.task_struct q := by
  unfold refillTask
  cases hp : k.task i with
  | none => rw [if_neg (by simp)]
  | some p =>
    rw [Kernel.modTask_task_struct, shiftRight_one]
    by_cases hq : q = p
    · rw [if_pos hq, if_pos (by rw [hq])]
    · rw [if_neg hq, if_neg fun h => hq (Option.some.inj h).symm]

/-- A refill leaves a counter that has not grown, or one below twice the priority. -/
theorem refillTask_le (k : Kernel) (i : Fin NR_TASKS) (q : TaskPtr) : ((refillTask k i).task_struct q).counter ≤
    max (k.task_struct q).counter (2 * (k.task_struct q).priority - 1) := by
  rw [refillTask_task_struct]
  split
  · show _ / 2 + _ ≤ _
    omega
  · exact le_max_left _ _

theorem refillTask_priority (k : Kernel) (i : Fin NR_TASKS) (q : TaskPtr) :
    ((refillTask k i).task_struct q).priority = (k.task_struct q).priority := by
  rw [refillTask_task_struct]
  split <;> rfl

/-- A counter that is not negative stays so, and is positive once it has had its turn. -/
theorem refillTask_pos {i j : Fin NR_TASKS} {q : TaskPtr} (hq : k.task j = some q) (hprio : 1 ≤ (k.task_struct q).priority)
    (h0 : 0 ≤ (k.task_struct q).counter) : 0 ≤ ((refillTask k i).task_struct q).counter ∧
    (i = j ∨ 0 < (k.task_struct q).counter → 0 < ((refillTask k i).task_struct q).counter) := by
  rw [refillTask_task_struct]
  split
  · constructor
    · show (0 : Int) ≤ _ / 2 + _
      omega
    · intro _
      show (0 : Int) < _ / 2 + _
      omega
  · next hne =>
    refine ⟨h0, fun hor => hor.resolve_left ?_⟩
    rintro rfl
    exact hne hq

/-- After the refill a task with a counter from 0 on has some time. -/
theorem refill_pos {k : Kernel} {i : Fin NR_TASKS} {q : TaskPtr} (hq : k.task i = some q)
    (hprio : 1 ≤ (k.task_struct q).priority) (h0 : 0 ≤ (k.task_struct q).counter) : 0 < ((refill k).task_struct q).counter := by
  have hfold : ∀ (l : List (Fin NR_TASKS)) (k : Kernel), k.task i = some q → 1 ≤ (k.task_struct q).priority →
      0 ≤ (k.task_struct q).counter → i ∈ l ∨ 0 < (k.task_struct q).counter →
      0 < ((l.foldl refillTask k).task_struct q).counter := by
    intro l
    induction l with
    | nil =>
      intro k _ _ _ hor
      exact hor.resolve_left (by simp)
    | cons m l ih =>
      intro k hq hprio h0 hor
      obtain ⟨hge, hturn⟩ := refillTask_pos (i := m) hq hprio h0
      refine ih _ (by rw [refillTask_task]; exact hq) (by rw [refillTask_priority]; exact hprio) hge ?_
      rcases hor with hm | hlt
      · rcases List.mem_cons.1 hm with rfl | hm
        · exact .inr (hturn (.inl rfl))
        · exact .inl hm
      · exact .inr (hturn (.inr hlt))
  exact hfold (List.finRange NR_TASKS) k hq hprio h0 (.inl (List.mem_finRange i))

/-- The refill leaves a counter that has not grown, or one below twice the priority. -/
theorem refill_le (k : Kernel) (q : TaskPtr) : ((refill k).task_struct q).priority = (k.task_struct q).priority ∧
    ((refill k).task_struct q).counter ≤ max (k.task_struct q).counter (2 * (k.task_struct q).priority - 1) := by
  unfold refill
  induction List.finRange NR_TASKS generalizing k with
  | nil => exact ⟨rfl, le_max_left _ _⟩
  | cons i l ih =>
    obtain ⟨hprio, hle⟩ := ih (refillTask k i)
    rw [refillTask_priority] at hprio hle
    exact ⟨hprio, hle.trans (max_le (refillTask_le k i q) (le_max_right _ _))⟩

end Refill

theorem _schedule_eq (k : Kernel) : _schedule k = (select 128 (preempt_disable k)).bind fun r =>
    match r.2.task r.1 with
    | none => .error .nullPointer
    | some p => .ok (preempt_enable (switch_to p r.2)) := rfl

/-! ## The pace of the counters -/

/-- No priority changes, and no counter gets past what a refill can leave. -/
def Paces (k k' : Kernel) : Prop := ∀ q, (k'.task_struct q).priority = (k.task_struct q).priority ∧
  (1 ≤ (k.task_struct q).priority →
    (k'.task_struct q).counter ≤ max (k.task_struct q).counter (2 * (k.task_struct q).priority - 1))

section Paces
variable {k k' k'' : Kernel}

theorem Paces.refl (k : Kernel) : Paces k k := fun _ => ⟨rfl, fun _ => le_max_left _ _⟩

theorem Paces.trans (h : Paces k k') (h' : Paces k' k'') : Paces k k'' := by
  intro q
  obtain ⟨hprio, hle⟩ := h q
  obtain ⟨hprio', hle'⟩ := h' q
  refine ⟨hprio'.trans hprio, fun hpos => ?_⟩
  rw [hprio] at hle'
  exact (hle' hpos).trans (max_le (hle hpos) (le_max_right _ _))

theorem Paces.modTask (k : Kernel) (p : TaskPtr) {f : TaskStruct → TaskStruct} (hf : ∀ t : TaskStruct,
    (f t).priority = t.priority ∧ (1 ≤ t.priority → (f t).counter ≤ max t.counter (2 * t.priority - 1))) :
    Paces k (k.modTask p f) := by
  intro q
  rw [Kernel.modTask_task_struct]
  split
  · exact hf _
  · exact Paces.refl k q

theorem Paces.preempt_disable (k : Kernel) : Paces k (preempt_disable k) := .modTask k _ fun _ => ⟨rfl, fun _ => le_max_left _ _⟩

theorem Paces.preempt_enable (k : Kernel) : Paces k (preempt_enable k) := .modTask k _ fun _ => ⟨rfl, fun _ => le_max_left _ _⟩

theorem Paces.stop (k : Kernel) (p : TaskPtr) : Paces k (k.modTask p fun t => { t with counter := 0 }) :=
  .modTask k p fun t => ⟨rfl, fun hpos => le_max_of_le_right (by show 0 ≤ 2 * t.priority - 1; omega)⟩

theorem Paces.refill (k : Kernel) : Paces k (refill k) := fun q => ⟨(refill_le k q).1, fun _ => (refill_le k q).2⟩

theorem Paces.select {n : Nat} {next : Fin NR_TASKS} (h : select n k = .ok (next, k')) : Paces k k' := by
  induction n generalizing k with
  | zero => cases h
  | succ n ih =>
    unfold ClbFilesystem.select at h
    split at h
    split at h
    · cases h
      exact refl k'
    · exact (refill k).trans (ih h)

theorem Paces.switch_to (p : TaskPtr) (k : Kernel) : Paces k (switch_to p k) := by
  unfold ClbFilesystem.switch_to
  split <;> exact refl k

theorem Paces._schedule (h : _schedule k = .ok k') : Paces k k' := by
  rw [_schedule_eq] at h
  obtain ⟨⟨next, k₁⟩, hselect, h⟩ := bind_ok h
  have hloop := (preempt_disable k).trans (select hselect)
  split at h
  · cases h
  · cases h
    exact hloop.trans ((switch_to _ k₁).trans (preempt_enable _))

theorem Paces.schedule (h : schedule k = .ok k') : Paces k k' := (stop k k.current).trans (_schedule h)

theorem Paces.down (k : Kernel) : Paces k (k.modTask k.current fun t => { t with counter := t.counter - 1 }) :=
  .modTask k _ fun t => ⟨rfl, fun _ => le_max_of_le_left (by show t.counter - 1 ≤ t.counter; omega)⟩

theorem Paces.timer_tick (h : timer_tick k = .ok k') : Paces k k' := by
  unfold ClbFilesystem.timer_tick at h
  simp only at h
  split at h
  · cases h
    exact down k
  · exact (down k).trans ((stop _ _).trans (_schedule h))

theorem Paces.zombie (k : Kernel) :
    Paces k (ClbFilesystem.preempt_enable (markZombie (ClbFilesystem.preempt_disable k))) := by
  have hmark : Paces (ClbFilesystem.preempt_disable k) (markZombie (ClbFilesystem.preempt_disable k)) := by
    unfold markZombie
    split
    · exact .modTask _ _ fun _ => ⟨rfl, fun _ => le_max_left _ _⟩
    · exact refl _
  exact (preempt_disable k).trans (hmark.trans (preempt_enable _))

theorem Paces.exit_process (h : exit_process k = .ok k') : Paces k k' := (zombie k).trans (schedule h)

end Paces

/-! ## `_schedule` returns -/

/-- Every task has the priority of the first, and what a refill can have left it of time. -/
structure Timed (k : Kernel) : Prop where
  priority : ∀ i p, k.task i = some p → (k.task_struct p).priority = 15
  counter : ∀ i p, k.task i = some p → (k.task_struct p).counter ≤ 30

section Timed
variable {k k' : Kernel}

theorem Timed.short (h : Timed k) : k.Short := fun i p hp => by
  have := h.counter i p hp
  omega

theorem Timed.keep (h : Timed k) (hp : Paces k k') (htask : k'.task = k.task) : Timed k' := by
  refine ⟨fun i p hi => ?_, fun i p hi => ?_⟩
  · rw [(hp p).1]
    exact h.priority i p (htask ▸ hi)
  · have hprio := h.priority i p (htask ▸ hi)
    have hcount := h.counter i p (htask ▸ hi)
    have hle := (hp p).2 (by omega)
    omega

theorem Timed.boot (mm : Mm) : Timed (bootKernel mm) := by
  refine ⟨fun i p h => ?_, fun i p h => ?_⟩ <;> rw [(bootKernel_task h).2]
  · rfl
  · exact (by decide : (0 : Int) ≤ 30)

theorem Timed.disable (h : Timed k) : Timed (preempt_disable k) := h.keep (.preempt_disable k) rfl

theorem Timed.stop (h : Timed k) : Timed (k.modTask k.current fun t => { t with counter := 0 }) := h.keep (.stop k k.current) rfl

theorem Timed.refill (h : Timed k) : Timed (refill k) := h.keep (.refill k) (SameButCounters.refill k).task

theorem select_found (n : Nat) (h : (scan k).1 ≠ 0) : select (n + 1) k = .ok ((scan k).2, k) := by
  simp only [select, ne_eq, if_pos h]

/-- Two turns of the loop are enough. -/
theorem select_two (h : k.Short) (h' : (refill k).Short) (hprio : ∀ i p, k.task i = some p → 1 ≤ (k.task_struct p).priority) :
    ∃ k₁, (k₁ = k ∨ k₁ = refill k) ∧ (scan k₁).1 ≠ 0 ∧ ∀ n, select (n + 2) k = .ok ((scan k₁).2, k₁) := by
  by_cases hc : (scan k).1 = 0
  · have hsame := SameButCounters.refill k
    -- The task found has a priority, so the refill gives it time.
    have hne : (scan (refill k)).1 ≠ 0 := by
      rcases scan_found h with heq | ⟨p, hp, hcount, -⟩
      · rw [heq] at hc
        cases hc
      · obtain ⟨htask, hrun⟩ := hp.runnable
        have hlt := refill_pos htask (hprio _ p htask) (by omega)
        have hrun' : (refill k).Runnable (scan k).2 p := by
          obtain ⟨c, hc⟩ := hsame.task_struct p
          refine ⟨by rw [hsame.task]; exact htask, ?_⟩
          rw [hc]
          exact hrun
        have hge := scan_ge h' hrun'
        omega
    refine ⟨refill k, .inr rfl, hne, fun n => ?_⟩
    rw [← select_found n hne]
    simp only [select, hc, ne_eq, not_true_eq_false, if_false]
  · exact ⟨k, .inl rfl, hc, fun n => select_found (n + 1) hc⟩

theorem select_returns (ht : TaskInv k) (h : Timed k) (n : Nat) :
    ∃ next k₁ p, select (n + 2) k = .ok (next, k₁) ∧ k₁.task next = some p := by
  obtain ⟨k₁, hor, -, hselect⟩ := select_two h.short h.refill.short fun i p hp => by rw [h.priority i p hp]; decide
  obtain ⟨h₁, htask⟩ : Timed k₁ ∧ k₁.task = k.task := by
    rcases hor with rfl | rfl
    · exact ⟨h, rfl⟩
    · exact ⟨h.refill, (SameButCounters.refill k).task⟩
  -- The slot found is not empty: that of the first task is not.
  obtain ⟨p, hp⟩ : ∃ p, k₁.task (scan k₁).2 = some p := by
    rcases scan_found h₁.short with heq | ⟨p, hp, -⟩
    · rw [heq, htask]
      exact ⟨_, ht.first⟩
    · exact ⟨p, hp.runnable.1⟩
  exact ⟨_, k₁, p, hselect n, hp⟩

theorem _schedule_returns (ht : TaskInv k) (h : Timed k) : ∃ k', _schedule k = .ok k' ∧ Timed k' := by
  have hdis : TaskInv (preempt_disable k) := ht.keep (Mm.Le.refl _) rfl rfl ht.current
  obtain ⟨next, k₁, p, hselect, hp⟩ := select_returns hdis h.disable 126
  have hcall : _schedule k = .ok (preempt_enable (switch_to p k₁)) := by
    rw [_schedule_eq, hselect, ok_bind]
    simp only [hp]
  exact ⟨_, hcall, h.keep (._schedule hcall) (_schedule_spec hcall).task⟩

theorem schedule_returns (ht : TaskInv k) (h : Timed k) : ∃ k', schedule k = .ok k' ∧ Timed k' :=
  _schedule_returns (ht.keep (Mm.Le.refl _) rfl rfl ht.current) h.stop

/-- The only task with time left is switched to. -/
theorem schedule_only (h : Timed k) {i : Fin NR_TASKS} {p : TaskPtr} (hp : k.task i = some p)
    (hrun : (k.task_struct p).state = .RUNNING) (hpos : 0 < (k.task_struct p).counter) (hne : p ≠ k.current)
    (hothers : ∀ j q, k.task j = some q → q ≠ p → q ≠ k.current → (k.task_struct q).counter ≤ 0) :
    ∃ k', schedule k = .ok k' ∧ k'.current = p ∧
      ∀ q, (k'.task_struct q).counter = if q = k.current then 0 else (k.task_struct q).counter := by
  obtain ⟨k₁, hk₁⟩ : ∃ k₁, k₁ = preempt_disable (k.modTask k.current fun t => { t with counter := 0 }) := ⟨_, rfl⟩
  have htimed : Timed k₁ := hk₁ ▸ h.stop.disable
  have htask : k₁.task = k.task := by rw [hk₁]; rfl
  have hcounter : ∀ q, (k₁.task_struct q).counter = if q = k.current then 0 else (k.task_struct q).counter := by
    intro q
    rw [hk₁, preempt_disable, Kernel.modTask_task_struct, Kernel.modTask_current, Kernel.modTask_task_struct]
    split <;> rfl
  have hstate : ∀ q, (k₁.task_struct q).state = (k.task_struct q).state := by
    intro q
    rw [hk₁, preempt_disable, Kernel.modTask_task_struct, Kernel.modTask_current, Kernel.modTask_task_struct]
    split <;> rfl
  have hge : (k.task_struct p).counter ≤ (scan k₁).1 := by
    have hrun₁ : k₁.Runnable i p := ⟨by rw [htask]; exact hp, (hstate p).trans hrun⟩
    have := scan_ge htimed.short hrun₁
    rwa [hcounter, if_neg hne] at this
  -- The task found has time left, so it is `p`.
  have hfound : k₁.task (scan k₁).2 = some p := by
    rcases scan_found htimed.short with heq | ⟨q, ⟨⟨hq, -⟩, -, -⟩, hc, -⟩
    · rw [heq] at hge
      simp only at hge
      omega
    · by_cases hqp : q = p
      · rw [← hqp]
        exact hq
      · rw [hcounter] at hc
        split at hc
        · omega
        · next hqc =>
          have := hothers _ q (htask ▸ hq) hqp hqc
          omega
  have hselect : select 128 k₁ = .ok ((scan k₁).2, k₁) := by
    have hc : (scan k₁).1 ≠ 0 := by omega
    exact select_found 127 hc
  refine ⟨preempt_enable (switch_to p k₁), ?_, ?_, fun q => ?_⟩
  · rw [schedule, _schedule_eq, ← hk₁, hselect, ok_bind]
    simp only [hfound]
  · show (switch_to p k₁).current = p
    unfold switch_to
    split
    · next heq => exact heq
    · rfl
  · have hsame : ((preempt_enable (switch_to p k₁)).task_struct q).counter = (k₁.task_struct q).counter := by
      unfold preempt_enable switch_to
      rw [Kernel.modTask_task_struct]
      split <;> split <;> rfl
    rw [hsame, hcounter]

theorem timer_tick_returns (ht : TaskInv k) (h : Timed k) : ∃ k', timer_tick k = .ok k' ∧ Timed k' := by
  have ht₁ : TaskInv (k.modTask k.current fun t => { t with counter := t.counter - 1 }) :=
    ht.keep (Mm.Le.refl _) rfl rfl ht.current
  have h₁ : Timed (k.modTask k.current fun t => { t with counter := t.counter - 1 }) := h.keep (.down k) rfl
  unfold timer_tick
  simp only
  split
  · exact ⟨_, rfl, h₁⟩
  · exact schedule_returns ht₁ h₁

theorem exit_process_returns (ht : TaskInv k) (h : Timed k) : ∃ k', exit_process k = .ok k' ∧ Timed k' := by
  obtain ⟨hmm, -, htask, hnr, hcur, -⟩ := zombie_spec k _ rfl
  exact schedule_returns (ht.keep (hmm ▸ Mm.Le.refl _) htask hnr (hcur ▸ ht.current)) (h.keep (.zombie k) htask)

/-- The calls that go to the scheduler return. -/
theorem exec_returns (ht : TaskInv k) (h : Timed k) {c : KernelCall} (hc : ∀ clone_flags fn arg, c ≠ .copy_process clone_flags fn arg) :
    ∃ r k', c.exec k = .ok (r, k') ∧ Timed k' := by
  cases c with
  | schedule =>
    obtain ⟨k', hcall, h'⟩ := schedule_returns ht h
    exact ⟨none, k', by rw [KernelCall.exec, hcall]; rfl, h'⟩
  | timer_tick =>
    obtain ⟨k', hcall, h'⟩ := timer_tick_returns ht h
    exact ⟨none, k', by rw [KernelCall.exec, hcall]; rfl, h'⟩
  | exit_process =>
    obtain ⟨k', hcall, h'⟩ := exit_process_returns ht h
    exact ⟨none, k', by rw [KernelCall.exec, hcall]; rfl, h'⟩
  | copy_process clone_flags fn arg => exact absurd rfl (hc clone_flags fn arg)

/-- A new task starts with the time and the priority of the one that forks. -/
theorem Timed.forked (h : Timed k) {j : Fin PAGING_PAGES} {i : Fin NR_TASKS} (hne : k.current ≠ .page (pageAddr j))
    (hcur : ∃ i, k.task i = some k.current) (hf : Forked k k' j i) : Timed k' := by
  obtain ⟨m, hm⟩ := hcur
  have hchild : (k'.task_struct (.page (pageAddr j))).priority = 15 := (hf.priority hne).trans (h.priority m _ hm)
  have hold : ∀ n p, k'.task n = some p → p ≠ .page (pageAddr j) → k.task n = some p := by
    intro n p hp hpj
    rw [hf.task, Function.update_apply] at hp
    split at hp
    · cases hp
      exact absurd rfl hpj
    · exact hp
  refine ⟨fun n p hp => ?_, fun n p hp => ?_⟩ <;> by_cases hpj : p = .page (pageAddr j)
  · rw [hpj]
    exact hchild
  · rw [hf.others p hpj]
    exact h.priority n p (hold n p hp hpj)
  · rw [hpj, hf.counter, hchild]
    decide
  · rw [hf.others p hpj]
    exact h.counter n p (hold n p hp hpj)

theorem Timed.next (ht : TaskInv k) (h : Timed k) {e : KernelEvent} (hn : KernelNext k e k') : Timed k' := by
  cases hn with
  | other hle => exact h.keep (fun _ => ⟨rfl, fun _ => le_max_left _ _⟩) rfl
  | @call c r _ hex =>
    by_cases hc : ∀ clone_flags fn arg, c ≠ .copy_process clone_flags fn arg
    · obtain ⟨r', k₁, hex', h₁⟩ := exec_returns ht h hc
      rw [hex'] at hex
      cases hex
      exact h₁
    · obtain ⟨clone_flags, fn, arg, rfl⟩ : ∃ clone_flags fn arg, c = .copy_process clone_flags fn arg := by
        simpa only [ne_eq, not_forall, not_not] using hc
      obtain ⟨⟨pid, k₁⟩, hcall, h₁⟩ := map_ok hex
      cases h₁
      rcases copy_process_spec hcall with ⟨-, -, rfl⟩ | ⟨j, i, k₂, hj, -, -, hf, rfl⟩
      · exact h.disable
      · have h₂ : Timed k₂ := h.disable.forked (ht.current_ne hj) ht.current hf
        exact h₂.keep (.preempt_enable k₂) rfl

end Timed

theorem KernelRuns.timed {tr : List (Step Kernel KernelEvent)} {k : Kernel} (h : KernelRuns tr k) : Timed k := by
  obtain ⟨mm, hrun⟩ := h
  have hinv := hrun.inv (fun k => TaskInv k ∧ Timed k) ⟨TaskInv.boot mm, Timed.boot mm⟩
    fun k e k' hk hn => ⟨hk.1.next hn, Timed.next hk.1 hk.2 hn⟩
  exact hinv.2

/-- In a run of the kernel the calls that go to the scheduler return. -/
theorem KernelRuns.returns {tr : List (Step Kernel KernelEvent)} {k : Kernel} (h : KernelRuns tr k) {c : KernelCall}
    (hc : ∀ clone_flags fn arg, c ≠ .copy_process clone_flags fn arg) : ∃ r k', c.exec k = .ok (r, k') := by
  obtain ⟨r, k', hex, -⟩ := exec_returns h.taskInv h.timed hc
  exact ⟨r, k', hex⟩

/-- A kernel thread takes one page, that of its task. -/
theorem copy_process_kthread {k : Kernel} (hfree : 0 < k.toMm.free) (hlt : k.nr_tasks < NR_TASKS) :
    ∃ k', (KernelCall.copy_process PF_KTHREAD 0 0).exec k = .ok (some (k.nr_tasks : Int), k') ∧
      k'.toMm.free + 1 = k.toMm.free ∧ k'.nr_tasks = k.nr_tasks + 1 := by
  have hsome : ¬ ∀ i, k.mem_map i ≠ 0 := fun h => hfree.ne' (Mm.free_eq_zero.2 h)
  obtain ⟨j, hj, halloc⟩ := (allocate_kernel_page_cases k.toMm).resolve_right fun h => hsome h.1
  obtain ⟨k₁, hstart, hmm₁⟩ := startTask_kthread kthread_flag 0 0 (.page (pageAddr j))
    ({ preempt_disable k with toMm := k.toMm.take j }.freshTask (.page (pageAddr j)))
  obtain ⟨-, k₂, hbody, hmm₂⟩ := (copyBody_returns (k := preempt_disable k) halloc hstart).resolve_right
    fun h => absurd h.1 (Nat.not_le.2 hlt)
  have hcopy : copy_process PF_KTHREAD 0 0 k = .ok (k.nr_tasks, preempt_enable k₂) := by
    unfold copy_process
    rw [hbody]
    rfl
  refine ⟨preempt_enable k₂, by rw [KernelCall.exec, hcopy]; rfl, ?_, ?_⟩
  · have hmm : (preempt_enable k₂).toMm = k.toMm.take j := hmm₂.trans hmm₁
    rw [hmm]
    exact Mm.free_take hj
  · rcases copyBody_spec hbody with ⟨-, hnone, -⟩ | ⟨_, _, -, -, -, hf⟩
    · cases hnone
    · exact hf.nr_tasks

end ClbFilesystem
