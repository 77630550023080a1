import ClbFilesystem.Select
/-!
# Which task runs next

As long as the counters fit the `int` the scan keeps them in, `_schedule` refills
once at most and takes the first of the running tasks with the greatest counter,
or the first task if all the counters are negative. No priority is ever changed,
and no counter gets past what a refill can leave.
-/

namespace ClbFilesystem

open Lib

/-- The first task runs, every task has a priority, and no more time than a refill can leave it. -/
structure Paced (k : Kernel) : Prop where
  first : ∃ p, k.Runnable ⟨0, by decide⟩ p
  priority : ∀ i p, k.task i = some p → 1 ≤ (k.task_struct p).priority
  counter : ∀ i p, k.task i = some p → (k.task_struct p).counter ≤ 2 * (k.task_struct p).priority - 1

/-- No priority is too large for the counter to fit an `int`. -/
def Kernel.Modest (k : Kernel) : Prop := ∀ i p, k.task i = some p → (k.task_struct p).priority ≤ 2 ^ 30

/-- A running task: the first one with the greatest counter if that is not negative, the first task otherwise. -/
structure Kernel.Chosen (k : Kernel) (i : Fin NR_TASKS) (p : TaskPtr) : Prop where
  runnable : k.Runnable i p
  greatest : (∃ j q, k.Runnable j q ∧ 0 ≤ (k.task_struct q).counter) → k.Greatest i p
  first : (∀ j q, k.Runnable j q → (k.task_struct q).counter < 0) → i.val = 0

/-- `_schedule` ends its loop after one refill at most, and switches to the task chosen. -/
def Kernel.Chooses (k : Kernel) : Prop := ∃ k₁ i p, (k₁ = preempt_disable k ∨ k₁ = refill (preempt_disable k)) ∧
  select 2 (preempt_disable k) = .ok (i, k₁) ∧ k₁.Chosen i p ∧
  _schedule k = .ok (preempt_enable (switch_to p k₁)) ∧ (preempt_enable (switch_to p k₁)).current = p

/-! ## The choice -/

section Choice
variable {k k' : Kernel}

theorem Paced.short (h : Paced k) (hm : k.Modest) : k.Short := by
  intro i p hp
  have hcount := h.counter i p hp
  have hprio := hm i p hp
  omega

theorem Paced.scan_chosen (h : Paced k) (hm : k.Modest) : ∃ p, k.Chosen (scan k).2 p := by
  have hge := fun i p => scan_ge (h.short hm) (i := i) (p := p)
  rcases scan_found (h.short hm) with heq | ⟨p, hp, hc⟩
  · obtain ⟨p, hp⟩ := h.first
    rw [heq] at hge ⊢
    refine ⟨p, hp, ?_, fun _ => rfl⟩
    rintro ⟨j, q, hq, h0⟩
    have hle : (k.task_struct q).counter ≤ -1 := hge j q hq
    omega
  · refine ⟨p, hp.runnable, fun _ => hp, fun hneg => ?_⟩
    have hlt := hneg _ p hp.runnable
    omega

end Choice

/-! ## Tables that keep to it -/

section Paced
variable {k k' : Kernel}

theorem Paced.keep (h : Paced k) (hp : Paces k k') (htask : k'.task = k.task)
    (hfirst : ∀ p, k.Runnable ⟨0, by decide⟩ p → (k'.task_struct p).state = .RUNNING) : Paced k' := by
  refine ⟨?_, fun i p hi => ?_, fun i p hi => ?_⟩
  · obtain ⟨p, hrun⟩ := h.first
    exact ⟨p, by rw [htask]; exact hrun.1, hfirst p hrun⟩
  · rw [(hp p).1]
    exact h.priority i p (htask ▸ hi)
  · have hcount := h.counter i p (htask ▸ hi)
    have hle := (hp p).2 (h.priority i p (htask ▸ hi))
    rw [(hp p).1]
    omega

theorem Kernel.Modest.keep (hm : k.Modest) (hp : Paces k k') (htask : k'.task = k.task) : k'.Modest := by
  intro i p hi
  rw [(hp p).1]
  exact hm i p (htask ▸ hi)

theorem SameButCounters.state (h : SameButCounters k k') (q : TaskPtr) :
    (k'.task_struct q).state = (k.task_struct q).state := by
  obtain ⟨c, hc⟩ := h.task_struct q
  rw [hc]

theorem Scheduled.state (h : Scheduled k k') (q : TaskPtr) : (k'.task_struct q).state = (k.task_struct q).state := by
  obtain ⟨c, hc⟩ := h.task_struct q
  rw [hc]

theorem preempt_disable_state (k : Kernel) (q : TaskPtr) :
    ((preempt_disable k).task_struct q).state = (k.task_struct q).state := by
  unfold preempt_disable
  rw [Kernel.modTask_task_struct]
  split <;> rfl

theorem preempt_enable_state (k : Kernel) (q : TaskPtr) : ((preempt_enable k).task_struct q).state = (k.task_struct q).state := by
  unfold preempt_enable
  rw [Kernel.modTask_task_struct]
  split <;> rfl

theorem Paced.disable (h : Paced k) : Paced (preempt_disable k) :=
  h.keep (.preempt_disable k) rfl fun p hp => by rw [preempt_disable_state]; exact hp.2

theorem Paced.refill (h : Paced k) : Paced (refill k) :=
  h.keep (.refill k) (SameButCounters.refill k).task fun p hp => by rw [(SameButCounters.refill k).state]; exact hp.2

/-- The loop ends on a table that chooses. -/
theorem Paced.chooses_next (h : Paced k) (hm : k.Modest) : k.Chooses := by
  have h₁ := h.disable
  have hm₁ := hm.keep (.preempt_disable k) rfl
  have hm₂ := hm₁.keep (.refill _) (SameButCounters.refill _).task
  obtain ⟨k₁, hor, -, hselect⟩ := select_two (h₁.short hm₁) (h₁.refill.short hm₂) h₁.priority
  obtain ⟨p, hp⟩ : ∃ p, k₁.Chosen (scan k₁).2 p := by
    rcases hor with rfl | rfl
    · exact h₁.scan_chosen hm₁
    · exact h₁.refill.scan_chosen hm₂
  refine ⟨k₁, (scan k₁).2, p, hor, hselect 0, hp, ?_, ?_⟩
  · rw [_schedule_eq, hselect 126, ok_bind]
    simp only [hp.runnable.1]
  · show (switch_to p k₁).current = p
    unfold switch_to
    split
    · next heq => exact heq
    · rfl

/-- A call of the scheduler keeps the pace and the array, and every state but that of a task that exits. -/
theorem exec_paces {c : KernelCall} {r : Option Int} (hc : ∀ clone_flags fn arg, c ≠ .copy_process clone_flags fn arg)
    (hex : c.exec k = .ok (r, k')) : Paces k k' ∧ k'.task = k.task ∧
      ∀ q, (c = .exit_process → q ≠ k.current) → (k'.task_struct q).state = (k.task_struct q).state := by
  cases c with
  | schedule =>
    obtain ⟨k₁, hcall, h₁⟩ := map_ok hex
    cases h₁
    have hs := schedule_spec hcall
    exact ⟨.schedule hcall, hs.task, fun q _ => hs.state q⟩
  | timer_tick =>
    obtain ⟨k₁, hcall, h₁⟩ := map_ok hex
    cases h₁
    refine ⟨.timer_tick hcall, ?_⟩
    rcases timer_tick_spec hcall with hs | hs
    · exact ⟨hs.task, fun q _ => hs.state q⟩
    · exact ⟨hs.task, fun q _ => hs.state q⟩
  | exit_process =>
    obtain ⟨k₁, hcall, h₁⟩ := map_ok hex
    cases h₁
    have hs := schedule_spec hcall
    obtain ⟨-, -, htask, -⟩ := zombie_spec k _ rfl
    refine ⟨.exit_process hcall, hs.task.trans htask, fun q hq => ?_⟩
    have hne : q ≠ (preempt_disable k).current := hq rfl
    rw [hs.state, preempt_enable_state]
    unfold markZombie
    split
    · rw [Kernel.modTask_task_struct, if_neg hne]
      exact preempt_disable_state k q
    · exact preempt_disable_state k q
  | copy_process clone_flags fn arg => exact absurd rfl (hc clone_flags fn arg)

/-- A new task has the priority of the one that forks, and that much time. -/
theorem Paced.forked (ht : TaskInv k) (h : Paced k) (hm : k.Modest) {j : Fin PAGING_PAGES} {i : Fin NR_TASKS}
    (hj : k.mem_map j = 0) (hi : i.val = k.nr_tasks) (hf : Forked k k' j i) : Paced k' ∧ k'.Modest := by
  obtain ⟨m, hcur⟩ := ht.current
  have hprio := hf.priority (ht.current_ne hj)
  have hpos := h.priority m _ hcur
  have hmodest := hm m _ hcur
  have hold : ∀ n p, k'.task n = some p → p = .page (pageAddr j) ∨ k.task n = some p ∧ k'.task_struct p = k.task_struct p := by
    intro n p hp
    by_cases hpj : p = .page (pageAddr j)
    · exact .inl hpj
    · refine .inr ⟨?_, hf.others p hpj⟩
      rw [hf.task, Function.update_apply] at hp
      split at hp
      · cases hp
        exact absurd rfl hpj
      · exact hp
  refine ⟨⟨⟨.init_task, (ht.forked hj hi hf).first, ?_⟩, fun n p hp => ?_, fun n p hp => ?_⟩, fun n p hp => ?_⟩
  · obtain ⟨p, hp, hrun⟩ := h.first
    cases ht.first.symm.trans hp
    rw [hf.others _ (by simp)]
    exact hrun
  · rcases hold n p hp with rfl | ⟨hp, heq⟩
    · rw [hprio]
      exact hpos
    · rw [heq]
      exact h.priority n p hp
  · rcases hold n p hp with rfl | ⟨hp, heq⟩
    · rw [hf.counter]
      omega
    · rw [heq]
      exact h.counter n p hp
  · rcases hold n p hp with rfl | ⟨hp, heq⟩
    · rw [hprio]
      exact hmodest
    · rw [heq]
      exact hm n p hp

/-- The first task does not exit in the step. -/
def FirstStays (st : Step Kernel KernelEvent) : Prop :=
  ∀ r, st.event = .call .exit_process r → st.pre.task ⟨0, NR_TASKS_pos⟩ ≠ some st.pre.current

theorem Paced.next (ht : TaskInv k) (h : Paced k) (hm : k.Modest) {e : KernelEvent} (hn : KernelNext k e k')
    (hstay : FirstStays ⟨k, e, k'⟩) : Paced k' ∧ k'.Modest := by
  cases hn with
  | other hle =>
    have hpaces : Paces k _ := fun q => ⟨rfl, fun _ => le_max_left _ _⟩
    exact ⟨h.keep hpaces rfl fun p hp => hp.2, hm.keep hpaces rfl⟩
  | @call c r _ hex =>
    by_cases hc : ∀ clone_flags fn arg, c ≠ .copy_process clone_flags fn arg
    · obtain ⟨hpaces, htask, hstate⟩ := exec_paces hc hex
      refine ⟨h.keep hpaces htask fun p hp => ?_, hm.keep hpaces htask⟩
      rw [hstate p]
      · exact hp.2
      · rintro rfl rfl
        exact hstay r rfl hp.1
    · obtain ⟨clone_flags, fn, arg, rfl⟩ : ∃ clone_flags fn arg, c = .copy_process clone_flags fn arg := by
        simpa only [ne_eq, not_forall, not_not] using hc
      obtain ⟨⟨pid, k₁⟩, hcall, h₁⟩ := map_ok hex
      cases h₁
      have hdis : TaskInv (preempt_disable k) := ht.keep (Mm.Le.refl _) rfl rfl ht.current
      have hm₁ := hm.keep (.preempt_disable k) rfl
      rcases copy_process_spec hcall with ⟨-, -, rfl⟩ | ⟨j, i, k₂, hj, hi, -, hf, rfl⟩
      · exact ⟨h.disable, hm₁⟩
      · obtain ⟨h₂, hm₂⟩ := h.disable.forked hdis hm₁ hj hi hf
        exact ⟨h₂.keep (.preempt_enable k₂) rfl fun p hp => by rw [preempt_enable_state]; exact hp.2,
          hm₂.keep (.preempt_enable k₂) rfl⟩

theorem Paced.run (ht : TaskInv k) (h : Paced k) (hm : k.Modest) {tr : List (Step Kernel KernelEvent)}
    (hrun : Run KernelNext k tr k') (hstay : ∀ st ∈ tr, FirstStays st) : Paced k' ∧ k'.Modest := by
  have hinv := (hrun.restrict FirstStays hstay).inv (fun k => TaskInv k ∧ Paced k ∧ k.Modest) ⟨ht, h, hm⟩
    fun k e k' hk hn => ⟨hk.1.next hn.1, Paced.next hk.1 hk.2.1 hk.2.2 hn.1 hn.2⟩
  exact hinv.2

/-- `_schedule` chooses in every table whose counters fit an `int`, and every run of the kernel from there, in which the
first task does not exit, keeps to such tables. -/
theorem Paced.chooses (h : Paced k) (hm : k.Modest) : k.Chooses ∧
    ∀ tr k', TaskInv k → Run KernelNext k tr k' → (∀ st ∈ tr, FirstStays st) → Paced k' ∧ k'.Modest :=
  ⟨h.chooses_next hm, fun _ _ ht hrun hstay => h.run ht hm hrun hstay⟩

end Paced

theorem Paced.boot (mm : Mm) : Paced (bootKernel mm) ∧ (bootKernel mm).Modest := by
  refine ⟨⟨⟨.init_task, rfl, rfl⟩, fun i p h => ?_, fun i p h => ?_⟩, fun i p h => ?_⟩ <;> rw [(bootKernel_task h).2]
  · exact (by decide : (1 : Int) ≤ 15)
  · exact (by decide : (0 : Int) ≤ 29)
  · exact (by decide : (15 : Int) ≤ 2 ^ 30)

/-- With a kernel thread made at boot beside the first task, and again after a tick. -/
theorem chooses_two : ∃ k k', k.nr_tasks = 2 ∧ k.Chooses ∧ timer_tick k = .ok k' ∧ Paced k' ∧ k'.Modest := by
  have hpages : 0 < (bootKernel ⟨fun _ => 0, fun _ => 0⟩).toMm.free := by
    rw [Nat.pos_iff_ne_zero]
    exact fun hfree => Mm.free_eq_zero.1 hfree ⟨0, by decide⟩ rfl
  obtain ⟨k, hfork, -, hnr⟩ := copy_process_kthread hpages (by decide)
  have hruns : KernelRuns _ k := ⟨_, Run.nil.snoc (.call hfork)⟩
  obtain ⟨h₀, hm₀⟩ := Paced.boot ⟨fun _ => 0, fun _ => 0⟩
  obtain ⟨h, hm⟩ := (Paced.chooses h₀ hm₀).2 _ k (TaskInv.boot _) (Run.nil.snoc (.call hfork)) (by
    intro st hst r hevent
    obtain rfl := List.mem_singleton.1 hst
    cases hevent)
  obtain ⟨hchooses, hkeeps⟩ := Paced.chooses h hm
  obtain ⟨k', htick, -⟩ := timer_tick_returns hruns.taskInv hruns.timed
  have hex : KernelCall.timer_tick.exec k = .ok (none, k') := by
    rw [KernelCall.exec, htick]
    rfl
  refine ⟨k, k', hnr, hchooses, htick, hkeeps _ _ hruns.taskInv (Run.nil.snoc (.call hex)) fun st hst r hevent => ?_⟩
  obtain rfl := List.mem_singleton.1 hst
  cases hevent

/-- Two tasks; the counter of the first is 1 as an `int`. -/
def wideCounter : Kernel where
  toMm := ⟨fun _ => 0, fun _ => 0⟩
  task_struct p := if p = .init_task then { INIT_TASK with priority := 2 ^ 31 + 1, counter := 2 ^ 32 + 1 }
    else { INIT_TASK with counter := 5 }
  pt_regs _ := .zero
  task i := if i.val = 0 then some .init_task else if i.val = 1 then some (.page (pageAddr 0)) else none
  nr_tasks := 2
  current := .init_task

/-- A counter that is no `int` is not taken for the greatest. -/
theorem chooses_fails : ¬ ∀ k, Paced k → k.Chooses := by
  intro hall
  have htask : ∀ i p, wideCounter.task i = some p → p = .init_task ∨ p = .page (pageAddr 0) := by
    intro i p h
    simp only [wideCounter] at h
    split at h
    · cases h
      exact .inl rfl
    · split at h
      · cases h
        exact .inr rfl
      · cases h
  have hpaced : Paced wideCounter := by
    refine ⟨⟨.init_task, rfl, rfl⟩, fun i p h => ?_, fun i p h => ?_⟩ <;> rcases htask i p h with rfl | rfl <;> decide
  obtain ⟨k₁, i, p, -, hselect, hchosen, -⟩ := hall _ hpaced
  have hscan : scan (preempt_disable wideCounter) = (5, ⟨1, by decide⟩) := by decide +kernel
  rw [select_found 1 (by rw [hscan]; decide), hscan] at hselect
  cases hselect
  have hgreatest := hchosen.greatest ⟨⟨0, by decide⟩, .init_task, ⟨rfl, rfl⟩, by decide +kernel⟩
  have hp : p = .page (pageAddr 0) := Option.some.inj (hchosen.runnable.1.symm.trans rfl)
  have hle := hgreatest.max ⟨0, by decide⟩ .init_task ⟨rfl, rfl⟩
  rw [hp] at hle
  exact absurd hle (by decide +kernel)

end ClbFilesystem
