import ClbFilesystem.Entries
import ClbFilesystem.Sched
/-!
# What the calls of the scheduler do

One lemma for each function: what it does to the task array, to `current` and to
the fields of the tasks it does not leave alone. No page is ever freed, so the
page of a new task is that of no other.
-/

namespace ClbFilesystem

/-! ## The scheduler -/

/-- The tasks of `k'` are those of `k`, some counters apart. -/
structure SameButCounters (k k' : Kernel) : Prop where
  mm : k'.toMm = k.toMm
  pt_regs : k'.pt_regs = k.pt_regs
  task : k'.task = k.task
  nr_tasks : k'.nr_tasks = k.nr_tasks
  current : k'.current = k.current
  task_struct : ∀ q, ∃ c, k'.task_struct q = { k.task_struct q with counter := c }

namespace SameButCounters

variable {k k' k'' : Kernel}

theorem refl (k : Kernel) : SameButCounters k k := ⟨rfl, rfl, rfl, rfl, rfl, fun q => ⟨(k.task_struct q).counter, rfl⟩⟩

theorem trans (h : SameButCounters k k') (h' : SameButCounters k' k'') : SameButCounters k k'' := by
  refine ⟨h'.mm.trans h.mm, h'.pt_regs.trans h.pt_regs, h'.task.trans h.task, h'.nr_tasks.trans h.nr_tasks,
    h'.current.trans h.current, fun q => ?_⟩
  obtain ⟨c, hc⟩ := h.task_struct q
  obtain ⟨c', hc'⟩ := h'.task_struct q
  exact ⟨c', by rw [hc', hc]⟩

theorem modCounter (k : Kernel) (p : TaskPtr) (f : TaskStruct → Int) :
    SameButCounters k (k.modTask p fun t => { t with counter := f t }) := by
  refine ⟨rfl, rfl, rfl, rfl, rfl, fun q => ?_⟩
  rw [Kernel.modTask_task_struct]
  split
  · exact ⟨_, rfl⟩
  · exact ⟨(k.task_struct q).counter, rfl⟩

theorem refill (k : Kernel) : SameButCounters k (refill k) := by
  unfold ClbFilesystem.refill
  induction List.finRange NR_TASKS generalizing k with
  | nil => exact refl k
  | cons i l ih =>
    refine trans ?_ (ih _)
    unfold refillTask
    split
    · exact modCounter ..
    · exact refl k

theorem select {n : Nat} {next : Fin NR_TASKS} (h : select n k = .ok (next, k')) : SameButCounters k k' := by
  induction n generalizing k with
  | zero => cases h
  | succ n ih =>
    unfold ClbFilesystem.select at h
    split at h
    split at h
    · cases h
      exact refl k'
    · exact (refill k).trans (ih h)

end SameButCounters

/-- What `_schedule` leaves: another task of the array is current, or the same, the one switched from has been
disabled and the one switched to enabled. -/
structure Scheduled (k k' : Kernel) : Prop where
  mm : k'.toMm = k.toMm
  pt_regs : k'.pt_regs = k.pt_regs
  task : k'.task = k.task
  nr_tasks : k'.nr_tasks = k.nr_tasks
  current : ∃ i, k.task i = some k'.current
  task_struct : ∀ q, ∃ c, k'.task_struct q = { k.task_struct q with
    counter := c
    preempt_count := (k.task_struct q).preempt_count + (if q = k.current then 1 else 0) - (if q = k'.current then 1 else 0) }

section Scheduler
variable {k k' k'' : Kernel}

theorem SameButCounters.scheduled (h : SameButCounters k k') (h' : Scheduled k' k'') : Scheduled k k'' := by
  refine ⟨h'.mm.trans h.mm, h'.pt_regs.trans h.pt_regs, h'.task.trans h.task, h'.nr_tasks.trans h.nr_tasks, ?_, fun q => ?_⟩
  · rw [← h.task]
    exact h'.current
  · obtain ⟨c, hc⟩ := h.task_struct q
    obtain ⟨c', hc'⟩ := h'.task_struct q
    exact ⟨c', by rw [hc', hc, h.current]⟩

theorem _schedule_spec (h : _schedule k = .ok k') : Scheduled k k' := by
  unfold _schedule at h
  obtain ⟨⟨next, k₁⟩, hselect, h⟩ := bind_ok h
  have hsame := SameButCounters.select hselect
  cases hp : k₁.task next with
  | none => simp only [hp] at h; cases h
  | some p =>
    simp only [hp] at h
    cases h
    have hcurrent : (switch_to p k₁).current = p := by
      unfold switch_to
      split
      · next heq => exact heq
      · rfl
    have hswitch : ∀ q, (switch_to p k₁).task_struct q = k₁.task_struct q := by
      intro q
      unfold switch_to
      split <;> rfl
    have hrest : (switch_to p k₁).toMm = k₁.toMm ∧ (switch_to p k₁).pt_regs = k₁.pt_regs ∧ (switch_to p k₁).task = k₁.task ∧
        (switch_to p k₁).nr_tasks = k₁.nr_tasks := by
      unfold switch_to
      split <;> exact ⟨rfl, rfl, rfl, rfl⟩
    obtain ⟨hmm, hregs, htask, hnr⟩ := hrest
    refine ⟨hmm.trans hsame.mm, hregs.trans hsame.pt_regs, htask.trans hsame.task, hnr.trans hsame.nr_tasks,
      ⟨next, ?_⟩, fun q => ?_⟩
    · show k.task next = some (switch_to p k₁).current
      rw [hcurrent, ← hp, hsame.task]
      rfl
    · obtain ⟨c, hc⟩ := hsame.task_struct q
      refine ⟨c, ?_⟩
      have hcur : (preempt_enable (switch_to p k₁)).current = p := hcurrent
      rw [hcur]
      unfold preempt_enable
      rw [Kernel.modTask_task_struct, hswitch, hc, hcurrent]
      unfold preempt_disable
      rw [Kernel.modTask_task_struct]
      split <;> split <;> simp

theorem schedule_spec (h : schedule k = .ok k') : Scheduled k k' :=
  (SameButCounters.modCounter k k.current fun _ => 0).scheduled (_schedule_spec h)

/-- A tick counts down, and goes to the scheduler or not. -/
theorem timer_tick_spec (h : timer_tick k = .ok k') : SameButCounters k k' ∨ Scheduled k k' := by
  unfold timer_tick at h
  have hdown := SameButCounters.modCounter k k.current fun t => t.counter - 1
  simp only at h
  split at h
  · cases h
    exact .inl hdown
  · exact .inr (hdown.scheduled ((SameButCounters.modCounter _ _ fun _ => 0).scheduled (_schedule_spec h)))

/-- Before it goes to the scheduler `exit_process` has changed one state; the zombie keeps its slot. -/
theorem zombie_spec (k : Kernel) : ∀ k₁, k₁ = preempt_enable (markZombie (preempt_disable k)) →
    k₁.toMm = k.toMm ∧ k₁.pt_regs = k.pt_regs ∧ k₁.task = k.task ∧ k₁.nr_tasks = k.nr_tasks ∧ k₁.current = k.current ∧
    ∀ q, ∃ st, k₁.task_struct q = { k.task_struct q with state := st } := by
  rintro _ rfl
  unfold markZombie
  split
  · refine ⟨rfl, rfl, rfl, rfl, rfl, fun q => ?_⟩
    unfold preempt_enable preempt_disable
    simp only [Kernel.modTask_task_struct, Kernel.modTask_current]
    split
    · exact ⟨.ZOMBIE, by simp⟩
    · exact ⟨(k.task_struct q).state, rfl⟩
  · refine ⟨rfl, rfl, rfl, rfl, rfl, fun q => ?_⟩
    unfold preempt_enable preempt_disable
    simp only [Kernel.modTask_task_struct, Kernel.modTask_current]
    split
    · exact ⟨(k.task_struct q).state, by simp⟩
    · exact ⟨(k.task_struct q).state, rfl⟩

theorem exit_process_spec (h : exit_process k = .ok k') : ∃ k₁, Scheduled k₁ k' ∧ k₁.toMm = k.toMm ∧ k₁.pt_regs = k.pt_regs ∧
    k₁.task = k.task ∧ k₁.nr_tasks = k.nr_tasks ∧ k₁.current = k.current ∧
    ∀ q, ∃ st, k₁.task_struct q = { k.task_struct q with state := st } :=
  ⟨_, schedule_spec h, zombie_spec k _ rfl⟩

end Scheduler

/-! ## `copy_process` -/

/-- What `copyBody` leaves when it finds page `j` for the new task, and slot `i`. -/
structure Forked (k k' : Kernel) (j : Fin PAGING_PAGES) (i : Fin NR_TASKS) : Prop where
  alloc : allocate_kernel_page k.toMm = (pageAddr j, k.toMm.take j)
  le : k.toMm.Le k'.toMm
  used : k'.mem_map j ≠ 0
  task : k'.task = Function.update k.task i (some (.page (pageAddr j)))
  nr_tasks : k'.nr_tasks = k.nr_tasks + 1
  current : k'.current = k.current
  others : ∀ q, q ≠ .page (pageAddr j) → k'.task_struct q = k.task_struct q
  state : (k'.task_struct (.page (pageAddr j))).state = .RUNNING
  preempt_count : (k'.task_struct (.page (pageAddr j))).preempt_count = 1
  counter : (k'.task_struct (.page (pageAddr j))).counter = (k'.task_struct (.page (pageAddr j))).priority
  priority : k.current ≠ .page (pageAddr j) →
    (k'.task_struct (.page (pageAddr j))).priority = (k.task_struct k.current).priority

section Fork
variable {k k' : Kernel} {clone_flags fn arg : Nat}

theorem startTask_spec {p : TaskPtr} (h : startTask clone_flags fn arg p k = .ok k') :
    k.toMm.Le k'.toMm ∧ k'.task = k.task ∧ k'.nr_tasks = k.nr_tasks ∧ k'.current = k.current ∧
      ∀ q, q ≠ p → k'.task_struct q = k.task_struct q := by
  unfold startTask at h
  split at h
  · cases h
    exact ⟨Mm.Le.refl _, rfl, rfl, rfl, fun q hq => by simp [hq]⟩
  · obtain ⟨⟨r, mm_struct, mm⟩, hcopy, h⟩ := bind_ok h
    cases h
    exact ⟨copyLoop_le hcopy, rfl, rfl, rfl, fun q hq => by simp [hq]⟩

theorem publish_spec {p : TaskPtr} {pid : Int} (h : publish clone_flags p k = .ok (pid, k')) : ∃ i : Fin NR_TASKS,
    i.val = k.nr_tasks ∧ pid = k.nr_tasks ∧ k'.toMm = k.toMm ∧ k'.task = Function.update k.task i (some p) ∧
    k'.nr_tasks = k.nr_tasks + 1 ∧ k'.current = k.current ∧
    ∀ q, k'.task_struct q = if q = p then
      { k.task_struct p with
        flags := clone_flags, priority := (k.task_struct k.current).priority, state := .RUNNING
        counter := (k.task_struct k.current).priority, preempt_count := 1
        cpu_context := { (k.task_struct p).cpu_context with pc := some .ret_from_fork, sp := some p } }
      else k.task_struct q := by
  unfold publish at h
  obtain ⟨i, hi, h⟩ := bind_ok h
  cases h
  unfold taskIndex at hi
  split at hi
  · cases hi
    refine ⟨_, rfl, rfl, rfl, rfl, rfl, rfl, fun q => ?_⟩
    simp only [Kernel.modTask_task_struct]
    split
    · next hq => rw [hq]
    · rfl
  · cases hi

/-- Without a page nothing is done; with one there is a new task, in the next slot. -/
theorem copyBody_spec {r : Option Int} (h : copyBody clone_flags fn arg k = .ok (r, k')) :
    (∀ i, k.mem_map i ≠ 0) ∧ r = none ∧ k' = k ∨
    ∃ j i, k.mem_map j = 0 ∧ i.val = k.nr_tasks ∧ r = some (k.nr_tasks : Int) ∧ Forked k k' j i := by
  unfold copyBody at h
  rcases allocate_kernel_page_cases k.toMm with ⟨j, hj, halloc⟩ | ⟨hused, halloc⟩
  · rw [halloc] at h
    simp only [if_neg (pageAddr_ne_zero j)] at h
    obtain ⟨k₁, hstart, h⟩ := bind_ok h
    obtain ⟨⟨pid, k₂⟩, hpub, h⟩ := bind_ok h
    cases h
    obtain ⟨hle, htask, hnr, hcur, hothers⟩ := startTask_spec hstart
    obtain ⟨i, hi, hpid, hmm, htask', hnr', hcur', hts⟩ := publish_spec hpub
    have hnr₁ : k₁.nr_tasks = k.nr_tasks := hnr
    have hcur₁ : k₁.current = k.current := hcur
    have hle₂ : (k.toMm.take j).Le k₂.toMm := by
      rw [hmm]
      exact hle
    refine .inr ⟨j, i, hj, hi.trans hnr₁, by rw [hpid, hnr₁], ?_⟩
    have hchild := hts (.page (pageAddr j))
    rw [if_pos rfl] at hchild
    refine ⟨halloc, (Mm.le_take _ j).trans hle₂, hle₂ j (Mm.take_used _ j), ?_, ?_, hcur'.trans hcur₁, fun q hq => ?_, ?_, ?_, ?_, ?_⟩
    · rw [htask', htask]
      rfl
    · rw [hnr', hnr₁]
    · rw [hts, if_neg hq, hothers q hq, Kernel.freshTask_task_struct, if_neg hq]
    · rw [hchild]
    · rw [hchild]
    · rw [hchild]
    · intro hne
      rw [hchild]
      simp only [hcur₁]
      rw [hothers _ hne, Kernel.freshTask_task_struct, if_neg hne]
  · rw [halloc] at h
    cases h
    exact .inl ⟨hused, rfl, rfl⟩

theorem publish_returns (clone_flags : Nat) (p : TaskPtr) (k : Kernel) :
    k.nr_tasks < NR_TASKS ∧ (∃ k', publish clone_flags p k = .ok (k.nr_tasks, k') ∧ k'.toMm = k.toMm) ∨
    NR_TASKS ≤ k.nr_tasks ∧ publish clone_flags p k = .error .outOfBounds := by
  have hpub : publish clone_flags p k = (taskIndex k.nr_tasks).bind _ := rfl
  rw [hpub]
  unfold taskIndex
  by_cases h : k.nr_tasks < NR_TASKS
  · rw [dif_pos h]
    exact .inl ⟨h, _, rfl, rfl⟩
  · rw [dif_neg h]
    exact .inr ⟨by omega, rfl⟩

/-- With a page, `copyBody` goes on to its memory and to its slot. -/
theorem copyBody_page {j : Fin PAGING_PAGES} (halloc : allocate_kernel_page k.toMm = (pageAddr j, k.toMm.take j)) :
    copyBody clone_flags fn arg k = (startTask clone_flags fn arg (.page (pageAddr j))
      ({ k with toMm := k.toMm.take j }.freshTask (.page (pageAddr j)))).bind fun k =>
        (publish clone_flags (.page (pageAddr j)) k).bind fun r => .ok (some r.1, r.2) := by
  unfold copyBody
  rw [halloc]
  exact if_neg (pageAddr_ne_zero j)

theorem publish_pt_regs {p : TaskPtr} {r : Int × Kernel} (h : publish clone_flags p k = .ok r) : r.2.pt_regs = k.pt_regs := by
  unfold publish at h
  obtain ⟨i, -, h⟩ := bind_ok h
  cases h
  rfl

/-- With a page and its memory copied the new task gets the next slot, if there is one; nothing checks that. -/
theorem copyBody_returns {j : Fin PAGING_PAGES} {k₁ : Kernel} (halloc : allocate_kernel_page k.toMm = (pageAddr j, k.toMm.take j))
    (hstart : startTask clone_flags fn arg (.page (pageAddr j)) ({ k with toMm := k.toMm.take j }.freshTask (.page (pageAddr j))) = .ok k₁) :
    k.nr_tasks < NR_TASKS ∧ (∃ k', copyBody clone_flags fn arg k = .ok (some (k.nr_tasks : Int), k') ∧ k'.toMm = k₁.toMm) ∨
    NR_TASKS ≤ k.nr_tasks ∧ copyBody clone_flags fn arg k = .error .outOfBounds := by
  have hnr : k₁.nr_tasks = k.nr_tasks := (startTask_spec hstart).2.2.1
  rw [copyBody_page halloc, hstart, ok_bind]
  rcases publish_returns clone_flags (.page (pageAddr j)) k₁ with ⟨hlt, k', hpub, hmm⟩ | ⟨hle, hpub⟩
  · exact .inl ⟨hnr ▸ hlt, k', by rw [hpub, ok_bind, ← hnr], hmm⟩
  · exact .inr ⟨hnr ▸ hle, by rw [hpub, error_bind]⟩

/-- A kernel thread has no memory to copy. -/
theorem startTask_kthread (h : clone_flags &&& PF_KTHREAD ≠ 0) (fn arg : Nat) (p : TaskPtr) (k : Kernel) :
    ∃ k₁, startTask clone_flags fn arg p k = .ok k₁ ∧ k₁.toMm = k.toMm := by
  unfold startTask
  rw [if_pos h]
  exact ⟨_, rfl, rfl⟩

/-- A copy: the saved registers of the new task go to the current one, and its memory is a matter of `copy_virt_memory`. -/
theorem startTask_user (fn arg : Nat) (h : clone_flags &&& PF_KTHREAD = 0) {p : TaskPtr} {r : Int} {mm_struct : MmStruct} {mm : Mm}
    (hcopy : copy_virt_memory (k.task_struct k.current).mm (k.task_struct p).mm k.toMm = .ok (r, mm_struct, mm)) :
    ∃ k₁, startTask clone_flags fn arg p k = .ok k₁ ∧ k₁.toMm = mm ∧ k₁.task_struct p = { k.task_struct p with mm := mm_struct } ∧
      (∀ q, q ≠ p → k₁.pt_regs q = if q = k.current then k.pt_regs p else k.pt_regs q) ∧
      k₁.pt_regs p = { k.pt_regs p with regs := Function.update (k.pt_regs p).regs 0 0 } := by
  have hstart : startTask clone_flags fn arg p k =
      (copy_virt_memory (k.task_struct k.current).mm (k.task_struct p).mm k.toMm).bind _ := if_neg (not_not.2 h)
  rw [hstart, hcopy]
  refine ⟨_, rfl, rfl, ?_, fun q hq => ?_, ?_⟩
  · simp
  · simp only [Kernel.modTask_pt_regs, Function.update_of_ne hq, Function.update_apply]
  · simp only [Kernel.modTask_pt_regs, Function.update_self, Function.update_apply]
    split <;> rfl

theorem startTask_user_error (fn arg : Nat) (h : clone_flags &&& PF_KTHREAD = 0) {p : TaskPtr} {e : Fault}
    (hcopy : copy_virt_memory (k.task_struct k.current).mm (k.task_struct p).mm k.toMm = .error e) :
    startTask clone_flags fn arg p k = .error e := by
  have hstart : startTask clone_flags fn arg p k =
      (copy_virt_memory (k.task_struct k.current).mm (k.task_struct p).mm k.toMm).bind _ := if_neg (not_not.2 h)
  rw [hstart, hcopy, error_bind]

theorem copy_virt_memory_none {src dst : MmStruct} {mm : Mm} (h : src.user_pages_count = 0) :
    copy_virt_memory src dst mm = .ok (0, dst, mm) := by
  unfold copy_virt_memory copyLoop
  rw [h, if_neg (Nat.lt_irrefl 0)]

/-- Without a page the exit of `copy_process` skips `preempt_enable`. -/
theorem copy_process_starved (h : ∀ i, k.mem_map i ≠ 0) : copy_process clone_flags fn arg k = .ok (-1, preempt_disable k) := by
  have halloc : allocate_kernel_page k.toMm = (0, k.toMm) := by
    rcases allocate_kernel_page_cases k.toMm with ⟨i, hi, -⟩ | ⟨-, halloc⟩
    · exact absurd hi (h i)
    · exact halloc
  have hbody : copyBody clone_flags fn arg (preempt_disable k) = .ok (none, preempt_disable k) := by
    unfold copyBody
    have halloc : allocate_kernel_page (preempt_disable k).toMm = (0, (preempt_disable k).toMm) := halloc
    rw [halloc]
    rfl
  unfold copy_process
  rw [hbody]
  rfl

end Fork

end ClbFilesystem
