import ClbFilesystem.Lib.Runs
import ClbFilesystem.Tasks
/-!
# Preemption

A run of the kernel takes the four calls of the scheduler and of fork, by
whichever task is current, one after the other. Every `preempt_disable` is paid
back, by the same task or by the one switched to, with one exception: a
`copy_process` that finds no page returns before its `preempt_enable`, and the
timer never preempts that task again.
-/

namespace ClbFilesystem

open Lib

/-! ## Runs of the kernel -/

inductive KernelCall where
  | schedule
  | timer_tick
  | exit_process
  | copy_process (clone_flags fn arg : Nat)

/-- The call, with the pid it returns if it returns one. -/
def KernelCall.exec : KernelCall → Kernel → Except Fault (Option Int × Kernel)
  | .schedule, k => (ClbFilesystem.schedule k).map fun k => (none, k)
  | .timer_tick, k => (ClbFilesystem.timer_tick k).map fun k => (none, k)
  | .exit_process, k => (ClbFilesystem.exit_process k).map fun k => (none, k)
  | .copy_process clone_flags fn arg, k => (ClbFilesystem.copy_process clone_flags fn arg k).map fun r => (some r.1, r.2)

inductive KernelEvent where
  | call (c : KernelCall) (pid : Option Int)
  /-- Tasks work on memory, on their page tables and on their registers. -/
  | other

inductive KernelNext : Kernel → KernelEvent → Kernel → Prop
  | call {k c r k'} : c.exec k = .ok (r, k') → KernelNext k (.call c r) k'
  | other {k : Kernel} {mm : Mm} {pt_regs : TaskPtr → PtRegs} {mms : TaskPtr → MmStruct} : k.toMm.Le mm →
    KernelNext k .other { k with
      toMm := mm
      pt_regs := pt_regs
      task_struct := fun p => { k.task_struct p with mm := mms p } }

/-- A run of the kernel from boot, whatever pages are taken then. -/
def KernelRuns (tr : List (Step Kernel KernelEvent)) (k : Kernel) : Prop := ∃ mm, Run KernelNext (bootKernel mm) tr k

/-! ## The task array -/

/-- The slots below `nr_tasks` are filled, with different tasks, and the current one is among them. -/
structure TaskInv (k : Kernel) : Prop where
  first : k.task ⟨0, by decide⟩ = some .init_task
  filled : ∀ i, k.task i ≠ none ↔ i.val < k.nr_tasks
  distinct : ∀ i j p, k.task i = some p → k.task j = some p → i = j
  used : ∀ i a, k.task i = some (.page a) → ∃ j : Fin PAGING_PAGES, a = pageAddr j ∧ k.mem_map j ≠ 0
  current : ∃ i, k.task i = some k.current

theorem TaskInv.boot (mm : Mm) : TaskInv (bootKernel mm) := by
  refine ⟨rfl, fun i => ?_, fun i j p hi hj => Fin.ext ((bootKernel_task hi).1.trans (bootKernel_task hj).1.symm),
    fun i a h => ?_, ⟨⟨0, by decide⟩, rfl⟩⟩
  · show (if i.val = 0 then some TaskPtr.init_task else none) ≠ none ↔ i.val < 1
    split
    · next hi => simp [hi]
    · next hi =>
      simp only [ne_eq, not_true_eq_false, false_iff]
      omega
  · cases (bootKernel_task h).2

section TaskInv
variable {k k' : Kernel}

/-- The same slots, and no page given back. -/
theorem TaskInv.keep (h : TaskInv k) (hle : k.toMm.Le k'.toMm) (htask : k'.task = k.task) (hnr : k'.nr_tasks = k.nr_tasks)
    (hcur : ∃ i, k.task i = some k'.current) : TaskInv k' := by
  refine ⟨?_, ?_, ?_, ?_, ?_⟩
  · rw [htask]
    exact h.first
  · rw [htask, hnr]
    exact h.filled
  · rw [htask]
    exact h.distinct
  · intro i a hi
    rw [htask] at hi
    obtain ⟨j, hj, hused⟩ := h.used i a hi
    exact ⟨j, hj, hle j hused⟩
  · rw [htask]
    exact hcur

theorem TaskInv.scheduled (h : TaskInv k) (hs : Scheduled k k') : TaskInv k' :=
  h.keep (hs.mm ▸ Mm.Le.refl _) hs.task hs.nr_tasks hs.current

/-- A page just taken holds no task. -/
theorem TaskInv.fresh (h : TaskInv k) {j : Fin PAGING_PAGES} (hj : k.mem_map j = 0) (i : Fin NR_TASKS) :
    k.task i ≠ some (.page (pageAddr j)) := by
  intro hi
  obtain ⟨j', heq, hused⟩ := h.used i _ hi
  obtain rfl : j = j' := Fin.ext (pageAddr_inj heq)
  exact hused hj

theorem TaskInv.current_ne (h : TaskInv k) {j : Fin PAGING_PAGES} (hj : k.mem_map j = 0) : k.current ≠ .page (pageAddr j) := by
  obtain ⟨i, hi⟩ := h.current
  intro heq
  exact h.fresh hj i (heq ▸ hi)

theorem TaskInv.forked (h : TaskInv k) {j : Fin PAGING_PAGES} {i : Fin NR_TASKS} (hj : k.mem_map j = 0)
    (hi : i.val = k.nr_tasks) (hf : Forked k k' j i) : TaskInv k' := by
  have hnone : k.task i = none := by
    by_contra hne
    have := (h.filled i).1 hne
    omega
  have hold : ∀ m p, m ≠ i → (k'.task m = some p ↔ k.task m = some p) := by
    intro m p hm
    rw [hf.task, Function.update_of_ne hm]
  have hnew : k'.task i = some (.page (pageAddr j)) := by rw [hf.task, Function.update_self]
  refine ⟨?_, fun m => ?_, fun m m' p hm hm' => ?_, fun m a hm => ?_, ?_⟩
  · rw [hf.task, Function.update_of_ne]
    · exact h.first
    · rintro rfl
      rw [h.first] at hnone
      cases hnone
  · rw [hf.task, hf.nr_tasks, Function.update_apply]
    split
    · next hmi => simp [hmi, hi]
    · next hmi =>
      rw [h.filled]
      have : m.val ≠ k.nr_tasks := fun he => hmi (Fin.ext (he.trans hi.symm))
      omega
  · by_cases hmi : m = i <;> by_cases hmi' : m' = i
    · rw [hmi, hmi']
    · subst hmi
      rw [hnew] at hm
      cases hm
      exact absurd ((hold m' _ hmi').1 hm') (h.fresh hj m')
    · subst hmi'
      rw [hnew] at hm'
      cases hm'
      exact absurd ((hold m _ hmi).1 hm) (h.fresh hj m)
    · exact h.distinct m m' p ((hold m p hmi).1 hm) ((hold m' p hmi').1 hm')
  · by_cases hmi : m = i
    · subst hmi
      rw [hnew] at hm
      cases hm
      exact ⟨j, rfl, hf.used⟩
    · obtain ⟨j', hj', hused⟩ := h.used m a ((hold m _ hmi).1 hm)
      exact ⟨j', hj', hf.le j' hused⟩
  · obtain ⟨m, hm⟩ := h.current
    refine ⟨m, ?_⟩
    rw [hf.current, hf.task, Function.update_of_ne]
    · exact hm
    · rintro rfl
      rw [hm] at hnone
      cases hnone

theorem copy_process_spec {clone_flags fn arg : Nat} {pid : Int} (h : copy_process clone_flags fn arg k = .ok (pid, k')) :
    (∀ i, k.mem_map i ≠ 0) ∧ pid = -1 ∧ k' = preempt_disable k ∨
    ∃ j i k₁, k.mem_map j = 0 ∧ i.val = k.nr_tasks ∧ pid = k.nr_tasks ∧ Forked (preempt_disable k) k₁ j i ∧
      k' = preempt_enable k₁ := by
  unfold copy_process at h
  obtain ⟨⟨r, k₁⟩, hbody, h⟩ := bind_ok h
  rcases copyBody_spec hbody with ⟨hused, rfl, rfl⟩ | ⟨j, i, hj, hi, rfl, hf⟩
  · cases h
    exact .inl ⟨hused, rfl, rfl⟩
  · cases h
    exact .inr ⟨j, i, k₁, hj, hi, rfl, hf, rfl⟩

theorem TaskInv.exec (h : TaskInv k) {c : KernelCall} {r : Option Int} (hex : c.exec k = .ok (r, k')) : TaskInv k' := by
  cases c with
  | schedule =>
    obtain ⟨k₁, hcall, h₁⟩ := map_ok hex
    cases h₁
    exact h.scheduled (schedule_spec hcall)
  | timer_tick =>
    obtain ⟨k₁, hcall, h₁⟩ := map_ok hex
    cases h₁
    rcases timer_tick_spec hcall with hs | hs
    · exact h.keep (hs.mm ▸ Mm.Le.refl _) hs.task hs.nr_tasks (hs.current ▸ h.current)
    · exact h.scheduled hs
  | exit_process =>
    obtain ⟨k₁, hcall, h₁⟩ := map_ok hex
    cases h₁
    obtain ⟨k₂, hs, hmm, -, htask, hnr, hcur, -⟩ := exit_process_spec hcall
    have h₂ : TaskInv k₂ := h.keep (hmm ▸ Mm.Le.refl _) htask hnr (hcur ▸ h.current)
    exact h₂.scheduled hs
  | copy_process clone_flags fn arg =>
    obtain ⟨⟨pid, k₁⟩, hcall, h₁⟩ := map_ok hex
    cases h₁
    have hdis : TaskInv (preempt_disable k) := h.keep (Mm.Le.refl _) rfl rfl h.current
    rcases copy_process_spec hcall with ⟨-, -, rfl⟩ | ⟨j, i, k₂, hj, hi, -, hf, rfl⟩
    · exact hdis
    · have h₂ : TaskInv k₂ := hdis.forked hj hi hf
      exact h₂.keep (Mm.Le.refl _) rfl rfl h₂.current

theorem TaskInv.next (h : TaskInv k) {e : KernelEvent} (hn : KernelNext k e k') : TaskInv k' := by
  cases hn with
  | call hex => exact h.exec hex
  | other hle => exact h.keep hle rfl rfl h.current

end TaskInv

theorem KernelRuns.taskInv {tr : List (Step Kernel KernelEvent)} {k : Kernel} (h : KernelRuns tr k) : TaskInv k := by
  obtain ⟨mm, hrun⟩ := h
  exact hrun.inv TaskInv (TaskInv.boot mm) fun _ _ _ hk hn => hk.next hn

/-! ## The counts -/

/-- The current task can be preempted, and every other will be once it is switched to. -/
structure Balanced (k : Kernel) : Prop where
  current : (k.task_struct k.current).preempt_count = 0
  others : ∀ i p, k.task i = some p → p ≠ k.current → (k.task_struct p).preempt_count = 1

/-- Once its time is up, the timer preempts the current task. -/
def Preemptible (k : Kernel) : Prop := (k.task_struct k.current).counter ≤ 1 → timer_tick k = schedule k

/-- A `copy_process` made when all pages are taken. -/
def Starved (st : Step Kernel KernelEvent) : Prop :=
  (∃ clone_flags fn arg r, st.event = .call (.copy_process clone_flags fn arg) r) ∧ ∀ i, st.pre.mem_map i ≠ 0

section Balanced
variable {k k' : Kernel}

theorem Balanced.preemptible (h : Balanced k) : Preemptible k := by
  intro hcounter
  unfold timer_tick schedule
  have hcur := h.current
  have hdown : ¬ ((k.task_struct k.current).counter - 1 > 0 ∨ (k.task_struct k.current).preempt_count > 0) := by omega
  simp only [Kernel.modTask_current, Kernel.modTask_task_struct, if_true, if_neg hdown]
  congr 1
  simp [Kernel.modTask, Function.update_self, Function.update_idem]

theorem Balanced.boot (mm : Mm) : Balanced (bootKernel mm) := by
  exact ⟨rfl, fun i p hp hne => absurd (bootKernel_task hp).2 hne⟩

/-- The counts of the tasks are the same, and so is the one which is current. -/
theorem Balanced.keep (h : Balanced k) (htask : k'.task = k.task) (hcur : k'.current = k.current)
    (hcount : ∀ q, (k'.task_struct q).preempt_count = (k.task_struct q).preempt_count) : Balanced k' := by
  refine ⟨?_, fun i p hp hne => ?_⟩
  · rw [hcount, hcur]
    exact h.current
  · rw [htask] at hp
    rw [hcur] at hne
    rw [hcount]
    exact h.others i p hp hne

/-- A switch: the task left has a 1, which it pays back when it goes on, and the one entered has paid back its own. -/
theorem Balanced.scheduled (h : Balanced k) (hs : Scheduled k k') : Balanced k' := by
  have hcount : ∀ q, (k'.task_struct q).preempt_count =
      (k.task_struct q).preempt_count + (if q = k.current then 1 else 0) - (if q = k'.current then 1 else 0) := by
    intro q
    obtain ⟨c, hc⟩ := hs.task_struct q
    rw [hc]
  -- Before the switch the count with the task itself is 1 for each of them.
  have hone : ∀ i p, k.task i = some p → (k.task_struct p).preempt_count + (if p = k.current then 1 else 0) = 1 := by
    intro i p hp
    by_cases hcur : p = k.current
    · rw [if_pos hcur, hcur, h.current]
      rfl
    · rw [if_neg hcur, h.others i p hp hcur]
      rfl
  refine ⟨?_, fun i p hp hne => ?_⟩
  · obtain ⟨i, hi⟩ := hs.current
    rw [hcount, hone i _ hi, if_pos rfl]
    rfl
  · rw [hs.task] at hp
    rw [hcount, hone i p hp, if_neg hne]
    rfl

/-- A fork that finds a page pays back, and its child starts with the 1 of a task that was switched from. -/
theorem Balanced.forked (h : Balanced k) (ht : TaskInv k) {k₁ : Kernel} {j : Fin PAGING_PAGES} {i : Fin NR_TASKS}
    (hj : k.mem_map j = 0) (hf : Forked (preempt_disable k) k₁ j i) : Balanced (preempt_enable k₁) := by
  have hcur : k₁.current = k.current := hf.current
  have hne := ht.current_ne hj
  have hold : ∀ q, q ≠ .page (pageAddr j) →
      ((preempt_enable k₁).task_struct q).preempt_count = (k.task_struct q).preempt_count := by
    intro q hq
    unfold preempt_enable
    rw [Kernel.modTask_task_struct, hf.others q hq, hcur]
    unfold preempt_disable
    rw [Kernel.modTask_task_struct]
    split <;> simp
  refine ⟨?_, fun m p hp hpne => ?_⟩
  · have : (preempt_enable k₁).current = k.current := hcur
    rw [this, hold _ hne]
    exact h.current
  · have hpne : p ≠ k.current := fun he => hpne (he.trans hcur.symm)
    by_cases hpj : p = .page (pageAddr j)
    · subst hpj
      unfold preempt_enable
      rw [Kernel.modTask_task_struct, hcur, if_neg hpne]
      exact hf.preempt_count
    · rw [hold p hpj]
      have hp : k₁.task m = some p := hp
      rw [hf.task, Function.update_apply] at hp
      split at hp
      · cases hp
        exact absurd rfl hpj
      · exact h.others m p hp hpne

/-- A fork without a page leaves the current task with 1. -/
theorem not_balanced_disable (h : Balanced k) : ¬ Balanced (preempt_disable k) := by
  intro h'
  have hcur := h'.current
  have hone : ((preempt_disable k).task_struct (preempt_disable k).current).preempt_count = 1 := by
    unfold preempt_disable
    simp [h.current]
  omega

/-- One step keeps the balance, a fork without a page apart. -/
theorem Balanced.next_iff (h : Balanced k) (ht : TaskInv k) {e : KernelEvent} (hn : KernelNext k e k') :
    Balanced k' ↔ ¬ Starved ⟨k, e, k'⟩ := by
  have hother : (¬ ∃ clone_flags fn arg r, e = .call (.copy_process clone_flags fn arg) r) → ¬ Starved ⟨k, e, k'⟩ :=
    fun hno hst => hno hst.1
  cases hn with
  | other hle => exact iff_of_true (h.keep rfl rfl fun _ => rfl) (hother (by rintro ⟨_, _, _, _, heq⟩; cases heq))
  | @call c _ _ hex => cases c with
    | schedule =>
      obtain ⟨k₁, hcall, h₁⟩ := map_ok hex
      cases h₁
      exact iff_of_true (h.scheduled (schedule_spec hcall)) (hother (by rintro ⟨_, _, _, _, heq⟩; cases heq))
    | timer_tick =>
      obtain ⟨k₁, hcall, h₁⟩ := map_ok hex
      cases h₁
      refine iff_of_true ?_ (hother (by rintro ⟨_, _, _, _, heq⟩; cases heq))
      rcases timer_tick_spec hcall with hs | hs
      · refine h.keep hs.task hs.current fun q => ?_
        obtain ⟨c, hc⟩ := hs.task_struct q
        rw [hc]
      · exact h.scheduled hs
    | exit_process =>
      obtain ⟨k₁, hcall, h₁⟩ := map_ok hex
      cases h₁
      refine iff_of_true ?_ (hother (by rintro ⟨_, _, _, _, heq⟩; cases heq))
      obtain ⟨k₂, hs, -, -, htask, -, hcur, hts⟩ := exit_process_spec hcall
      have h₂ : Balanced k₂ := h.keep htask hcur fun q => by
        obtain ⟨st, hst⟩ := hts q
        rw [hst]
      exact h₂.scheduled hs
    | copy_process clone_flags fn arg =>
      obtain ⟨⟨pid, k₁⟩, hcall, h₁⟩ := map_ok hex
      cases h₁
      rcases copy_process_spec hcall with ⟨hused, -, rfl⟩ | ⟨j, i, k₂, hj, -, -, hf, rfl⟩
      · exact iff_of_false (not_balanced_disable h) (not_not.2 ⟨⟨_, _, _, _, rfl⟩, hused⟩)
      · exact iff_of_true (h.forked ht hj hf) fun hst => hst.2 j hj

end Balanced

/-- In every state of a run the counts are in balance, and the timer can preempt the current task, if and only if
every fork of the run finds a page. -/
theorem KernelRuns.balanced_iff {tr : List (Step Kernel KernelEvent)} {k : Kernel} (h : KernelRuns tr k) :
    (∀ tr' k', tr' <+: tr → KernelRuns tr' k' → Balanced k' ∧ Preemptible k') ↔ ∀ st ∈ tr, ¬ Starved st := by
  obtain ⟨mm, hrun⟩ := h
  have hiff := hrun.forall_states_iff (B := fun k => ∃ mm, k = bootKernel mm) Balanced (fun st => ¬ Starved st)
    (by rintro _ ⟨mm, rfl⟩; exact Balanced.boot mm)
    (by rintro tr _ k e k' ⟨mm, rfl⟩ hrun hb hn; exact hb.next_iff (KernelRuns.taskInv ⟨mm, hrun⟩) hn) ⟨mm, rfl⟩
  rw [← hiff]
  constructor
  · rintro hall tr' _ k' hp ⟨mm, rfl⟩ hr
    exact (hall tr' k' hp ⟨mm, hr⟩).1
  · rintro hall tr' k' hp ⟨mm, hr⟩
    have hb := hall tr' _ k' hp ⟨mm, rfl⟩ hr
    exact ⟨hb, hb.preemptible⟩

/-- A kernel thread is created at boot, with all pages free. -/
theorem balanced_iff_boot : ∃ tr k, KernelRuns tr k ∧ tr.length = 1 ∧ k.nr_tasks = 2 ∧
    ∀ tr' k', tr' <+: tr → KernelRuns tr' k' → Balanced k' ∧ Preemptible k' := by
  let k₀ : Kernel := bootKernel ⟨fun _ => 0, fun _ => 0⟩
  obtain ⟨j, hj, halloc⟩ : ∃ j, k₀.mem_map j = 0 ∧ allocate_kernel_page k₀.toMm = (pageAddr j, k₀.toMm.take j) :=
    (allocate_kernel_page_cases k₀.toMm).resolve_right fun h => h.1 ⟨0, by decide⟩ rfl
  obtain ⟨k₁, hstart, -⟩ := startTask_kthread kthread_flag 0 0 (.page (pageAddr j))
    ({ preempt_disable k₀ with toMm := k₀.toMm.take j }.freshTask (.page (pageAddr j)))
  obtain ⟨-, k₂, hbody, -⟩ := (copyBody_returns (k := preempt_disable k₀) halloc hstart).resolve_right
    fun h => absurd h.1 (by decide)
  have hcopy : copy_process PF_KTHREAD 0 0 k₀ = .ok (1, preempt_enable k₂) := by
    unfold copy_process
    rw [hbody]
    rfl
  have hexec : (KernelCall.copy_process PF_KTHREAD 0 0).exec k₀ = .ok (some 1, preempt_enable k₂) := by
    rw [KernelCall.exec, hcopy]
    rfl
  have hrun : KernelRuns [⟨k₀, .call (.copy_process PF_KTHREAD 0 0) (some 1), preempt_enable k₂⟩] (preempt_enable k₂) :=
    ⟨_, Run.nil.snoc (.call hexec)⟩
  refine ⟨_, _, hrun, rfl, ?_, hrun.balanced_iff.2 ?_⟩
  · rcases copyBody_spec hbody with ⟨-, hnone, -⟩ | ⟨_, _, -, -, -, hf⟩
    · cases hnone
    · exact hf.nr_tasks
  · intro st hst hstarved
    obtain rfl := List.mem_singleton.1 hst
    exact hstarved.2 j hj

/-- All pages are taken when the first task is to be created. -/
theorem balanced_fails : ∃ tr k, KernelRuns tr k ∧ ¬ Balanced k := by
  let k₀ : Kernel := bootKernel ⟨fun _ => 0, fun _ => 1⟩
  have hcopy : copy_process PF_KTHREAD 0 0 k₀ = .ok (-1, preempt_disable k₀) :=
    copy_process_starved fun _ => (by decide : (1 : UInt16) ≠ 0)
  have hexec : (KernelCall.copy_process PF_KTHREAD 0 0).exec k₀ = .ok (some (-1), preempt_disable k₀) := by
    rw [KernelCall.exec, hcopy]
    rfl
  exact ⟨_, _, ⟨_, Run.nil.snoc (.call hexec)⟩, not_balanced_disable (Balanced.boot _)⟩

end ClbFilesystem
