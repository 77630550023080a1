import ClbFilesystem.Select
/-!
# Slots of tasks

`nr_tasks` only grows, and `copy_process` takes it for the next slot without
looking: zombies keep theirs. The array holds 63 new tasks in all; the fork
after that writes behind it.
-/

namespace ClbFilesystem

open Lib

/-! ## Pids -/

/-- The pid a fork has returned, if it has made a task. -/
def KernelEvent.pid : KernelEvent → Option Int
  | .call _ (some pid) => if pid = -1 then none else some pid
  | _ => none

theorem KernelEvent.pid_call (c : KernelCall) (n : Nat) : (KernelEvent.call c (some (n : Int))).pid = some (n : Int) := by
  have hne : (n : Int) ≠ -1 := by omega
  simp only [KernelEvent.pid, if_neg hne]

def pids (tr : List (Step Kernel KernelEvent)) : List Int := tr.filterMap (·.event.pid)

/-- Every task made is in a slot of the array, its own and its only one, and stays there. -/
structure SlotsInOrder (tr : List (Step Kernel KernelEvent)) (k : Kernel) : Prop where
  pids : ∀ pid ∈ pids tr, 0 ≤ pid ∧ pid < NR_TASKS
  nr_tasks : k.nr_tasks ≤ NR_TASKS
  apart : (ClbFilesystem.pids tr).Nodup
  kept : ∀ st ∈ tr, ∀ i : Fin NR_TASKS, st.event.pid = some (i.val : Int) → ∃ p, st.post.task i = some p ∧ k.task i = some p
  one : ∀ i j p, k.task i = some p → k.task j = some p → i = j

section Slots
variable {k k' : Kernel} {tr : List (Step Kernel KernelEvent)}

/-- A step makes no task, or one in the next slot. -/
theorem KernelNext.slots {e : KernelEvent} (h : KernelNext k e k') :
    e.pid = none ∧ k'.task = k.task ∧ k'.nr_tasks = k.nr_tasks ∨
    ∃ i p, i.val = k.nr_tasks ∧ e.pid = some (k.nr_tasks : Int) ∧ k'.task = Function.update k.task i (some p) ∧
      k'.nr_tasks = k.nr_tasks + 1 := by
  cases h with
  | other hle => exact .inl ⟨rfl, rfl, rfl⟩
  | @call c r _ hex => cases c with
    | schedule =>
      obtain ⟨k₁, hcall, h₁⟩ := map_ok hex
      cases h₁
      have hs := schedule_spec hcall
      exact .inl ⟨rfl, hs.task, hs.nr_tasks⟩
    | timer_tick =>
      obtain ⟨k₁, hcall, h₁⟩ := map_ok hex
      cases h₁
      rcases timer_tick_spec hcall with hs | hs <;> exact .inl ⟨rfl, hs.task, hs.nr_tasks⟩
    | exit_process =>
      obtain ⟨k₁, hcall, h₁⟩ := map_ok hex
      cases h₁
      obtain ⟨k₂, hs, -, -, htask, hnr, -⟩ := exit_process_spec hcall
      exact .inl ⟨rfl, hs.task.trans htask, hs.nr_tasks.trans hnr⟩
    | copy_process clone_flags fn arg =>
      obtain ⟨⟨pid, k₁⟩, hcall, h₁⟩ := map_ok hex
      cases h₁
      rcases copy_process_spec hcall with ⟨-, rfl, rfl⟩ | ⟨j, i, k₂, -, hi, rfl, hf, rfl⟩
      · exact .inl ⟨rfl, rfl, rfl⟩
      · exact .inr ⟨i, _, hi, KernelEvent.pid_call _ _, hf.task, hf.nr_tasks⟩

theorem pids_snoc (st : Step Kernel KernelEvent) : pids (tr ++ [st]) = pids tr ++ st.event.pid.toList := by
  unfold pids
  rw [List.filterMap_append]
  cases h : st.event.pid <;> simp [h]

/-- The pids of a run are 1, 2, .. in this order. -/
theorem KernelRuns.pids_eq (h : KernelRuns tr k) : k.nr_tasks = (pids tr).length + 1 ∧ k.nr_tasks ≤ NR_TASKS ∧
    pids tr = (List.range (pids tr).length).map fun i => ((i + 1 : Nat) : Int) := by
  obtain ⟨mm, hrun⟩ := h
  induction hrun with
  | nil => exact ⟨rfl, (by decide : 1 ≤ NR_TASKS), rfl⟩
  | @snoc tr k e k' hrun hn ih =>
    obtain ⟨hnr, hle, hpids⟩ := ih
    rw [pids_snoc]
    rcases hn.slots with ⟨hpid, -, hnr'⟩ | ⟨i, p, hi, hpid, -, hnr'⟩
    · have hnil : (Step.mk k e k').event.pid.toList = [] := by
        show e.pid.toList = []
        rw [hpid]
        rfl
      rw [hnil, List.append_nil, hnr']
      exact ⟨hnr, hle, hpids⟩
    · have hone : (Step.mk k e k').event.pid.toList = [(((pids tr).length + 1 : Nat) : Int)] := by
        show e.pid.toList = _
        rw [hpid, hnr]
        rfl
      rw [hone]
      refine ⟨by simp [hnr', hnr], by have := i.isLt; omega, ?_⟩
      rw [List.length_append, List.length_singleton, List.range_succ, List.map_append, ← hpids]
      rfl

/-- What a step leaves in the slots filled before. -/
theorem KernelNext.kept {e : KernelEvent} (h : KernelNext k e k') (ht : TaskInv k) {i : Fin NR_TASKS} {p : TaskPtr}
    (hi : k.task i = some p) : k'.task i = some p := by
  rcases h.slots with ⟨-, htask, -⟩ | ⟨m, q, hm, -, htask, -⟩
  · rw [htask]
    exact hi
  · have hlt := (ht.filled i).1 (by rw [hi]; simp)
    rw [htask, Function.update_of_ne]
    · exact hi
    · rintro rfl
      omega

theorem KernelRuns.slotsInOrder (h : KernelRuns tr k) : SlotsInOrder tr k := by
  obtain ⟨hnr, hle, hpids⟩ := h.pids_eq
  refine ⟨?_, hle, ?_, ?_, h.taskInv.distinct⟩
  · intro pid hpid
    rw [hpids] at hpid
    obtain ⟨n, hn, rfl⟩ := List.mem_map.1 hpid
    have hn := List.mem_range.1 hn
    omega
  · rw [hpids]
    refine List.Nodup.map (fun a b hab => ?_) List.nodup_range
    have hab : ((a + 1 : Nat) : Int) = ((b + 1 : Nat) : Int) := hab
    omega
  · obtain ⟨mm, hrun⟩ := h
    clear hnr hle hpids
    induction hrun with
    | nil => simp
    | @snoc tr k e k' hrun hn ih =>
      have ht := KernelRuns.taskInv ⟨mm, hrun⟩
      intro st hst i hpid
      rcases List.mem_append.1 hst with hst | hst
      · obtain ⟨p, hpost, hp⟩ := ih st hst i hpid
        exact ⟨p, hpost, hn.kept ht hp⟩
      · obtain rfl := List.mem_singleton.1 hst
        rcases hn.slots with ⟨hnone, -⟩ | ⟨m, p, hm, hsome, htask, -⟩
        · rw [hnone] at hpid
          cases hpid
        · rw [hsome] at hpid
          obtain rfl : i = m := Fin.ext (by have := Option.some.inj hpid; omega)
          have hp : k'.task i = some p := by rw [htask, Function.update_self]
          exact ⟨p, hp, hp⟩

end Slots

/-! ## The next call -/

/-- A fork finds a page for the new task, and what it does up to the slot can be done. -/
def Supplied (k : Kernel) : KernelCall → Prop
  | .copy_process clone_flags fn arg =>
    let (page, mm) := allocate_kernel_page k.toMm
    page ≠ 0 ∧ ∃ k₁, startTask clone_flags fn arg (.page page) ({ preempt_disable k with toMm := mm }.freshTask (.page page)) = .ok k₁
  | _ => True

/-- The number of tasks it makes. -/
def KernelCall.forks : KernelCall → Nat
  | .copy_process .. => 1
  | _ => 0

section Next
variable {k k' : Kernel} {tr : List (Step Kernel KernelEvent)} {clone_flags fn arg : Nat}

/-- With its page a fork depends on the number of the tasks only. -/
theorem copy_process_supplied (h : Supplied k (.copy_process clone_flags fn arg)) :
    k.nr_tasks < NR_TASKS ∧ (∃ k', copy_process clone_flags fn arg k = .ok (k.nr_tasks, k')) ∨
    NR_TASKS ≤ k.nr_tasks ∧ copy_process clone_flags fn arg k = .error .outOfBounds := by
  unfold Supplied at h
  rcases allocate_kernel_page_cases k.toMm with ⟨j, hj, halloc⟩ | ⟨-, halloc⟩
  · rw [halloc] at h
    obtain ⟨-, k₁, hstart⟩ := h
    unfold copy_process
    rcases copyBody_returns (k := preempt_disable k) halloc hstart with ⟨hlt, k₂, hbody, -⟩ | ⟨hle, hbody⟩
    · refine .inl ⟨hlt, preempt_enable k₂, ?_⟩
      rw [hbody]
      rfl
    · refine .inr ⟨hle, ?_⟩
      rw [hbody]
      rfl
  · rw [halloc] at h
    exact absurd rfl h.1

/-- A task that has mapped no page can fork as soon as there is one free. -/
theorem supplied_of_free (hcount : (k.task_struct k.current).mm.user_pages_count = 0) (hfree : ∃ i, k.mem_map i = 0)
    (c : KernelCall) : Supplied k c := by
  cases c with
  | copy_process clone_flags fn arg =>
    unfold Supplied
    rcases allocate_kernel_page_cases k.toMm with ⟨j, hj, halloc⟩ | ⟨hused, -⟩
    · rw [halloc]
      refine ⟨pageAddr_ne_zero j, ?_⟩
      by_cases hflags : clone_flags &&& PF_KTHREAD = 0
      · have h0 : (({ preempt_disable k with toMm := k.toMm.take j }.freshTask (.page (pageAddr j))).task_struct
            k.current).mm.user_pages_count = 0 := by
          rw [Kernel.freshTask_task_struct]
          split
          · rfl
          · unfold preempt_disable
            rw [Kernel.modTask_task_struct, if_pos rfl]
            exact hcount
        obtain ⟨k₁, hstart, -⟩ := startTask_user fn arg hflags (copy_virt_memory_none h0)
        exact ⟨k₁, hstart⟩
      · obtain ⟨k₁, hstart, -⟩ := startTask_kthread hflags fn arg (.page (pageAddr j))
          ({ preempt_disable k with toMm := k.toMm.take j }.freshTask (.page (pageAddr j)))
        exact ⟨k₁, hstart⟩
    · obtain ⟨i, hi⟩ := hfree
      exact absurd hi (hused i)
  | _ => trivial

end Next

/-- A run and its next call keep the slots in order, with no write outside the array, if and only if together they
make fewer than `NR_TASKS` tasks. -/
theorem KernelRuns.slots_iff {tr : List (Step Kernel KernelEvent)} {k : Kernel} (h : KernelRuns tr k) {c : KernelCall}
    (hc : Supplied k c) : (SlotsInOrder tr k ∧ ∃ r k', c.exec k = .ok (r, k') ∧ SlotsInOrder (tr ++ [⟨k, .call c r, k'⟩]) k') ↔
      (pids tr).length + c.forks < NR_TASKS := by
  obtain ⟨hnr, hle, -⟩ := h.pids_eq
  have hnext : (∃ r k', c.exec k = .ok (r, k') ∧ SlotsInOrder (tr ++ [⟨k, .call c r, k'⟩]) k') ↔ ∃ r k', c.exec k = .ok (r, k') := by
    constructor
    · rintro ⟨r, k', hex, -⟩
      exact ⟨r, k', hex⟩
    · rintro ⟨r, k', hex⟩
      obtain ⟨mm, hrun⟩ := h
      exact ⟨r, k', hex, KernelRuns.slotsInOrder ⟨mm, hrun.snoc (.call hex)⟩⟩
  rw [hnext, and_iff_right h.slotsInOrder]
  by_cases hfork : ∃ clone_flags fn arg, c = .copy_process clone_flags fn arg
  · obtain ⟨clone_flags, fn, arg, rfl⟩ := hfork
    show _ ↔ (pids tr).length + 1 < NR_TASKS
    rcases copy_process_supplied hc with ⟨hlt, k', hcall⟩ | ⟨hge, hcall⟩
    · refine iff_of_true ⟨some (k.nr_tasks : Int), k', ?_⟩ (by omega)
      rw [KernelCall.exec, hcall]
      rfl
    · refine iff_of_false ?_ (by omega)
      rintro ⟨r, k', hex⟩
      rw [KernelCall.exec, hcall] at hex
      cases hex
  · have hno : ∀ clone_flags fn arg, c ≠ .copy_process clone_flags fn arg := fun _ _ _ heq => hfork ⟨_, _, _, heq⟩
    have hforks : c.forks = 0 := by
      cases c with
      | copy_process clone_flags fn arg => exact absurd rfl (hno clone_flags fn arg)
      | _ => rfl
    exact iff_of_true (h.returns hno) (by omega)

/-! ## Forks at boot -/

theorem exists_forks (n : Nat) (hn : n < NR_TASKS) :
    ∃ tr k, KernelRuns tr k ∧ k.nr_tasks = n + 1 ∧ k.toMm.free + n = PAGING_PAGES ∧ (pids tr).length = n := by
  have hpages := NR_TASKS_lt
  induction n with
  | zero =>
    obtain ⟨mm, -, hfree⟩ := Mm.exists_taken 0 (Nat.zero_le _)
    exact ⟨[], bootKernel mm, ⟨mm, .nil⟩, rfl, hfree, rfl⟩
  | succ n ih =>
    obtain ⟨tr, k, ⟨mm, hrun⟩, hnr, hfree, hpids⟩ := ih (by omega)
    obtain ⟨k', hex, hfree', hnr'⟩ := copy_process_kthread (k := k) (by omega) (by omega)
    refine ⟨_, k', ⟨mm, hrun.snoc (.call hex)⟩, by omega, by omega, ?_⟩
    rw [pids_snoc, List.length_append, hpids, KernelEvent.pid_call]
    rfl

theorem supplied_kthread {k : Kernel} (hfree : 0 < k.toMm.free) : Supplied k (.copy_process PF_KTHREAD 0 0) := by
  have hsome : ¬ ∀ i, k.mem_map i ≠ 0 := fun h => hfree.ne' (Mm.free_eq_zero.2 h)
  obtain ⟨j, hj, halloc⟩ := (allocate_kernel_page_cases k.toMm).resolve_right fun h => hsome h.1
  unfold Supplied
  rw [halloc]
  obtain ⟨k₁, hstart, -⟩ := startTask_kthread kthread_flag 0 0 (.page (pageAddr j))
    ({ preempt_disable k with toMm := k.toMm.take j }.freshTask (.page (pageAddr j)))
  exact ⟨pageAddr_ne_zero j, k₁, hstart⟩

/-- The 63rd fork gets the last slot. -/
theorem slots_iff_last : ∃ tr k r k', KernelRuns tr k ∧ (pids tr).length = 62 ∧
    (KernelCall.copy_process PF_KTHREAD 0 0).exec k = .ok (r, k') ∧
    SlotsInOrder (tr ++ [⟨k, .call (.copy_process PF_KTHREAD 0 0) r, k'⟩]) k' := by
  obtain ⟨tr, k, hrun, -, hfree, hpids⟩ := exists_forks 62 (by decide)
  have hpages := NR_TASKS_lt
  have hNR : NR_TASKS = 64 := rfl
  have hiff := hrun.slots_iff (supplied_kthread (by omega))
  rw [hpids] at hiff
  obtain ⟨-, r, k', hex, hslots⟩ := hiff.2 (by decide)
  exact ⟨tr, k, r, k', hrun, hpids, hex, hslots⟩

/-- The 64th writes behind the array. -/
theorem slots_fail : ∃ tr k, KernelRuns tr k ∧ (pids tr).length = 63 ∧ Supplied k (.copy_process PF_KTHREAD 0 0) ∧
    (KernelCall.copy_process PF_KTHREAD 0 0).exec k = .error .outOfBounds := by
  obtain ⟨tr, k, hrun, hnr, hfree, hpids⟩ := exists_forks 63 (by decide)
  have hpages := NR_TASKS_lt
  have hNR : NR_TASKS = 64 := rfl
  have hs := supplied_kthread (k := k) (by omega)
  refine ⟨tr, k, hrun, hpids, hs, ?_⟩
  rcases copy_process_supplied hs with ⟨hlt, -⟩ | ⟨-, hcall⟩
  · omega
  · rw [KernelCall.exec, hcall]
    rfl

end ClbFilesystem
