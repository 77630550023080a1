import ClbFilesystem.Choice
import ClbFilesystem.TaskSlots
import Mathlib.Algebra.Order.BigOperators.Group.Finset
import Mathlib.Algebra.BigOperators.Fin
/-!
# No task waits for ever

A running task that is not current waits for the others to use up their time, at
most twice: what they have left, and, when its own counter is 0, what a refill
gives them. Whatever calls come in between, its wait is over after 45 ticks for
every task there is, as long as each fork finds a page.
-/

namespace ClbFilesystem

open Lib

/-! ## No counter is negative -/

def Kernel.Solvent (k : Kernel) : Prop := ∀ i p, k.task i = some p → 0 ≤ (k.task_struct p).counter

theorem Kernel.Solvent.boot (mm : Mm) : (bootKernel mm).Solvent := by
  intro i p h
  rw [(bootKernel_task h).2]
  exact le_refl (0 : Int)

section Solvent
variable {k k' : Kernel}

/-- The refill gives each task of the array its turn once. -/
theorem refill_counter (h : TaskInv k) {i : Fin NR_TASKS} {q : TaskPtr} (hq : k.task i = some q) :
    ((refill k).task_struct q).counter = (k.task_struct q).counter / 2 + (k.task_struct q).priority := by
  have hfold : ∀ (l : List (Fin NR_TASKS)) (k' : Kernel), k'.task = k.task → l.Nodup →
      ((l.foldl refillTask k').task_struct q).counter = if i ∈ l
        then (k'.task_struct q).counter / 2 + (k'.task_struct q).priority else (k'.task_struct q).counter := by
    intro l
    induction l with
    | nil => exact fun k' _ _ => (if_neg (by simp)).symm
    | cons m l ih =>
      intro k' htask hl
      rw [List.nodup_cons] at hl
      rw [List.foldl_cons, ih _ ((refillTask_task k' m).trans htask) hl.2, refillTask_priority, refillTask_task_struct, htask]
      by_cases hm : k.task m = some q
      · obtain rfl : m = i := h.distinct m i q hm hq
        rw [if_pos hm, if_neg hl.1, if_pos (by simp)]
      · have hne : i ≠ m := by
          rintro rfl
          exact hm hq
        simp [if_neg hm, hne]
  have h := hfold (List.finRange NR_TASKS) k rfl (List.nodup_finRange _)
  rwa [if_pos (List.mem_finRange i)] at h

theorem preempt_disable_counter (k : Kernel) (q : TaskPtr) :
    ((preempt_disable k).task_struct q).counter = (k.task_struct q).counter := by
  unfold preempt_disable
  rw [Kernel.modTask_task_struct]
  split <;> rfl

theorem preempt_enable_counter (k : Kernel) (q : TaskPtr) :
    ((preempt_enable k).task_struct q).counter = (k.task_struct q).counter := by
  unfold preempt_enable
  rw [Kernel.modTask_task_struct]
  split <;> rfl

theorem switch_to_task_struct (p : TaskPtr) (k : Kernel) : (switch_to p k).task_struct = k.task_struct := by
  unfold switch_to
  split <;> rfl

/-- The loop stops on a table without a refill when the scan finds time, and on the refilled one otherwise. -/
theorem _schedule_counters (h : Timed k) (hcall : _schedule k = .ok k') : ∃ k₁,
    ((scan (preempt_disable k)).1 ≠ 0 ∧ k₁ = preempt_disable k ∨
      (scan (preempt_disable k)).1 = 0 ∧ k₁ = refill (preempt_disable k)) ∧
    (scan k₁).1 ≠ 0 ∧ k₁.task (scan k₁).2 = some k'.current ∧
    ∀ q, (k'.task_struct q).counter = (k₁.task_struct q).counter := by
  have hd := h.disable
  obtain ⟨k₁, hor, hne, hselect⟩ := select_two hd.short hd.refill.short fun i p hp => by rw [hd.priority i p hp]; decide
  refine ⟨k₁, ?_, hne, ?_⟩
  · by_cases hc : (scan (preempt_disable k)).1 = 0
    · exact .inr ⟨hc, hor.resolve_left fun heq => hne (heq ▸ hc)⟩
    · have heq := (select_found 1 hc).symm.trans (hselect 0)
      exact .inl ⟨hc, (Prod.mk.inj (Except.ok.inj heq)).2.symm⟩
  · rw [_schedule_eq, hselect 126, ok_bind] at hcall
    simp only at hcall
    split at hcall
    · cases hcall
    · next p hp =>
      cases hcall
      refine ⟨?_, fun q => ?_⟩
      · rw [hp]
        show some p = some (switch_to p k₁).current
        unfold switch_to
        split
        · next heq => rw [heq]
        · rfl
      · rw [preempt_enable_counter, switch_to_task_struct]

/-- The counters of `k'` are not below 0 either. -/
theorem Kernel.Solvent.keep (h : k.Solvent) (htask : k'.task = k.task)
    (hcounter : ∀ q, 0 ≤ (k.task_struct q).counter → 0 ≤ (k'.task_struct q).counter) : k'.Solvent :=
  fun i p hp => hcounter p (h i p (htask ▸ hp))

theorem Kernel.Solvent._schedule (h : k.Solvent) (ht : Timed k) (hcall : ClbFilesystem._schedule k = .ok k') : k'.Solvent := by
  obtain ⟨k₁, hor, -, -, hcounter⟩ := _schedule_counters ht hcall
  intro i p hp
  rw [(_schedule_spec hcall).task] at hp
  have h0 := h i p hp
  rw [hcounter]
  rcases hor with ⟨-, rfl⟩ | ⟨-, rfl⟩
  · rw [preempt_disable_counter]
    exact h0
  · have hprio : 1 ≤ ((preempt_disable k).task_struct p).priority := by
      rw [ht.disable.priority i p hp]
      decide
    exact (refill_pos (k := preempt_disable k) hp hprio (by rw [preempt_disable_counter]; exact h0)).le

theorem Kernel.Solvent.stop (h : k.Solvent) : (k.modTask k.current fun t => { t with counter := 0 }).Solvent :=
  h.keep rfl fun q h0 => by
    rw [Kernel.modTask_task_struct]
    split
    · exact le_rfl
    · exact h0

theorem Kernel.Solvent.schedule (h : k.Solvent) (ht : Timed k) (hcall : ClbFilesystem.schedule k = .ok k') : k'.Solvent :=
  h.stop._schedule ht.stop hcall

end Solvent

/-! ## What a task waits for -/

/-- The time that slot `i` can take from `p`: what its task has left, and the time a fork gives a new one if there are to
be `n` tasks. -/
def Kernel.share (k : Kernel) (n : Nat) (p : TaskPtr) (i : Fin NR_TASKS) : Nat :=
  match k.task i with
  | some q => if q = p then 0 else (k.task_struct q).counter.toNat
  | none => if i.val < n then 15 else 0

/-- The time before `p`, with what a refill adds to it if `p` has to wait for one. -/
def Kernel.ahead (k : Kernel) (n : Nat) (p : TaskPtr) : Nat :=
  ∑ i, k.share n p i + if (k.task_struct p).counter ≤ 0 then 15 * n else 0

/-- The ticks for which `p` waits at most; a current task without time takes one. -/
def Kernel.wait (k : Kernel) (n : Nat) (p : TaskPtr) : Nat :=
  k.ahead n p + if (k.task_struct k.current).counter ≤ 0 then 1 else 0

section Wait
variable {k k' : Kernel} {n : Nat} {p q : TaskPtr} {i m : Fin NR_TASKS}

theorem share_some (h : k.task i = some q) (n : Nat) (p : TaskPtr) :
    k.share n p i = if q = p then 0 else (k.task_struct q).counter.toNat := by
  simp only [Kernel.share, h]

theorem share_none (h : k.task i = none) (n : Nat) (p : TaskPtr) : k.share n p i = if i.val < n then 15 else 0 := by
  simp only [Kernel.share, h]

theorem share_congr (htask : k'.task i = k.task i)
    (hcounter : ∀ q, k.task i = some q → (k'.task_struct q).counter = (k.task_struct q).counter) :
    k'.share n p i = k.share n p i := by
  cases hi : k.task i with
  | none => rw [share_none hi, share_none (htask.trans hi)]
  | some q => rw [share_some hi, share_some (htask.trans hi), hcounter q hi]

/-- So much for each of `n` slots. -/
theorem sum_slots_le (a n : Nat) : (∑ i : Fin NR_TASKS, if i.val < n then a else 0) ≤ a * n := by
  have hcard : (Finset.univ.filter fun i : Fin NR_TASKS => i.val < n).card ≤ n := by
    calc (Finset.univ.filter fun i : Fin NR_TASKS => i.val < n).card
        = ((Finset.univ.filter fun i : Fin NR_TASKS => i.val < n).map Fin.valEmbedding).card := (Finset.card_map _).symm
      _ ≤ (Finset.range n).card := Finset.card_le_card fun x hx => by
          obtain ⟨i, hi, rfl⟩ := Finset.mem_map.1 hx
          exact Finset.mem_range.2 (Finset.mem_filter.1 hi).2
      _ = n := Finset.card_range n
  rw [← Finset.sum_filter, Finset.sum_const, smul_eq_mul, Nat.mul_comm]
  exact Nat.mul_le_mul_left a hcard

theorem ahead_congr (htask : k'.task = k.task) (hcounter : ∀ q, (k'.task_struct q).counter = (k.task_struct q).counter) :
    k'.ahead n p = k.ahead n p := by
  unfold Kernel.ahead
  rw [hcounter, Finset.sum_congr rfl fun i _ => share_congr (congrFun htask i) fun q _ => hcounter q]

theorem wait_congr (htask : k'.task = k.task) (hcur : k'.current = k.current)
    (hcounter : ∀ q, (k'.task_struct q).counter = (k.task_struct q).counter) : k'.wait n p = k.wait n p := by
  unfold Kernel.wait
  rw [ahead_congr htask hcounter, hcur, hcounter]

/-- Another task has spent some of its time. -/
theorem ahead_spend (ht : TaskInv k) (hm : k.task m = some q) (hq : q ≠ p) (htask : k'.task = k.task)
    (hothers : ∀ r, r ≠ q → (k'.task_struct r).counter = (k.task_struct r).counter) :
    k'.ahead n p + (k.task_struct q).counter.toNat = k.ahead n p + (k'.task_struct q).counter.toNat := by
  have hshare := share_some hm n p
  have hshare' := share_some (k := k') (by rw [htask]; exact hm) n p
  rw [if_neg hq] at hshare hshare'
  have hrest : ∑ i ∈ Finset.univ.erase m, k'.share n p i = ∑ i ∈ Finset.univ.erase m, k.share n p i := by
    refine Finset.sum_congr rfl fun i hi => share_congr (congrFun htask i) fun r hr => hothers r ?_
    rintro rfl
    exact (Finset.mem_erase.1 hi).1 (ht.distinct i m _ hr hm)
  have hsum := Finset.add_sum_erase Finset.univ (k.share n p) (Finset.mem_univ m)
  have hsum' := Finset.add_sum_erase Finset.univ (k'.share n p) (Finset.mem_univ m)
  unfold Kernel.ahead
  rw [hothers p (Ne.symm hq)]
  omega

/-- What a refill gives the others was counted while `p` had no time itself. -/
theorem ahead_refill (ht : TaskInv k) (h : Timed k) (hnr : k.nr_tasks ≤ n) (hp : (k.task_struct p).counter ≤ 0)
    (hpos : 0 < ((refill k).task_struct p).counter) : (refill k).ahead n p ≤ k.ahead n p := by
  have hle : ∀ i ∈ Finset.univ, (refill k).share n p i ≤ k.share n p i + if i.val < n then 15 else 0 := by
    intro i _
    have htask : (refill k).task i = k.task i := congrFun (SameButCounters.refill k).task i
    cases hi : k.task i with
    | none =>
      rw [share_none hi, share_none (htask.trans hi)]
      exact Nat.le_add_right _ _
    | some q =>
      have hlt : i.val < n := ((ht.filled i).1 (by rw [hi]; simp)).trans_le hnr
      rw [share_some hi, share_some (htask.trans hi), refill_counter ht hi, h.priority i q hi, if_pos hlt]
      split
      · exact Nat.zero_le _
      · omega
  have hsum := Finset.sum_le_sum hle
  rw [Finset.sum_add_distrib] at hsum
  unfold Kernel.ahead
  rw [if_neg (not_le.2 hpos), if_pos hp]
  have := sum_slots_le 15 n
  omega

/-- `_schedule` keeps `p` waiting for nothing new, and the task it switches to has time. -/
theorem _schedule_ahead (ht : TaskInv k) (h : Timed k) (hs : k.Solvent) (hp : k.Runnable i p) (hnr : k.nr_tasks ≤ n)
    (hcall : _schedule k = .ok k') : k'.ahead n p ≤ k.ahead n p ∧ 0 < (k'.task_struct k'.current).counter := by
  obtain ⟨k₁, hor, hne, hcur, hcounter⟩ := _schedule_counters h hcall
  have hd := h.disable
  have hdis : TaskInv (preempt_disable k) := ht.keep (Mm.Le.refl _) rfl rfl ht.current
  have hrun : (preempt_disable k).Runnable i p := ⟨hp.1, (preempt_disable_state k p).trans hp.2⟩
  have h0 : 0 ≤ ((preempt_disable k).task_struct p).counter := (hs i p hp.1).trans_eq (preempt_disable_counter k p).symm
  have htask : (preempt_disable k).task = k.task := rfl
  have hsame : (preempt_disable k).ahead n p = k.ahead n p := ahead_congr htask (preempt_disable_counter k)
  have hnr' : (preempt_disable k).nr_tasks ≤ n := hnr
  rw [← hsame]
  generalize preempt_disable k = kd at hor hd hdis hrun h0 htask hnr'
  -- The time before `p` in the table the loop ends with, where `p` can be chosen.
  obtain ⟨hshort, hrun₁, h0₁, htask₁, hle⟩ : k₁.Short ∧ k₁.Runnable i p ∧ 0 ≤ (k₁.task_struct p).counter ∧
      k₁.task = kd.task ∧ k₁.ahead n p ≤ kd.ahead n p := by
    rcases hor with ⟨-, rfl⟩ | ⟨hzero, rfl⟩
    · exact ⟨hd.short, hrun, h0, rfl, le_rfl⟩
    · have hfilled := SameButCounters.refill kd
      have hpos := refill_pos hrun.1 (by rw [hd.priority i p hrun.1]; decide) h0
      exact ⟨hd.refill.short, ⟨by rw [hfilled.task]; exact hrun.1, (hfilled.state p).trans hrun.2⟩, hpos.le, hfilled.task,
        ahead_refill hdis hd hnr' (hzero ▸ scan_ge hd.short hrun) hpos⟩
  refine ⟨(ahead_congr ((_schedule_spec hcall).task.trans (htask₁.trans htask).symm) hcounter).le.trans hle, ?_⟩
  have hge := scan_ge hshort hrun₁
  rcases scan_found hshort with heq | ⟨q, hq, hc, -⟩
  · rw [heq] at hge
    simp only at hge
    omega
  · obtain rfl : q = k'.current := Option.some.inj (hq.runnable.1.symm.trans hcur)
    rw [hcounter, hc]
    omega

/-- A current task with time costs `p` no tick of its own. -/
theorem wait_eq (h : 0 < (k.task_struct k.current).counter) : k.wait n p = k.ahead n p := by
  unfold Kernel.wait
  rw [if_neg (not_le.2 h), Nat.add_zero]

theorem schedule_wait (ht : TaskInv k) (h : Timed k) (hs : k.Solvent) (hp : k.Runnable i p) (hcur : k.current ≠ p)
    (hnr : k.nr_tasks ≤ n) (hcall : schedule k = .ok k') :
    k'.wait n p + (k.task_struct k.current).counter.toNat ≤ k.ahead n p ∧ 0 < (k'.task_struct k'.current).counter := by
  obtain ⟨m, hm⟩ := ht.current
  obtain ⟨k₁, hk₁⟩ : ∃ k₁, k₁ = k.modTask k.current fun t => { t with counter := 0 } := ⟨_, rfl⟩
  have hcounter : ∀ q, (k₁.task_struct q).counter = if q = k.current then 0 else (k.task_struct q).counter := by
    intro q
    rw [hk₁, Kernel.modTask_task_struct]
    split <;> rfl
  have hp₁ : k₁.Runnable i p := by
    rw [hk₁]
    refine ⟨hp.1, ?_⟩
    rw [Kernel.modTask_task_struct, if_neg (Ne.symm hcur)]
    exact hp.2
  have ht₁ : TaskInv k₁ := hk₁ ▸ ht.keep (Mm.Le.refl _) rfl rfl ht.current
  unfold schedule at hcall
  rw [← hk₁] at hcall
  obtain ⟨hle, hpos⟩ := _schedule_ahead (n := n) ht₁ (hk₁ ▸ h.stop) (hk₁ ▸ hs.stop) hp₁ (by rw [hk₁]; exact hnr) hcall
  have htask₁ : k₁.task = k.task := by rw [hk₁]; rfl
  have hspend := ahead_spend (n := n) ht hm hcur htask₁ fun r hr => by rw [hcounter, if_neg hr]
  rw [hcounter, if_pos rfl, Int.toNat_zero] at hspend
  rw [wait_eq hpos]
  exact ⟨by omega, hpos⟩

/-- A tick goes to the scheduler, or takes 1 from a counter above 1. -/
theorem Balanced.timer_tick_cases (hb : Balanced k) (hcall : timer_tick k = .ok k') :
    (k.task_struct k.current).counter ≤ 1 ∧ schedule k = .ok k' ∨ 1 < (k.task_struct k.current).counter ∧
      k' = k.modTask k.current fun t => { t with counter := t.counter - 1 } := by
  by_cases hle : (k.task_struct k.current).counter ≤ 1
  · exact .inl ⟨hle, (hb.preemptible hle).symm.trans hcall⟩
  · unfold timer_tick at hcall
    simp only [Kernel.modTask_current, Kernel.modTask_task_struct, if_true] at hcall
    rw [if_pos (.inl (by omega))] at hcall
    exact .inr ⟨not_le.1 hle, (Except.ok.inj hcall).symm⟩

/-- A tick brings `p` nearer. -/
theorem timer_tick_wait (ht : TaskInv k) (h : Timed k) (hs : k.Solvent) (hb : Balanced k) (hp : k.Runnable i p) (hcur : k.current ≠ p)
    (hnr : k.nr_tasks ≤ n) (hcall : timer_tick k = .ok k') :
    k'.wait n p + 1 ≤ k.wait n p ∧ 0 < (k'.task_struct k'.current).counter := by
  obtain ⟨m, hm⟩ := ht.current
  have h0 := hs m _ hm
  rcases hb.timer_tick_cases hcall with ⟨hle, hcall⟩ | ⟨hlt, rfl⟩
  · obtain ⟨hwait, hpos⟩ := schedule_wait ht h hs hp hcur hnr hcall
    have hk : k.wait n p = k.ahead n p + if (k.task_struct k.current).counter ≤ 0 then 1 else 0 := rfl
    refine ⟨?_, hpos⟩
    rw [hk]
    split
    · omega
    · omega
  · obtain ⟨k', hk'⟩ : ∃ k', k' = k.modTask k.current fun t => { t with counter := t.counter - 1 } := ⟨_, rfl⟩
    have hcounter : (k'.task_struct k.current).counter = (k.task_struct k.current).counter - 1 := by
      rw [hk', Kernel.modTask_task_struct, if_pos rfl]
    have htask : k'.task = k.task := by rw [hk']; rfl
    have hspend := ahead_spend (n := n) ht hm hcur htask
      fun r hr => by rw [hk', Kernel.modTask_task_struct, if_neg hr]
    have hcur' : k'.current = k.current := by rw [hk']; rfl
    have hpos : 0 < (k'.task_struct k'.current).counter := by
      rw [hcur', hcounter]
      omega
    refine hk' ▸ ⟨?_, hpos⟩
    rw [wait_eq hpos, wait_eq (by omega)]
    omega

/-- A new task has the time it was expected to have. -/
theorem forked_wait (ht : TaskInv k) (h : Timed k) (hp : k.Runnable i p) {j : Fin PAGING_PAGES} {s : Fin NR_TASKS}
    (hj : k.mem_map j = 0) (hi : s.val = k.nr_tasks) (hf : Forked k k' j s) (hnr : k'.nr_tasks ≤ n) :
    k'.wait n p = k.wait n p ∧ k'.Runnable i p := by
  obtain ⟨m, hm⟩ := ht.current
  have hne := ht.current_ne hj
  have hold : ∀ r q, k.task r = some q → q ≠ .page (pageAddr j) := by
    rintro r _ hr rfl
    exact ht.fresh hj r hr
  have hnone : k.task s = none := by
    by_contra hs
    have := (ht.filled s).1 hs
    omega
  have hlt : s.val < n := by
    have := hf.nr_tasks
    omega
  have hnew : k'.task s = some (.page (pageAddr j)) := by rw [hf.task, Function.update_self]
  have hshare : ∀ r, k'.share n p r = k.share n p r := by
    intro r
    by_cases hr : r = s
    · subst hr
      rw [share_some hnew, share_none hnone, if_neg (Ne.symm (hold i p hp.1)), if_pos hlt, hf.counter, hf.priority hne,
        h.priority m _ hm]
      rfl
    · exact share_congr (by rw [hf.task, Function.update_of_ne hr]) fun q hq => by rw [hf.others q (hold r q hq)]
  refine ⟨?_, ?_, ?_⟩
  · unfold Kernel.wait Kernel.ahead
    rw [hf.others p (hold i p hp.1), hf.current, hf.others _ hne, Finset.sum_congr rfl fun r _ => hshare r]
  · rw [hf.task, Function.update_of_ne]
    · exact hp.1
    · rintro rfl
      rw [hp.1] at hnone
      cases hnone
  · rw [hf.others p (hold i p hp.1)]
    exact hp.2

theorem zombie_counter (k : Kernel) (q : TaskPtr) :
    ((preempt_enable (markZombie (preempt_disable k))).task_struct q).counter = (k.task_struct q).counter := by
  obtain ⟨-, -, -, -, -, hts⟩ := zombie_spec k _ rfl
  obtain ⟨st, hst⟩ := hts q
  rw [hst]

end Wait

/-! ## Every step -/

/-- The tasks have their priority, their time and no debt, and the timer can preempt the current one. -/
structure Steady (k : Kernel) : Prop where
  tasks : TaskInv k
  timed : Timed k
  solvent : k.Solvent
  balanced : Balanced k

def KernelEvent.isTick : KernelEvent → Bool
  | .call .timer_tick _ => true
  | _ => false

/-- The ticks of the timer in a stretch of a run. -/
def ticks (tr : List (Step Kernel KernelEvent)) : Nat := tr.countP fun st => st.event.isTick

section Steps
variable {k k' : Kernel} {n : Nat} {p : TaskPtr} {i : Fin NR_TASKS}

theorem Steady.boot (mm : Mm) : Steady (bootKernel mm) :=
  ⟨TaskInv.boot mm, Timed.boot mm, Kernel.Solvent.boot mm, Balanced.boot mm⟩

theorem Kernel.Solvent.next (ht : TaskInv k) (h : Timed k) (hb : Balanced k) (hs : k.Solvent) {e : KernelEvent}
    (hn : KernelNext k e k') : k'.Solvent := by
  cases hn with
  | other hle => exact hs
  | @call c r _ hex => cases c with
    | schedule =>
      obtain ⟨k₁, hcall, h₁⟩ := map_ok hex
      cases h₁
      exact hs.schedule h hcall
    | timer_tick =>
      obtain ⟨k₁, hcall, h₁⟩ := map_ok hex
      cases h₁
      rcases hb.timer_tick_cases hcall with ⟨-, hcall⟩ | ⟨hlt, rfl⟩
      · exact hs.schedule h hcall
      · refine hs.keep rfl fun q h0 => ?_
        rw [Kernel.modTask_task_struct]
        split
        · next hq =>
          subst hq
          show 0 ≤ (k.task_struct k.current).counter - 1
          omega
        · exact h0
    | exit_process =>
      obtain ⟨k₁, hcall, h₁⟩ := map_ok hex
      cases h₁
      obtain ⟨-, -, htask, -⟩ := zombie_spec k _ rfl
      exact (hs.keep htask fun q h0 => by rw [zombie_counter]; exact h0).schedule (h.keep (.zombie k) htask) hcall
    | copy_process clone_flags fn arg =>
      obtain ⟨⟨pid, k₁⟩, hcall, h₁⟩ := map_ok hex
      cases h₁
      have hdis : (preempt_disable k).Solvent := hs.keep rfl fun q h0 => by rw [preempt_disable_counter]; exact h0
      rcases copy_process_spec hcall with ⟨-, -, rfl⟩ | ⟨j, i, k₂, hj, -, -, hf, rfl⟩
      · exact hdis
      · intro m q hq
        rw [preempt_enable_counter]
        by_cases hqj : q = .page (pageAddr j)
        · obtain ⟨r, hr⟩ := ht.current
          have hprio : (k₂.task_struct (.page (pageAddr j))).priority = 15 :=
            (hf.priority (ht.current_ne hj)).trans (h.disable.priority r _ hr)
          rw [hqj, hf.counter, hprio]
          decide
        · have hq : k₂.task m = some q := hq
          rw [hf.task, Function.update_apply] at hq
          split at hq
          · exact absurd (Option.some.inj hq).symm hqj
          · rw [hf.others q hqj]
            exact hdis m q hq

theorem Steady.next (h : Steady k) {e : KernelEvent} (hn : KernelNext k e k') (hfed : ¬ Starved ⟨k, e, k'⟩) : Steady k' :=
  ⟨h.tasks.next hn, h.timed.next h.tasks hn, h.solvent.next h.tasks h.timed h.balanced hn, (h.balanced.next_iff h.tasks hn).2 hfed⟩

/-- No step makes `p` wait longer, and a tick makes it wait less; a step that makes it current finds it with time. -/
theorem Steady.wait_next (h : Steady k) (hp : k.Runnable i p) (hcur : k.current ≠ p) {e : KernelEvent} (hn : KernelNext k e k')
    (hfed : ¬ Starved ⟨k, e, k'⟩) (hnr : k'.nr_tasks ≤ n) :
    k'.Runnable i p ∧ k'.wait n p + (if e.isTick then 1 else 0) ≤ k.wait n p ∧
      (k'.current = p → 0 < (k'.task_struct p).counter) := by
  obtain ⟨ht, htimed, hs, hb⟩ := h
  cases hn with
  | other hle =>
    refine ⟨hp, ?_, fun hcur' => absurd hcur' hcur⟩
    rw [if_neg (by simp [KernelEvent.isTick]), Nat.add_zero]
    refine Nat.le_of_eq (wait_congr ?_ ?_ fun q => ?_) <;> rfl
  | @call c r _ hex => cases c with
    | schedule =>
      obtain ⟨k₁, hcall, h₁⟩ := map_ok hex
      cases h₁
      have hspec := schedule_spec hcall
      obtain ⟨hwait, hpos⟩ := schedule_wait ht htimed hs hp hcur (hspec.nr_tasks.symm.le.trans hnr) hcall
      refine ⟨⟨by rw [hspec.task]; exact hp.1, (hspec.state p).trans hp.2⟩, ?_, fun hcur' => hcur' ▸ hpos⟩
      have hle : k.ahead n p ≤ k.wait n p := Nat.le_add_right _ _
      show k'.wait n p + 0 ≤ k.wait n p
      omega
    | timer_tick =>
      obtain ⟨k₁, hcall, h₁⟩ := map_ok hex
      cases h₁
      obtain ⟨htask, hstate, hnr'⟩ : k'.task = k.task ∧ (k'.task_struct p).state = (k.task_struct p).state ∧
          k'.nr_tasks = k.nr_tasks := by
        rcases timer_tick_spec hcall with hspec | hspec
        · exact ⟨hspec.task, hspec.state p, hspec.nr_tasks⟩
        · exact ⟨hspec.task, hspec.state p, hspec.nr_tasks⟩
      obtain ⟨hwait, hpos⟩ := timer_tick_wait ht htimed hs hb hp hcur (hnr'.symm.le.trans hnr) hcall
      exact ⟨⟨by rw [htask]; exact hp.1, hstate.trans hp.2⟩, hwait, fun hcur' => hcur' ▸ hpos⟩
    | exit_process =>
      obtain ⟨k₁, hcall, h₁⟩ := map_ok hex
      cases h₁
      obtain ⟨hmm, -, htask, hnr', hcur', hts⟩ := zombie_spec k _ rfl
      have hcount := zombie_counter k
      have hz : ((preempt_enable (markZombie (preempt_disable k))).task_struct p).state = (k.task_struct p).state := by
        rw [preempt_enable_state]
        unfold markZombie
        split
        · rw [Kernel.modTask_task_struct, if_neg fun he => hcur he.symm]
          exact preempt_disable_state k p
        · exact preempt_disable_state k p
      have hpace : Timed (preempt_enable (markZombie (preempt_disable k))) := htimed.keep (.zombie k) htask
      unfold exit_process at hcall
      generalize preempt_enable (markZombie (preempt_disable k)) = kz at hcall hmm htask hnr' hcur' hz hcount hpace
      have hspec := schedule_spec hcall
      have hle : kz.ahead n p ≤ k.wait n p := (ahead_congr htask hcount).le.trans (Nat.le_add_right _ _)
      have htz : TaskInv kz := ht.keep (hmm ▸ Mm.Le.refl _) htask hnr' (hcur' ▸ ht.current)
      obtain ⟨hwait, hpos⟩ := schedule_wait (n := n) (i := i) (p := p) htz hpace
        (hs.keep htask fun q h0 => by rw [hcount]; exact h0) ⟨by rw [htask]; exact hp.1, hz.trans hp.2⟩ (hcur' ▸ hcur)
        (hspec.nr_tasks.symm.le.trans hnr) hcall
      refine ⟨⟨by rw [hspec.task, htask]; exact hp.1, (hspec.state p).trans (hz.trans hp.2)⟩, ?_, fun hcur' => hcur' ▸ hpos⟩
      show k'.wait n p + 0 ≤ k.wait n p
      omega
    | copy_process clone_flags fn arg =>
      obtain ⟨⟨pid, k₁⟩, hcall, h₁⟩ := map_ok hex
      cases h₁
      rcases copy_process_spec hcall with ⟨hused, -, -⟩ | ⟨j, s, k₂, hj, hi, -, hf, rfl⟩
      · exact absurd ⟨⟨_, _, _, _, rfl⟩, hused⟩ hfed
      · have hdis : TaskInv (preempt_disable k) := ht.keep (Mm.Le.refl _) rfl rfl ht.current
        obtain ⟨hwait, hrun⟩ := forked_wait (n := n) hdis htimed.disable ⟨hp.1, (preempt_disable_state k p).trans hp.2⟩ hj hi hf hnr
        refine ⟨⟨hrun.1, (preempt_enable_state k₂ p).trans hrun.2⟩, ?_, fun hcur' => absurd (hf.current.symm.trans hcur') hcur⟩
        have hback : (preempt_enable k₂).wait n p = k₂.wait n p := wait_congr rfl rfl (preempt_enable_counter k₂)
        have hthere : (preempt_disable k).wait n p = k.wait n p := wait_congr rfl rfl (preempt_disable_counter k)
        show (preempt_enable k₂).wait n p + 0 ≤ k.wait n p
        omega

theorem nr_tasks_le {e : KernelEvent} (hn : KernelNext k e k') : k.nr_tasks ≤ k'.nr_tasks := by
  rcases hn.slots with ⟨-, -, hnr⟩ | ⟨_, _, -, -, -, hnr⟩ <;> omega

theorem nr_tasks_run {tr : List (Step Kernel KernelEvent)} (h : Run KernelNext k tr k') :
    ∀ st ∈ tr, st.post.nr_tasks ≤ k'.nr_tasks := by
  induction h with
  | nil => simp
  | snoc _ hn ih =>
    intro st hst
    rcases List.mem_append.1 hst with hst | hst
    · exact (ih st hst).trans (nr_tasks_le hn)
    · rw [List.mem_singleton.1 hst]

/-- What `p` waits for is at most 45 ticks for each task. -/
theorem Steady.wait_le (h : Steady k) (hp : k.Runnable i p) (hnr : k.nr_tasks ≤ n) : k.wait n p ≤ 45 * n := by
  have hslot : ∀ r : Fin NR_TASKS, k.task r ≠ none → r.val < n := fun r hr => ((h.tasks.filled r).1 hr).trans_le hnr
  have hi : i.val < n := hslot i (by rw [hp.1]; simp)
  -- Each slot has 30 ticks at most, and that of `p` has none.
  have hlt : ∑ r, k.share n p r < ∑ r : Fin NR_TASKS, if r.val < n then 30 else 0 := by
    refine Finset.sum_lt_sum (fun r _ => ?_) ⟨i, Finset.mem_univ i, ?_⟩
    · cases hr : k.task r with
      | none =>
        rw [share_none hr]
        split <;> omega
      | some q =>
        rw [share_some hr, if_pos (hslot r (by rw [hr]; simp))]
        have := h.timed.counter r q hr
        split <;> omega
    · rw [share_some hp.1, if_pos rfl, if_pos hi]
      decide
  have hle := sum_slots_le 30 n
  unfold Kernel.wait Kernel.ahead
  split <;> split <;> omega

end Steps

theorem KernelRuns.steady {tr : List (Step Kernel KernelEvent)} {k : Kernel} (h : KernelRuns tr k) (hfed : ∀ st ∈ tr, ¬ Starved st) :
    Steady k := by
  obtain ⟨mm, hrun⟩ := h
  exact (hrun.restrict _ hfed).inv Steady (Steady.boot mm) fun k e k' hk hn => hk.next hn.1 hn.2

/-- A running task that is not current becomes so, with time left, before the timer has ticked more than 45 times for
each task there is, whatever else is called; only no fork may want for a page. -/
theorem KernelRuns.gets_turn {tr₀ tr : List (Step Kernel KernelEvent)} {k k' : Kernel} (h : KernelRuns tr₀ k)
    (hfed : ∀ st ∈ tr₀ ++ tr, ¬ Starved st) {i : Fin NR_TASKS} {p : TaskPtr} (hp : k.Runnable i p) (hrun : Run KernelNext k tr k')
    (hticks : 45 * k'.nr_tasks < ticks tr) : k.current = p ∨
      ∃ st ∈ tr, st.post.current = p ∧ st.post.Runnable i p ∧ 0 < (st.post.task_struct p).counter := by
  by_contra hno
  obtain ⟨hcur, hnever⟩ := not_or.1 hno
  have hsteady := h.steady fun st hst => hfed st (List.mem_append_left _ hst)
  have hstay : ∀ st ∈ tr, (¬ Starved st ∧ st.post.nr_tasks ≤ k'.nr_tasks) ∧
      ¬ (st.post.current = p ∧ st.post.Runnable i p ∧ 0 < (st.post.task_struct p).counter) := fun st hst =>
    ⟨⟨hfed st (List.mem_append_right _ hst), nr_tasks_run hrun st hst⟩, fun hturn => hnever ⟨st, hst, hturn⟩⟩
  -- As long as `p` waits, each tick takes 1 from what it waits for.
  obtain ⟨-, hcount⟩ := (hrun.restrict _ hstay).rank (fun k => Steady k ∧ k.Runnable i p ∧ k.current ≠ p)
    (fun k => k.wait k'.nr_tasks p) (fun st => st.event.isTick) ⟨hsteady, hp, hcur⟩ fun k e k' hk hn => by
      obtain ⟨hstep, ⟨hfed, hnr⟩, hturn⟩ := hn
      obtain ⟨hrunnable, hwait, hpos⟩ := hk.1.wait_next hk.2.1 hk.2.2 hstep hfed hnr
      exact ⟨⟨hk.1.next hstep hfed, hrunnable, fun hcur => hturn ⟨hcur, hrunnable, hpos hcur⟩⟩, hwait⟩
  have hnr : k.nr_tasks ≤ k'.nr_tasks :=
    hrun.inv (fun s => k.nr_tasks ≤ s.nr_tasks) le_rfl fun _ _ _ hle hn => hle.trans (nr_tasks_le hn)
  have hbound := hsteady.wait_le hp hnr
  unfold ticks at hticks
  omega

/-- The timer can go on ticking. -/
theorem exists_ticks (n : Nat) {k : Kernel} (ht : TaskInv k) (h : Timed k) :
    ∃ tr k', Run KernelNext k tr k' ∧ k'.nr_tasks = k.nr_tasks ∧ ticks tr = n ∧ ∀ st ∈ tr, ¬ Starved st := by
  induction n with
  | zero => exact ⟨[], k, .nil, rfl, rfl, by simp⟩
  | succ n ih =>
    obtain ⟨tr, k₁, hrun, hnr, hticks, hfed⟩ := ih
    have hinv := hrun.inv (fun k => TaskInv k ∧ Timed k) ⟨ht, h⟩ fun _ _ _ hk hn => ⟨hk.1.next hn, Timed.next hk.1 hk.2 hn⟩
    obtain ⟨k', hcall, -⟩ := timer_tick_returns hinv.1 hinv.2
    have hex : KernelCall.timer_tick.exec k₁ = .ok (none, k') := by
      rw [KernelCall.exec, hcall]
      rfl
    refine ⟨_, k', hrun.snoc (.call hex), ?_, ?_, fun st hst hstarved => ?_⟩
    · rcases timer_tick_spec hcall with hspec | hspec
      · exact hspec.nr_tasks.trans hnr
      · exact hspec.nr_tasks.trans hnr
    · unfold ticks at hticks ⊢
      rw [List.countP_append, hticks]
      rfl
    · rcases List.mem_append.1 hst with hst | hst
      · exact hfed st hst hstarved
      · obtain ⟨⟨_, _, _, _, heq⟩, -⟩ := hstarved
        rw [List.mem_singleton.1 hst] at heq
        cases heq

/-- A kernel thread made at boot has its turn within 91 ticks. -/
theorem gets_turn_boot : ∃ tr₀ k tr k' i p, KernelRuns tr₀ k ∧ Run KernelNext k tr k' ∧ ticks tr = 91 ∧ k.current ≠ p ∧
    ∃ st ∈ tr, st.post.current = p ∧ st.post.Runnable i p ∧ 0 < (st.post.task_struct p).counter := by
  have hpages : 0 < (bootKernel ⟨fun _ => 0, fun _ => 0⟩).toMm.free := by
    rw [Nat.pos_iff_ne_zero]
    exact fun hfree => Mm.free_eq_zero.1 hfree ⟨0, by decide⟩ rfl
  obtain ⟨k, hex, -, hnr⟩ := copy_process_kthread hpages (by decide)
  have hrun₀ : KernelRuns _ k := ⟨_, Run.nil.snoc (.call hex)⟩
  obtain ⟨⟨pid, k₁⟩, hcall, h₁⟩ := map_ok hex
  cases h₁
  rcases copy_process_spec hcall with ⟨hused, -⟩ | ⟨j, i, k₂, -, -, -, hf, hk⟩
  · exact absurd rfl (hused ⟨0, by decide⟩)
  · subst hk
    obtain ⟨tr, k', hrun, hnr', hticks, hfed⟩ := exists_ticks 91 hrun₀.taskInv hrun₀.timed
    have hslot : (preempt_enable k₂).task i = some (.page (pageAddr j)) := by
      show k₂.task i = _
      rw [hf.task, Function.update_self]
    have hcur : (preempt_enable k₂).current ≠ .page (pageAddr j) := by
      show k₂.current ≠ _
      rw [hf.current]
      simp [preempt_disable, bootKernel]
    refine ⟨_, _, tr, k', i, _, hrun₀, hrun, hticks, hcur, ?_⟩
    have hp : (preempt_enable k₂).Runnable i (.page (pageAddr j)) := ⟨hslot, (preempt_enable_state k₂ _).trans hf.state⟩
    refine (KernelRuns.gets_turn hrun₀ (fun st hst => ?_) hp hrun ?_).resolve_left hcur
    · rcases List.mem_append.1 hst with hst | hst
      · rw [List.mem_singleton.1 hst]
        exact fun hstarved => hstarved.2 ⟨0, by decide⟩ rfl
      · exact hfed st hst
    · rw [hnr', hnr, hticks]
      decide

end ClbFilesystem
