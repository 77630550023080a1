import ClbFilesystem.Nesting
/-!
# Turns between refills

A refill gives a task its priority in time at least, and only its own ticks and
its own calls take time from it. While it has some the scan finds some, so there
is no other refill before it has been current. There is a gap: the scan reads a
counter twice, for the test and for `c`, and ticks that come between lower the
counter of the current task.
-/

namespace ClbFilesystem

open Lib

/-! ## A task that waits -/

section Waits
variable (k : Kernel) (s : Fin NR_TASKS) (p : TaskPtr)

/-- `c` behind the slot of `p`, in front of `task[i]`: at least the priority of `p`, as long as the current task has
yet to come. -/
def Past (i : Nat) (c : Int) : Prop :=
  1 ≤ c ∧ ((∀ j, k.task j = some k.current → i ≤ j.val) → (k.task_struct p).priority ≤ c)

/-- `p` has the time a refill gives it. -/
def Kernel.HasTime : Prop := (k.task_struct p).priority ≤ (k.task_struct p).counter

/-- The time of `p`, in slot `s`, from a refill on, and what the innermost call knows of it. -/
def Frame.Keeps : Frame → Prop
  | .refill i => 0 ≤ (k.task_struct p).counter ∧ (s.val < i → k.HasTime p)
  | .refilled i q counter => 0 ≤ (k.task_struct p).counter ∧
      (s.val < i.val → k.HasTime p) ∧ (q = p → (k.task_struct p).priority ≤ counter)
  | .scan i c _ => k.HasTime p ∧ (s.val < i → Past k p i c)
  | .assign i c _ => k.HasTime p ∧ (s.val < i.val → Past k p i c)
  | .check c _ => k.HasTime p ∧ 1 ≤ c
  | _ => k.HasTime p

end Waits

structure Cpu.Waits (m : Cpu) (s : Fin NR_TASKS) (p : TaskPtr) : Prop where
  idle : m.calls = [] → m.kernel.HasTime p
  innermost : ∀ f rest, m.calls = f :: rest → f.Keeps m.kernel s p

/-- At most as many ticks come between the two reads of a counter as `p` has priority. -/
def Prompt (p : TaskPtr) (m : Cpu) : Prop :=
  ∀ i c next rest, m.calls = .assign i c next :: rest → (m.ticks : Int) ≤ (m.kernel.task_struct p).priority

section Waits
variable {m m' : Cpu} {k : Kernel} {s : Fin NR_TASKS} {p : TaskPtr} {f : Frame} {rest : List Frame}

theorem Kernel.HasTime.of_eq {k' : Kernel} (h : k.HasTime p) (hp : k'.task_struct p = k.task_struct p) : k'.HasTime p := by
  unfold Kernel.HasTime
  rw [hp]
  exact h

theorem Frame.keeps_of_hold (hf : f.hold = 0) (h : k.HasTime p) : f.Keeps k s p := by
  cases f <;> first | exact h | cases hf

theorem Frame.Keeps.hasTime (h : f.Keeps k s p) (hf : f.hold = 0) : k.HasTime p := by
  cases f <;> first | exact h | cases hf

theorem Frame.Keeps.of_eq {k' : Kernel} (h : f.Keeps k s p) (hp : k'.task_struct p = k.task_struct p) (htask : k'.task = k.task)
    (hcur : k'.current = k.current) : f.Keeps k' s p := by
  cases f <;> simp only [Frame.Keeps, Past, Kernel.HasTime, hp, htask, hcur] at h ⊢ <;> exact h

/-- The test fails for `task[i]`. -/
theorem Past.pass {i : Nat} (hi : i < NR_TASKS) {c : Int} (hp : k.task s = some p) (hrun : (k.task_struct p).state = .RUNNING)
    (hprio : 1 ≤ (k.task_struct p).priority) (hcounter : (k.task_struct p).priority ≤ (k.task_struct p).counter)
    (h : s.val < i → Past k p i c) (hb : ¬ k.better c ⟨i, hi⟩ = true) : s.val < i + 1 → Past k p (i + 1) c := by
  intro hs
  by_cases hsi : s.val < i
  · obtain ⟨hone, hle⟩ := h hsi
    exact ⟨hone, fun hcur => hle fun j hj => Nat.le_of_succ_le (hcur j hj)⟩
  · -- The slot is that of `p`, so `c` is its counter already, or more.
    have hslot : (⟨i, hi⟩ : Fin NR_TASKS) = s := Fin.ext (by simp only; omega)
    have hle : (k.task_struct p).counter ≤ c := by
      by_contra hlt
      exact hb (better_iff.2 ⟨p, hslot ▸ hp, hrun, by omega⟩)
    exact ⟨by omega, fun _ => by omega⟩

/-- The counter of `task[i]` becomes `c`. -/
theorem Past.take (h : m.Inv) {i : Fin NR_TASKS} {c : Int} {next : Fin NR_TASKS} (hcalls : m.calls = .assign i c next :: rest)
    (hp : m.kernel.task s = some p)
    (hcounter : (m.kernel.task_struct p).priority ≤ (m.kernel.task_struct p).counter) (hprompt : Prompt p m)
    (hpast : s.val < i.val → Past m.kernel p i c) : s.val < i.val + 1 → Past m.kernel p (i + 1) (m.kernel.counterOf i) := by
  intro hs
  obtain ⟨q, hq, hlt⟩ := h.innermost _ _ hcalls
  have hprio := h.priority s p hp
  have hticks := hprompt i c next rest hcalls
  by_cases hsi : s.val < i.val
  · obtain ⟨hone, hle⟩ := hpast hsi
    by_cases hqc : q = m.kernel.current
    · -- The current task: `c` may sink by the ticks, which leave 1 at least.
      rw [if_pos hqc] at hlt
      have hfar : (m.kernel.task_struct p).priority ≤ c := hle fun j hj => by
        rw [h.tasks.distinct i j q hq (hqc ▸ hj)]
      rw [h.fits.1.counterOf_eq hq (by omega)]
      exact ⟨by omega, fun hcur => by have := hcur i (hqc ▸ hq); omega⟩
    · rw [if_neg hqc] at hlt
      rw [h.fits.1.counterOf_eq hq (by omega)]
      exact ⟨by omega, fun hcur => by have := hle fun j hj => Nat.le_of_succ_le (hcur j hj); omega⟩
  · obtain rfl : i = s := Fin.ext (by omega)
    rw [h.fits.1.counterOf_eq hp (by omega)]
    exact ⟨by omega, fun _ => hcounter⟩

theorem Cpu.Waits.of_calls (hcalls : m.calls = f :: rest) (hf : f.Keeps m.kernel s p) : m.Waits s p := by
  refine ⟨fun hnil => ?_, fun g l hg => ?_⟩
  · cases hcalls.symm.trans hnil
  · obtain ⟨rfl, -⟩ := List.cons.inj (hcalls.symm.trans hg)
    exact hf

theorem Cpu.Waits.stay (h : m.Inv) (hcalls : m.calls = f :: rest) {k' : Kernel} {o : Option Frame}
    (hcur : k'.current = m.kernel.current) (ho : ∀ g, o = some g → g.Keeps k' s p)
    (hnone : o = none → k'.HasTime p) :
    (m.advance rest ⟨k', o, none⟩).Waits s p := by
  have hstacked := h.calls
  rw [hcalls] at hstacked
  have hcalls' : (m.advance rest ⟨k', o, none⟩).calls = o.toList ++ rest := by
    simp [Cpu.calls, Cpu.advance, hcur]
  cases o with
  | none =>
    refine ⟨fun _ => hnone rfl, fun g l hg => Frame.keeps_of_hold (hstacked.below g ?_) (hnone rfl)⟩
    rw [hcalls'] at hg
    have hg : rest = g :: l := hg
    simp [hg]
  | some g => exact .of_calls hcalls' (ho _ rfl)

/-- A step of the code that leaves `p` alone. -/
theorem Cpu.Waits.goes (h : m.Inv) (hcalls : m.calls = f :: rest) {k' : Kernel} {g : Frame}
    (hcur : k'.current = m.kernel.current) (hg : g.Keeps k' s p) : (m.advance rest ⟨k', some g, none⟩).Waits s p :=
  stay h hcalls hcur (by rintro _ ⟨⟩; exact hg) (by rintro ⟨⟩)

theorem Cpu.Waits.switch {next : Fin NR_TASKS} {q : TaskPtr} (h : m.Inv) (hq : m.kernel.task next = some q)
    (htime : m.kernel.HasTime p) : (m.advance rest ⟨switch_to q m.kernel, some (.enable false), none⟩).Waits s p := by
  obtain ⟨rest', hstack⟩ := h.switch_stack rest q hq
  obtain ⟨m', hm'⟩ : ∃ m', m' = m.advance rest ⟨switch_to q m.kernel, some (.enable false), none⟩ := ⟨_, rfl⟩
  rw [← hm'] at hstack ⊢
  have hkernel : m'.kernel = { m.kernel with current := q } := by
    rw [hm']
    exact switch_to_eq q m.kernel
  have hcalls : m'.calls = .enable false :: rest' := by
    rw [Cpu.calls, hkernel]
    exact hstack
  have htime' : m'.kernel.HasTime p := by
    rw [hkernel]
    exact htime
  exact .of_calls hcalls htime'

theorem Cpu.Waits.fork {k' : Kernel} {j : Fin PAGING_PAGES} {i : Fin NR_TASKS} (h : m.Inv) (hp : m.kernel.task s = some p)
    (hj : m.kernel.mem_map j = 0) (hf : Forked m.kernel k' j i) (htime : m.kernel.HasTime p) :
    (m.advance rest ⟨k', some (.enable false), some (.page (pageAddr j))⟩).Waits s p := by
  have hpj : p ≠ .page (pageAddr j) := fun he => h.tasks.fresh hj s (he ▸ hp)
  have hcur : m.kernel.current ≠ .page (pageAddr j) := h.tasks.current_ne hj
  have hcalls : (m.advance rest ⟨k', some (.enable false), some (.page (pageAddr j))⟩).calls = .enable false :: rest := by
    simp [Cpu.calls, Cpu.advance, hf.current, hcur.symm]
  have htime' : k'.HasTime p := htime.of_eq (hf.others p hpj)
  exact .of_calls hcalls htime'

/-- The code takes no time from `p` while it is not current. -/
theorem Cpu.Waits.code (h : m.Inv) (hw : m.Waits s p) (hp : m.kernel.task s = some p) (hne : p ≠ m.kernel.current)
    (hrun : (m.kernel.task_struct p).state = .RUNNING) (hprompt : Prompt p m) (hcalls : m.calls = f :: rest) {a : Advance}
    (hf : f.next m.kernel = .ok a) (hpage : ¬ NoPage ⟨m, .code, m.advance rest a⟩) : (m.advance rest a).Waits s p := by
  have hkeeps := hw.innermost f rest hcalls
  have hprio := h.priority s p hp
  -- A change of the current task is none of `p`.
  have hother : ∀ g : TaskStruct → TaskStruct, m.kernel.HasTime p → (m.kernel.modTask m.kernel.current g).HasTime p := by
    intro g htime
    refine htime.of_eq ?_
    rw [Kernel.modTask_task_struct, if_neg hne]
  cases f with
  | schedule =>
    cases hf
    exact goes h hcalls rfl (hother _ hkeeps)
  | disable b =>
    cases hf
    exact goes h hcalls rfl hkeeps
  | disabled b n =>
    cases hf
    refine goes h hcalls rfl ?_
    cases b with
    | _schedule => exact ⟨hother _ hkeeps, by rintro ⟨⟩⟩
    | exit_process => exact hother _ hkeeps
    | copy_process clone_flags fn arg => exact hother _ hkeeps
  | scan i c next =>
    obtain ⟨hcounter, hpast⟩ := hkeeps
    simp only [Frame.next] at hf
    split at hf
    · next hi =>
      cases hf
      by_cases hb : m.kernel.better c ⟨i, hi⟩ = true
      · rw [if_pos hb]
        exact goes h hcalls rfl ⟨hcounter, hpast⟩
      · rw [if_neg hb]
        exact goes h hcalls rfl ⟨hcounter, Past.pass hi hp hrun hprio hcounter hpast hb⟩
    · cases hf
      exact goes h hcalls rfl ⟨hcounter, (hpast (by omega)).1⟩
  | assign i c next =>
    obtain ⟨hcounter, hpast⟩ := hkeeps
    cases hf
    exact goes h hcalls rfl ⟨hcounter, Past.take h hcalls hp hcounter hprompt hpast⟩
  | check c next =>
    obtain ⟨hcounter, hc⟩ := hkeeps
    cases hf
    rw [if_pos (by omega)]
    exact goes h hcalls rfl hcounter
  | refill i =>
    obtain ⟨h0, hdone⟩ := hkeeps
    simp only [Frame.next] at hf
    split at hf
    · next hi =>
      split at hf
      · next q hq =>
        cases hf
        refine goes h hcalls rfl ⟨h0, hdone, ?_⟩
        rintro rfl
        rw [shiftRight_one]
        omega
      · next hnone =>
        cases hf
        refine goes h hcalls rfl ⟨h0, fun hs => hdone ?_⟩
        rcases Nat.lt_succ_iff_lt_or_eq.1 hs with hlt | rfl
        · exact hlt
        · rw [hp] at hnone
          cases hnone
    · cases hf
      exact goes h hcalls rfl ⟨hdone (by omega), by rintro ⟨⟩⟩
  | refilled i q counter =>
    obtain ⟨h0, hdone, hcounter⟩ := hkeeps
    obtain ⟨hq, -⟩ := h.innermost _ rest hcalls
    cases hf
    refine goes h hcalls rfl ?_
    show 0 ≤ ((m.kernel.modTask q _).task_struct p).counter ∧
      (_ → ((m.kernel.modTask q _).task_struct p).priority ≤ ((m.kernel.modTask q _).task_struct p).counter)
    simp only [Kernel.modTask_task_struct]
    by_cases hqp : p = q
    · have hle := hcounter hqp.symm
      rw [if_pos hqp]
      exact ⟨by show 0 ≤ counter; omega, fun _ => hle⟩
    · rw [if_neg hqp]
      refine ⟨h0, fun hs => hdone ?_⟩
      rcases Nat.lt_succ_iff_lt_or_eq.1 hs with hlt | heq
      · exact hlt
      · obtain rfl : s = i := Fin.ext heq
        rw [hp] at hq
        exact absurd (Option.some.inj hq) hqp
  | switch next =>
    simp only [Frame.next] at hf
    split at hf
    · cases hf
    · next q hq =>
      cases hf
      exact switch h hq hkeeps
  | exit_process =>
    cases hf
    refine goes h hcalls (markZombie_task _).2 ?_
    show (markZombie m.kernel).HasTime p
    unfold markZombie
    split
    · exact hother _ hkeeps
    · exact hkeeps
  | copy_process clone_flags fn arg =>
    rcases Frame.copy_process_cases hf with ⟨hused, -⟩ | ⟨j, i, k', hj, -, hforked, rfl⟩
    · exact absurd ⟨rfl, ⟨_, _, _, _, hcalls⟩, hused⟩ hpage
    · exact fork h hp hj hforked hkeeps
  | enable exits =>
    cases hf
    exact goes h hcalls rfl hkeeps
  | enabled exits n =>
    cases hf
    cases exits
    · exact stay h hcalls rfl (by rintro _ ⟨⟩) fun _ => hother _ hkeeps
    · exact goes h hcalls rfl (hother _ hkeeps)

/-- Between calls, and in a call that leaves preemption on, `p` has its time. -/
theorem Cpu.Waits.hasTime (h : m.Inv) (hw : m.Waits s p) (hcount : (m.kernel.task_struct m.kernel.current).preempt_count = 0) :
    m.kernel.HasTime p := by
  have hstacked := h.calls
  rw [hcount] at hstacked
  cases hcalls : m.calls with
  | nil => exact hw.idle hcalls
  | cons f rest => exact (hw.innermost f rest hcalls).hasTime (hstacked.all f (by rw [hcalls]; simp))

theorem Cpu.Waits.push (hw : m.kernel.HasTime p) (hf : f.Entry) : (m.push f).Waits s p := by
  have hcalls : (m.push f).calls = f :: m.calls := Function.update_self ..
  refine ⟨fun hnil => ?_, fun g rest hg => ?_⟩
  · cases hcalls.symm.trans hnil
  · obtain ⟨rfl, -⟩ := List.cons.inj (hcalls.symm.trans hg)
    rcases hf with rfl | ⟨b, rfl⟩ <;> exact hw

/-- A tick takes time from another task. -/
theorem Cpu.Waits.tick (h : m.Inv) (hw : m.Waits s p) (hne : p ≠ m.kernel.current) : m.tick.Waits s p := by
  have hother : ∀ (k : Kernel) (g : TaskStruct → Int), k.current = m.kernel.current →
      (k.modTask k.current fun t => { t with counter := g t }).task_struct p = k.task_struct p := by
    intro k g hcur
    rw [Kernel.modTask_task_struct, if_neg (hcur ▸ hne)]
  have hdown := hother m.kernel (fun t => t.counter - 1) rfl
  unfold Cpu.tick
  simp only
  split
  · exact ⟨fun hnil => Kernel.HasTime.of_eq (hw.idle hnil) hdown,
      fun f rest hf => (hw.innermost f rest hf).of_eq hdown rfl rfl⟩
  · next hlt =>
    have htime := hw.hasTime h (h.tick_count rfl hlt)
    exact Cpu.Waits.push ((htime.of_eq hdown).of_eq (hother _ (fun _ => 0) rfl)) (.inr ⟨_, rfl⟩)

/-- Until it is current, `p` keeps its time. -/
theorem Cpu.Waits.next (h : m.Inv) (hw : m.Waits s p) (hp : m.kernel.task s = some p) (hne : p ≠ m.kernel.current)
    (hrun : (m.kernel.task_struct p).state = .RUNNING) (hprompt : Prompt p m) {e : CpuEvent} (hn : CpuNext m e m')
    (hpage : ¬ NoPage ⟨m, e, m'⟩) : m'.Waits s p := by
  cases hn with
  | call hcalls hf => exact Cpu.Waits.push (hw.idle hcalls) hf
  | tick => exact hw.tick h hne
  | code hcalls hf => exact hw.code h hp hne hrun hprompt hcalls hf hpage
  | other hcalls hle => exact ⟨fun _ => hw.idle hcalls, fun f rest hf => by cases hcalls.symm.trans hf⟩

/-- At the beginning of a refill it is enough not to be behind. -/
theorem Cpu.Waits.start {next : Fin NR_TASKS} (h : m.Inv) (hcalls : m.calls = .check 0 next :: rest)
    (h0 : 0 ≤ (m.kernel.task_struct p).counter) (hn : CpuNext m .code m') : m'.Waits s p := by
  cases hn with
  | code hcalls' hf =>
    obtain ⟨rfl, rfl⟩ := List.cons.inj (hcalls'.symm.trans hcalls)
    cases hf
    exact Cpu.Waits.goes h hcalls rfl ⟨h0, by rintro ⟨⟩⟩

end Waits

/-! ## Two refills -/

/-- The second loop begins: the scan has come out with `c = 0`. -/
def Refills (st : Step Cpu CpuEvent) : Prop := st.event = .code ∧ ∃ next rest, st.pre.calls = .check 0 next :: rest

/-- Two refills of a run, with no other between. -/
structure Refilled (tr : List (Step Cpu CpuEvent)) (st₁ : Step Cpu CpuEvent) (mid : List (Step Cpu CpuEvent))
    (st₂ : Step Cpu CpuEvent) : Prop where
  steps : ∃ l r, tr = l ++ st₁ :: (mid ++ st₂ :: r)
  first : Refills st₁
  second : Refills st₂
  next : ∀ st ∈ mid, ¬ Refills st

/-- From one refill to the next every task that is running, and was not behind with its time, has been current, if
not more ticks than it has priority come between two reads of a counter. -/
theorem Cpu.AtRest.served {m₀ m : Cpu} (h : m₀.AtRest) (hfits : m₀.kernel.Fits) {tr : List (Step Cpu CpuEvent)}
    (hrun : Run CpuNext m₀ tr m) (hpage : ∀ st ∈ tr, ¬ NoPage st) {st₁ st₂ : Step Cpu CpuEvent} {mid : List (Step Cpu CpuEvent)}
    (hi : Refilled tr st₁ mid st₂) {s : Fin NR_TASKS} {p : TaskPtr} (hp : st₁.pre.kernel.task s = some p)
    (hcounter : 0 ≤ (st₁.pre.kernel.task_struct p).counter)
    (hrunning : ∀ st ∈ st₁ :: (mid ++ [st₂]), (st.pre.kernel.task_struct p).state = .RUNNING)
    (hprompt : ∀ st ∈ mid, Prompt p st.pre) : ∃ st ∈ st₁ :: (mid ++ [st₂]), st.pre.kernel.current = p := by
  by_contra hno
  have haway : ∀ st ∈ st₁ :: (mid ++ [st₂]), p ≠ st.pre.kernel.current := fun st hst he => hno ⟨st, hst, he.symm⟩
  obtain ⟨⟨l, r, rfl⟩, ⟨hcode, next, rest, hcalls⟩, ⟨-, next₂, rest₂, hcalls₂⟩, -⟩ := hi
  have hrun' := hrun.restrict _ hpage
  have hinv := h.inv_of_mem hfits hrun hpage st₁ (by simp)
  -- From the first refill on `p` has its slot and its time.
  have hwaits := hrun'.between (fun m => m.Inv ∧ m.kernel.task s = some p ∧ m.Waits s p)
    (fun hn => ⟨hinv.next hn.1 hn.2, hinv.task_stays hn.1 hp, .start hinv hcalls hcounter (hcode ▸ hn.1)⟩)
    (fun st hst hm hn => ⟨hm.1.next hn.1 hn.2, hm.1.task_stays hn.1 hm.2.1,
      hm.2.2.next hm.1 hm.2.1 (haway st (by simp [hst])) (hrunning st (by simp [hst])) (hprompt st hst) hn.1 hn.2⟩)
  obtain ⟨-, hlt⟩ := hwaits.2.2.innermost _ _ hcalls₂
  omega

/-! ## Two tasks -/

/-- A running task that was not behind is not current from one refill to the next. -/
def Skipped (tr : List (Step Cpu CpuEvent)) : Prop :=
  ∃ st₁ mid st₂ s p, Refilled tr st₁ mid st₂ ∧ st₁.pre.kernel.task s = some p ∧ 0 ≤ (st₁.pre.kernel.task_struct p).counter ∧
    ∀ st ∈ st₁ :: (mid ++ [st₂]), (st.pre.kernel.task_struct p).state = .RUNNING ∧ st.pre.kernel.current ≠ p

/-- Two tasks without time, in slots 0 and 1, of priority `a` and `b`. -/
def twoTasks (a b : Int) (cur : TaskPtr) : Cpu where
  kernel :=
    { toMm := ⟨fun _ => 0, fun _ => 1⟩
      task_struct := fun p => { TaskStruct.zero with
        priority := if p = .init_task then a else b
        preempt_count := if p = cur then 0 else 1 }
      pt_regs := fun _ => .zero
      task := fun i => if i.val = 0 then some .init_task else if i.val = 1 then some (.page (pageAddr 0)) else none
      nr_tasks := 2
      current := cur }
  stack q := if q = cur then [] else [.enable false]
  ticks := 0

section TwoTasks
variable {a b : Int} {cur : TaskPtr}

theorem twoTasks_task {i : Fin NR_TASKS} {p : TaskPtr} (h : (twoTasks a b cur).kernel.task i = some p) :
    i.val = 0 ∧ p = .init_task ∨ i.val = 1 ∧ p = .page (pageAddr 0) := by
  simp only [twoTasks] at h
  split at h
  · next hi =>
    cases h
    exact .inl ⟨hi, rfl⟩
  · split at h
    · next hi =>
      cases h
      exact .inr ⟨hi, rfl⟩
    · cases h

theorem twoTasks_atRest (ha : 1 ≤ a) (hb : 1 ≤ b) (hcur : ∃ i, (twoTasks a b cur).kernel.task i = some cur) :
    (twoTasks a b cur).AtRest := by
  refine ⟨⟨rfl, fun i => ?_, fun i j p hi hj => ?_, fun i n hi => ?_, hcur⟩, ⟨?_, fun i p _ hne => ?_⟩,
    ⟨?_, fun i p _ hne => ?_⟩, fun i p hp => ?_⟩
  · show (twoTasks a b cur).kernel.task i ≠ none ↔ i.val < 2
    simp only [twoTasks]
    split
    · simp_all
    · split
      · simp_all
      · simp_all
        omega
  · rcases twoTasks_task hi with ⟨hi₀, rfl⟩ | ⟨hi₁, rfl⟩ <;> rcases twoTasks_task hj with ⟨hj₀, heq⟩ | ⟨hj₁, heq⟩
    · exact Fin.ext (hi₀.trans hj₀.symm)
    · cases heq
    · cases heq
    · exact Fin.ext (hi₁.trans hj₁.symm)
  · rcases twoTasks_task hi with ⟨-, heq⟩ | ⟨-, heq⟩
    · cases heq
    · cases heq
      exact ⟨⟨0, by decide⟩, rfl, (by decide : (1 : UInt16) ≠ 0)⟩
  · exact if_pos rfl
  · exact if_neg hne
  · exact if_pos rfl
  · exact if_neg hne
  · show 1 ≤ if p = .init_task then a else b
    split
    · exact ha
    · exact hb

end TwoTasks

/-- `p` is running, and no refill begins and no task is made. -/
structure Unmoved (p : TaskPtr) (m : Cpu) : Prop where
  running : (m.kernel.task_struct p).state = .RUNNING
  plain : ∀ f rest, m.calls = f :: rest → f.Plain

/-- The same, of a task that is not current. -/
structure Beside (p : TaskPtr) (m : Cpu) : Prop extends Unmoved p m where
  away : m.kernel.current ≠ p

section Beside
variable {p : TaskPtr} {m₀ m m' : Cpu} {k : Kernel} {st : Step Cpu CpuEvent}

theorem Unmoved.calm (hrun : (k.task_struct p).state = .RUNNING) : Calm (Unmoved p) k := by
  intro m f rest hk hcalls hf
  refine ⟨(hk.state p).trans hrun, fun g l hg => ?_⟩
  obtain ⟨rfl, -⟩ := List.cons.inj (hcalls.symm.trans hg)
  exact hf

theorem Beside.calm (hrun : (k.task_struct p).state = .RUNNING) (hne : k.current ≠ p) : Calm (Beside p) k :=
  fun m f rest hk hcalls hf => ⟨Unmoved.calm hrun m f rest hk hcalls hf, hk.current ▸ hne⟩

theorem Unmoved.not_refills (h : Unmoved p st.pre) : ¬ Refills st := by
  rintro ⟨-, next, rest, hcalls⟩
  exact h.plain _ rest hcalls rfl

theorem Unmoved.not_noPage (h : Unmoved p st.pre) : ¬ NoPage st := by
  rintro ⟨-, ⟨clone_flags, fn, arg, rest, hcalls⟩, -⟩
  exact h.plain _ rest hcalls

theorem check_not_noPage {next : Fin NR_TASKS} {rest : List Frame} (hcalls : st.pre.calls = .check 0 next :: rest) : ¬ NoPage st := by
  rintro ⟨-, ⟨clone_flags, fn, arg, rest', hcalls'⟩, -⟩
  cases hcalls.symm.trans hcalls'

/-- The first call of `schedule`, up to the first test of `c`. -/
theorem Cpu.Idle.schedule_first {Q : Cpu → Prop} (h : m.Idle)
    (hk : k = m.kernel.modTask m.kernel.current fun t => { t with counter := 0 })
    (hQ : Calm Q m.kernel) : ∃ m₁ m', CpuNext m (.call .schedule) m₁ ∧ Goes Q m₁ m' ∧
      Stands m' (preempt_disable k) [.check (scan (preempt_disable k)).1 (scan (preempt_disable k)).2] m.stack := by
  have h₁ : Stands (m.push .schedule) m.kernel [.schedule] m.stack := by
    refine ⟨rfl, ?_, fun q hq => ?_⟩
    · rw [Cpu.calls, Cpu.push, h.calls]
      exact Function.update_self ..
    · simp only [Cpu.push, Function.update_of_ne hq]
  obtain ⟨m₂, hgoes₂, h₂⟩ := h₁.code rfl rfl (h₁.calm hQ trivial)
  rw [← hk] at h₂
  obtain ⟨m₃, hgoes₃, h₃⟩ := h₂.first_run (hQ.alike (hk ▸ Alike.modTask _ _ _ fun _ => rfl))
  exact ⟨_, m₃, .call h.calls (.inl rfl), hgoes₂.trans hgoes₃, h₃⟩

/-- Two refills with a stretch between them in which none begins. -/
theorem Refilled.intro {a b c d : Cpu} {l mid : List (Step Cpu CpuEvent)} {n n' : Fin NR_TASKS} {rest rest' : List Frame}
    (hl : Run CpuNext m₀ l a) (ha : a.calls = .check 0 n :: rest) (hab : CpuNext a .code b) (hmid : Run CpuNext b mid c)
    (hunmoved : ∀ st ∈ mid, Unmoved p st.pre) (hc : c.calls = .check 0 n' :: rest') (hcd : CpuNext c .code d) :
    Run CpuNext m₀ (l ++ ⟨a, .code, b⟩ :: (mid ++ [⟨c, .code, d⟩])) d ∧
      Refilled (l ++ ⟨a, .code, b⟩ :: (mid ++ [⟨c, .code, d⟩])) ⟨a, .code, b⟩ mid ⟨c, .code, d⟩ := by
  constructor
  · have hrun := (hl.snoc hab).append (hmid.snoc hcd)
    simpa using hrun
  · exact ⟨⟨l, [], rfl⟩, ⟨rfl, n, rest, ha⟩, ⟨rfl, n', rest', hc⟩, fun st hst => (hunmoved st hst).not_refills⟩

/-- Between two refills `p` is only beside. -/
theorem Skipped.intro {a b c d : Cpu} {l mid : List (Step Cpu CpuEvent)} {n n' : Fin NR_TASKS} {rest rest' : List Frame}
    {s : Fin NR_TASKS} (hl : Run CpuNext m₀ l a) (ha : a.calls = .check 0 n :: rest) (hab : CpuNext a .code b)
    (hmid : Run CpuNext b mid c) (hbeside : ∀ st ∈ mid, Beside p st.pre) (hc : c.calls = .check 0 n' :: rest')
    (hcd : CpuNext c .code d) (hp : a.kernel.task s = some p) (hcounter : 0 ≤ (a.kernel.task_struct p).counter)
    (harun : (a.kernel.task_struct p).state = .RUNNING) (hcrun : (c.kernel.task_struct p).state = .RUNNING)
    (hane : a.kernel.current ≠ p) (hcne : c.kernel.current ≠ p) :
    Run CpuNext m₀ (l ++ ⟨a, .code, b⟩ :: (mid ++ [⟨c, .code, d⟩])) d ∧
      Skipped (l ++ ⟨a, .code, b⟩ :: (mid ++ [⟨c, .code, d⟩])) := by
  obtain ⟨hrun, hfilled⟩ := Refilled.intro hl ha hab hmid (fun st hst => (hbeside st hst).toUnmoved) hc hcd
  refine ⟨hrun, ⟨a, .code, b⟩, mid, ⟨c, .code, d⟩, s, p, hfilled, hp, hcounter, fun st hst => ?_⟩
  rcases List.mem_cons.1 hst with rfl | hst
  · exact ⟨harun, hane⟩
  · rcases List.mem_append.1 hst with hst | hst
    · exact ⟨(hbeside st hst).running, (hbeside st hst).away⟩
    · obtain rfl := List.mem_singleton.1 hst
      exact ⟨hcrun, hcne⟩

end Beside

/-- The two tasks, up to the first refill of a `schedule`; what it looks at is `k`. -/
theorem twoTasks_first {a b : Int} {cur p : TaskPtr} {k : Kernel} (h : (twoTasks a b cur).AtRest) (hne : cur ≠ p)
    (hk : k = preempt_disable ((twoTasks a b cur).kernel.modTask cur fun t => { t with counter := 0 })) (hc : (scan k).1 = 0) :
    ∃ l m, Run CpuNext (twoTasks a b cur) l m ∧ (∀ st ∈ l, ¬ NoPage st ∧ st.event ≠ .tick) ∧
      Stands m k [.check 0 (scan k).2] (twoTasks a b cur).stack ∧ (k.task_struct p).state = .RUNNING ∧ k.current ≠ p ∧
      (k.task_struct p).counter = 0 := by
  obtain ⟨m₁, m₂, hcall, ⟨l, hl, hcode⟩, h₂⟩ := h.idle.schedule_first rfl (Beside.calm (p := p) rfl hne)
  have hkeep : (k.task_struct p).state = .RUNNING ∧ (k.task_struct p).counter = 0 := by
    rw [hk, preempt_disable]
    simp only [Kernel.modTask_task_struct, Kernel.modTask_current]
    split <;> split <;> exact ⟨rfl, rfl⟩
  have h₂ : Stands m₂ k [.check (scan k).1 (scan k).2] (twoTasks a b cur).stack := hk ▸ h₂
  rw [hc] at h₂
  refine ⟨[⟨_, .call .schedule, m₁⟩] ++ l, m₂, (Run.nil.snoc hcall).append hl, fun st hst => ?_, h₂, hkeep.1, hk ▸ hne, hkeep.2⟩
  rcases List.mem_append.1 hst with hst | hst
  · obtain rfl := List.mem_singleton.1 hst
    exact ⟨by rintro ⟨⟨⟩, -⟩, by rintro ⟨⟩⟩
  · obtain ⟨hevent, hbeside⟩ := hcode st hst
    exact ⟨hbeside.not_noPage, by rw [hevent]; rintro ⟨⟩⟩

/-- Two tasks, the second of a priority that is 0 as an `int`: without any tick it is skipped. -/
theorem skipped_wide : ∃ m₀ tr m, m₀.AtRest ∧ Run CpuNext m₀ tr m ∧ (∀ st ∈ tr, ¬ NoPage st ∧ st.event ≠ .tick) ∧ Skipped tr := by
  have hrest : (twoTasks 1 (2 ^ 32) .init_task).AtRest := twoTasks_atRest (by decide) (by decide) ⟨⟨0, by decide⟩, rfl⟩
  obtain ⟨k, hk⟩ : ∃ k, k = preempt_disable ((twoTasks 1 (2 ^ 32) .init_task).kernel.modTask .init_task
    fun t => { t with counter := 0 }) := ⟨_, rfl⟩
  have hc₁ : (scan k).1 = 0 := by
    rw [hk]
    decide +kernel
  have hc₂ : (scan (refill k)).1 = 0 := by
    rw [hk]
    decide +kernel
  obtain ⟨l, m₁, hl, hplain, h₁, hrun, hne, hcount⟩ := twoTasks_first hrest (p := .page (pageAddr 0)) (by decide) hk hc₁
  obtain ⟨m₂, m₃, hnext, ⟨mid, hmid, hcode⟩, h₃⟩ := h₁.again (Beside.calm hrun hne)
  rw [hc₂] at h₃
  have hsame := (SameButCounters.refill k).alike
  have htask : m₁.kernel.task ⟨1, by decide⟩ = some (.page (pageAddr 0)) := by
    rw [h₁.kernel, hk]
    rfl
  obtain ⟨hrun', hskipped⟩ := Skipped.intro hl h₁.calls hnext hmid (fun st hst => (hcode st hst).2) h₃.calls (.code h₃.calls rfl) htask
    (by rw [h₁.kernel, hcount]) (by rw [h₁.kernel]; exact hrun) (by rw [h₃.kernel, hsame.state]; exact hrun)
    (by rw [h₁.kernel]; exact hne) (by rw [h₃.kernel, hsame.current]; exact hne)
  refine ⟨_, _, _, hrest, hrun', fun st hst => ?_, hskipped⟩
  rcases List.mem_append.1 hst with hst | hst
  · exact hplain st hst
  · rcases List.mem_cons.1 hst with rfl | hst
    · exact ⟨check_not_noPage h₁.calls, by rintro ⟨⟩⟩
    · rcases List.mem_append.1 hst with hst | hst
      · obtain ⟨hevent, hbeside⟩ := hcode st hst
        exact ⟨hbeside.not_noPage, by rw [hevent]; rintro ⟨⟩⟩
      · obtain rfl := List.mem_singleton.1 hst
        exact ⟨check_not_noPage h₃.calls, by rintro ⟨⟩⟩

/-- A tick that finds time left, or preemption off, takes some of the time. -/
theorem Stands.tick {m : Cpu} {k : Kernel} {l : List Frame} {S : TaskPtr → List Frame} (h : Stands m k l S)
    (hstay : 0 < (k.task_struct k.current).preempt_count) :
    Stands m.tick (k.modTask k.current fun t => { t with counter := t.counter - 1 }) l S := by
  obtain ⟨rfl, hcalls, hothers⟩ := h
  have hcount : 0 < ((m.kernel.modTask m.kernel.current fun t => { t with counter := t.counter - 1 }).task_struct
      m.kernel.current).preempt_count := by
    rw [Kernel.modTask_task_struct, if_pos rfl]
    exact hstay
  unfold Cpu.tick
  simp only
  rw [if_pos (.inr hcount)]
  exact ⟨rfl, hcalls, hothers⟩

/-- Two tasks of priority 1 and 2: the two ticks between the two reads of the counter of the second take all of its
time, and the first is skipped. -/
theorem skipped_ticks : ∃ m₀ tr m, m₀.AtRest ∧ m₀.kernel.Fits ∧ Run CpuNext m₀ tr m ∧ (∀ st ∈ tr, ¬ NoPage st) ∧ Skipped tr := by
  have hrest : (twoTasks 1 2 (.page (pageAddr 0))).AtRest := twoTasks_atRest (by decide) (by decide) ⟨⟨1, by decide⟩, rfl⟩
  obtain ⟨k, hk⟩ : ∃ k, k = preempt_disable ((twoTasks 1 2 (.page (pageAddr 0))).kernel.modTask (.page (pageAddr 0))
    fun t => { t with counter := 0 }) := ⟨_, rfl⟩
  obtain ⟨k₂, hk₂⟩ : ∃ k₂, k₂ = (refill k).modTask (refill k).current fun t => { t with counter := t.counter - 1 } := ⟨_, rfl⟩
  obtain ⟨k₃, hk₃⟩ : ∃ k₃, k₃ = k₂.modTask k₂.current fun t => { t with counter := t.counter - 1 } := ⟨_, rfl⟩
  have hc₁ : (scan k).1 = 0 := by
    rw [hk]
    decide +kernel
  have hbetter : (refill k).better (-1) ⟨0, by decide⟩ = true ∧ (refill k).counterOf ⟨0, by decide⟩ = 1 ∧
      (refill k).better 1 ⟨1, by decide⟩ = true := by
    rw [hk]
    decide +kernel
  have hcounts : 0 < ((refill k).task_struct (refill k).current).preempt_count ∧ 0 < (k₂.task_struct k₂.current).preempt_count := by
    rw [hk₂, hk]
    decide +kernel
  have hc₂ : (((List.finRange NR_TASKS).drop 2).foldl (scanStep k₃) (k₃.counterOf ⟨1, by decide⟩, ⟨1, by decide⟩)).1 = 0 := by
    rw [hk₃, hk₂, hk]
    decide +kernel
  obtain ⟨l, m₁, hl, hplain, h₁, hrun, hne, hcount⟩ := twoTasks_first hrest (p := .init_task) (by decide) hk hc₁
  have hcalm : Calm (Beside .init_task) k := Beside.calm hrun hne
  have hcalm₁ := hcalm.alike (SameButCounters.refill k).alike
  have hdown : ∀ k : Kernel, Alike k (k.modTask k.current fun t => { t with counter := t.counter - 1 }) :=
    fun k => Alike.modTask k _ _ fun _ => rfl
  have hcalm₂ : Calm (Beside .init_task) k₂ := hcalm₁.alike (hk₂ ▸ hdown _)
  have hcalm₃ : Calm (Beside .init_task) k₃ := hcalm₂.alike (hk₃ ▸ hdown _)
  -- The refill, and the scan up to the second read of the counter of the current task.
  obtain ⟨m₂, hnext, h₂⟩ := h₁.check_zero
  obtain ⟨m₃, hgoes₃, h₃⟩ := h₂.refill_run hcalm
  have h₃ : Stands m₃ (refill k) [.scan 0 (-1) ⟨0, by decide⟩] _ := h₃
  obtain ⟨m₄, hgoes₄, h₄⟩ := h₃.code (g := .assign ⟨0, by decide⟩ (-1) ⟨0, by decide⟩)
    (by simp only [Frame.next]; rw [dif_pos (by decide), if_pos hbetter.1]) rfl (h₃.calm hcalm₁ trivial)
  obtain ⟨m₅, hgoes₅, h₅⟩ := h₄.code rfl rfl (h₄.calm hcalm₁ trivial)
  rw [hbetter.2.1] at h₅
  obtain ⟨m₆, hgoes₆, h₆⟩ := h₅.code (g := .assign ⟨1, by decide⟩ 1 ⟨0, by decide⟩)
    (by simp only [Frame.next]; rw [dif_pos (by decide), if_pos hbetter.2.2]) rfl (h₅.calm hcalm₁ trivial)
  -- Two ticks.
  have h₇ := h₆.tick hcounts.1
  rw [← hk₂] at h₇
  have h₈ := h₇.tick hcounts.2
  rw [← hk₃] at h₈
  -- The rest of the scan.
  obtain ⟨m₉, hgoes₉, h₉⟩ := h₈.code rfl rfl (h₈.calm hcalm₃ trivial)
  obtain ⟨m₁₀, hgoes₁₀, h₁₀⟩ := h₉.scan_run hcalm₃
  rw [hc₂] at h₁₀
  obtain ⟨mid₁, hmid₁, hcode₁⟩ := hgoes₃.trans (hgoes₄.trans (hgoes₅.trans hgoes₆))
  obtain ⟨mid₂, hmid₂, hcode₂⟩ := hgoes₉.trans hgoes₁₀
  have hmid := ((hmid₁.snoc .tick).snoc .tick).append hmid₂
  have hbeside : ∀ st ∈ mid₁ ++ [⟨m₆, .tick, m₆.tick⟩] ++ [⟨m₆.tick, .tick, m₆.tick.tick⟩] ++ mid₂, Beside .init_task st.pre := by
    intro st hst
    simp only [List.mem_append, List.mem_singleton] at hst
    rcases hst with ((hst | rfl) | rfl) | hst
    · exact (hcode₁ st hst).2
    · exact h₆.calm hcalm₁ trivial
    · exact h₇.calm hcalm₂ trivial
    · exact (hcode₂ st hst).2
  have htask : m₁.kernel.task ⟨0, by decide⟩ = some .init_task := by
    rw [h₁.kernel, hk]
    rfl
  have hlast : Beside .init_task m₉ := h₉.calm hcalm₃ trivial
  have hlast : (k₃.task_struct .init_task).state = .RUNNING ∧ k₃.current ≠ .init_task := by
    rw [← h₉.kernel]
    exact ⟨hlast.running, hlast.away⟩
  obtain ⟨hrun', hskipped⟩ := Skipped.intro hl h₁.calls hnext hmid hbeside h₁₀.calls (.code h₁₀.calls rfl) htask
    (by rw [h₁.kernel, hcount]) (by rw [h₁.kernel]; exact hrun) (by rw [h₁₀.kernel]; exact hlast.1)
    (by rw [h₁.kernel]; exact hne) (by rw [h₁₀.kernel]; exact hlast.2)
  refine ⟨_, _, _, hrest, ⟨fun i p hp => ?_, fun i p hp => ?_⟩, hrun', fun st hst => ?_, hskipped⟩
  · exact (by decide : (0 : Int) < 2 ^ 31)
  · show (if p = .init_task then (1 : Int) else 2) ≤ 2 ^ 30
    split <;> decide
  · rcases List.mem_append.1 hst with hst | hst
    · exact (hplain st hst).1
    · rcases List.mem_cons.1 hst with rfl | hst
      · exact check_not_noPage h₁.calls
      · rcases List.mem_append.1 hst with hst | hst
        · exact (hbeside st hst).not_noPage
        · obtain rfl := List.mem_singleton.1 hst
          exact check_not_noPage h₁₀.calls

/-- Without a tick the count of the ticks stays at 0. -/
theorem run_ticks {m m' : Cpu} {tr : List (Step Cpu CpuEvent)} (hrun : Run CpuNext m tr m') (hm : m.ticks = 0)
    (htick : ∀ st ∈ tr, st.event ≠ .tick) : ∀ st ∈ tr, st.pre.ticks = 0 := by
  intro st hst
  obtain ⟨_, hpre, -⟩ := (hrun.restrict _ htick).of_mem st hst
  refine hpre.inv (fun m => m.ticks = 0) hm fun m e m' h0 hn => ?_
  obtain ⟨hnext, hevent⟩ := hn
  cases hnext with
  | call => exact h0
  | tick => exact absurd rfl hevent
  | code => rfl
  | other => exact h0

/-- There are runs in which a task is skipped: ticks that come between two reads of a counter make one, and so does
a counter the scan does not keep. -/
theorem served_fails :
    (∃ m₀ tr m, m₀.AtRest ∧ m₀.kernel.Fits ∧ Run CpuNext m₀ tr m ∧ (∀ st ∈ tr, ¬ NoPage st) ∧ Skipped tr) ∧
    ∃ m₀ tr m, m₀.AtRest ∧ Run CpuNext m₀ tr m ∧ (∀ st ∈ tr, ¬ NoPage st ∧ st.event ≠ .tick) ∧ Skipped tr :=
  ⟨skipped_ticks, skipped_wide⟩

/-- Two tasks of priority 1 and 2: the refill in the first call of `schedule` gives the turn to the second task, whose
own call gives it back, and the third call begins the next refill. -/
theorem served_two : ∃ tr m st₁ mid st₂, Run CpuNext (twoTasks 1 2 .init_task) tr m ∧ Refilled tr st₁ mid st₂ ∧
    ∃ st ∈ st₁ :: (mid ++ [st₂]), st.pre.kernel.current = .page (pageAddr 0) := by
  obtain ⟨m₀, hm₀⟩ : ∃ m₀, m₀ = twoTasks 1 2 .init_task := ⟨_, rfl⟩
  have hrest : m₀.AtRest := hm₀ ▸ twoTasks_atRest (by decide) (by decide) ⟨⟨0, by decide⟩, rfl⟩
  obtain ⟨k, hk⟩ : ∃ k, k = preempt_disable (m₀.kernel.modTask m₀.kernel.current fun t => { t with counter := 0 }) := ⟨_, rfl⟩
  obtain ⟨k₂, hk₂⟩ : ∃ k₂, k₂ = preempt_enable (switch_to (.page (pageAddr 0)) (refill k)) := ⟨_, rfl⟩
  obtain ⟨k₃, hk₃⟩ : ∃ k₃, k₃ = preempt_disable (k₂.modTask k₂.current fun t => { t with counter := 0 }) := ⟨_, rfl⟩
  obtain ⟨k₄, hk₄⟩ : ∃ k₄, k₄ = preempt_enable (switch_to .init_task k₃) := ⟨_, rfl⟩
  obtain ⟨k₅, hk₅⟩ : ∃ k₅, k₅ = preempt_disable (k₄.modTask k₄.current fun t => { t with counter := 0 }) := ⟨_, rfl⟩
  have hscan : (scan k).1 = 0 ∧ scan (refill k) = (2, ⟨1, by decide⟩) ∧ scan k₃ = (1, ⟨0, by decide⟩) ∧ (scan k₅).1 = 0 := by
    rw [hk₅, hk₄, hk₃, hk₂, hk, hm₀]
    decide +kernel
  have htask : k.task ⟨1, by decide⟩ = some (.page (pageAddr 0)) ∧ (refill k).task ⟨1, by decide⟩ = some (.page (pageAddr 0)) ∧
      k₃.task ⟨0, by decide⟩ = some .init_task ∧ (k.task_struct (.page (pageAddr 0))).counter = 0 := by
    rw [hk₃, hk₂, hk, hm₀]
    decide +kernel
  -- Nobody leaves the state in which the second task is running.
  have calm : ∀ {k' : Kernel}, (k'.task_struct (.page (pageAddr 0))).state = .RUNNING → Calm (Unmoved (.page (pageAddr 0))) k' :=
    Unmoved.calm
  have hstate : ∀ k' ∈ [m₀.kernel, k, refill k, switch_to (.page (pageAddr 0)) (refill k), k₂, k₃, switch_to .init_task k₃, k₄, k₅],
      (k'.task_struct (.page (pageAddr 0))).state = .RUNNING := by
    rw [hk₅, hk₄, hk₃, hk₂, hk, hm₀]
    decide +kernel
  -- The first call, up to the refill, and on to the second task.
  obtain ⟨m₁, m₂, hcall₁, ⟨l, hl, hl'⟩, h₂⟩ := hrest.idle.schedule_first rfl (calm (hstate _ (by simp)))
  rw [← hk, hscan.1] at h₂
  obtain ⟨m₃, m₄, hnext, hgoes₄, h₄⟩ := h₂.again (calm (hstate _ (by simp)))
  rw [hscan.2.1] at h₄
  have hwait : Waiting m₀.kernel m₀.stack := hrest.idle.others
  have hwait : Waiting (refill k) m₀.stack := by
    refine hwait.alike (Alike.trans ?_ (SameButCounters.refill k).alike)
    rw [hk]
    exact Alike.stop _
  obtain ⟨m₅, hgoes₅, hidle₅, hkernel₅⟩ := h₄.found_run (by decide) htask.2.1 hwait (calm (hstate _ (by simp)))
    (calm (hstate _ (by simp)))
  rw [← hk₂] at hkernel₅
  -- The call of the second task, and on to the first.
  obtain ⟨m₆, m₇, hcall₆, hgoes₇, h₇⟩ := hidle₅.schedule_first rfl (calm (hkernel₅ ▸ hstate k₂ (by simp)))
  rw [hkernel₅, ← hk₃, hscan.2.2.1] at h₇
  have hwait₃ : Waiting k₃ m₅.stack := by
    have hwait₅ : Waiting k₂ m₅.stack := hkernel₅ ▸ hidle₅.others
    refine hwait₅.alike ?_
    rw [hk₃]
    exact Alike.stop _
  obtain ⟨m₈, hgoes₈, hidle₈, hkernel₈⟩ := h₇.found_run (by decide) htask.2.2.1 hwait₃ (calm (hstate _ (by simp)))
    (calm (hstate _ (by simp)))
  rw [← hk₄] at hkernel₈
  -- The second call of the first task, up to the next refill.
  obtain ⟨m₉, m₁₀, hcall₉, hgoes₁₀, h₁₀⟩ := hidle₈.schedule_first rfl (calm (hkernel₈ ▸ hstate k₄ (by simp)))
  rw [hkernel₈, ← hk₅, hscan.2.2.2] at h₁₀
  obtain ⟨mid₁, hmid₁, hcode₁⟩ := hgoes₄.trans hgoes₅
  obtain ⟨mid₂, hmid₂, hcode₂⟩ := hgoes₇.trans hgoes₈
  obtain ⟨mid₃, hmid₃, hcode₃⟩ := hgoes₁₀
  obtain ⟨m₁₁, hlast⟩ : ∃ m₁₁, CpuNext m₁₀ .code m₁₁ := ⟨_, .code h₁₀.calls rfl⟩
  obtain ⟨mid, hmid'⟩ : ∃ mid, mid = (mid₁ ++ [⟨m₅, .call .schedule, m₆⟩] ++ mid₂) ++ [⟨m₈, .call .schedule, m₉⟩] ++ mid₃ := ⟨_, rfl⟩
  have hmid := (((hmid₁.snoc hcall₆).append hmid₂).snoc hcall₉).append hmid₃
  rw [← hmid'] at hmid
  have hunmoved : ∀ st ∈ mid, Unmoved (.page (pageAddr 0)) st.pre ∧ st.event ≠ .tick := by
    intro st hst
    simp only [hmid', List.mem_append, List.mem_singleton] at hst
    rcases hst with (((hst | rfl) | hst) | rfl) | hst
    · exact ⟨(hcode₁ st hst).2, by rw [(hcode₁ st hst).1]; rintro ⟨⟩⟩
    · exact ⟨⟨hkernel₅ ▸ hstate k₂ (by simp), fun f rest hf => by cases hidle₅.calls.symm.trans hf⟩, by rintro ⟨⟩⟩
    · exact ⟨(hcode₂ st hst).2, by rw [(hcode₂ st hst).1]; rintro ⟨⟩⟩
    · exact ⟨⟨hkernel₈ ▸ hstate k₄ (by simp), fun f rest hf => by cases hidle₈.calls.symm.trans hf⟩, by rintro ⟨⟩⟩
    · exact ⟨(hcode₃ st hst).2, by rw [(hcode₃ st hst).1]; rintro ⟨⟩⟩
  obtain ⟨hrun, hfilled⟩ := Refilled.intro ((Run.nil.snoc hcall₁).append hl) h₂.calls hnext hmid
    (fun st hst => (hunmoved st hst).1) h₁₀.calls hlast
  have hplain : ∀ st ∈ ([] ++ [⟨m₀, .call .schedule, m₁⟩] ++ l) ++ ⟨m₂, .code, m₃⟩ :: (mid ++ [⟨m₁₀, .code, m₁₁⟩]),
      ¬ NoPage st ∧ st.event ≠ .tick := by
    intro st hst
    simp only [List.nil_append, List.mem_append, List.mem_cons, List.not_mem_nil, or_false] at hst
    rcases hst with (rfl | hst) | rfl | hst | rfl
    · exact ⟨by rintro ⟨⟨⟩, -⟩, by rintro ⟨⟩⟩
    · exact ⟨(hl' st hst).2.not_noPage, by rw [(hl' st hst).1]; rintro ⟨⟩⟩
    · exact ⟨check_not_noPage h₂.calls, by rintro ⟨⟩⟩
    · exact ⟨(hunmoved st hst).1.not_noPage, (hunmoved st hst).2⟩
    · exact ⟨check_not_noPage h₁₀.calls, by rintro ⟨⟩⟩
  have hfits : m₀.kernel.Fits := by
    refine ⟨fun i p _ => ?_, fun i p _ => ?_⟩
    · rw [hm₀]
      exact (by decide : (0 : Int) < 2 ^ 31)
    · rw [hm₀]
      show (if p = .init_task then (1 : Int) else 2) ≤ 2 ^ 30
      split <;> decide
  have hprompt : ∀ st ∈ mid, Prompt (.page (pageAddr 0)) st.pre := by
    intro st hst i c next rest _
    have hst : st ∈ ([] ++ [⟨m₀, .call .schedule, m₁⟩] ++ l) ++ ⟨m₂, .code, m₃⟩ :: (mid ++ [⟨m₁₀, .code, m₁₁⟩]) := by simp [hst]
    have hticks := run_ticks hrun (by rw [hm₀]; rfl) (fun st hst => (hplain st hst).2) st hst
    have hslot₀ : m₀.kernel.task ⟨1, by decide⟩ = some (.page (pageAddr 0)) := by
      rw [hm₀]
      rfl
    obtain ⟨l', hpre, -⟩ := (hrun.restrict _ fun st hst => (hplain st hst).1).of_mem st hst
    obtain ⟨hinv, hslot⟩ := hpre.inv (fun m => m.Inv ∧ m.kernel.task ⟨1, by decide⟩ = some (.page (pageAddr 0)))
      ⟨hrest.inv hfits, hslot₀⟩ fun m e m' hm hn => ⟨hm.1.next hn.1 hn.2, hm.1.task_stays hn.1 hm.2⟩
    have hprio := hinv.priority _ _ hslot
    omega
  refine ⟨_, m₁₁, _, mid, _, hm₀ ▸ hrun, hfilled, hrest.served hfits hrun (fun st hst => (hplain st hst).1) hfilled
    (h₂.kernel ▸ htask.1) (by rw [h₂.kernel, htask.2.2.2]) (fun st hst => ?_) hprompt⟩
  simp only [List.mem_cons, List.mem_append, List.not_mem_nil, or_false] at hst
  rcases hst with rfl | hst | rfl
  · exact h₂.kernel ▸ hstate k (by simp)
  · exact (hunmoved st hst).1.running
  · exact h₁₀.kernel ▸ hstate k₅ (by simp)

end ClbFilesystem
