import ClbFilesystem.Interrupts
/-!
# Calls and counts under the timer

Only the innermost call of a task can have raised its `preempt_count`, and a task
switched from stands in front of a `preempt_enable`. So a tick that finds the
count raised, in the scan or in the refill, takes time from the current task and
does nothing else.
-/

namespace ClbFilesystem

open Lib

/-! ## The calls of a task -/

/-- Whether a call at this place has raised the `preempt_count` of its task. -/
def Frame.hold : Frame → Int
  | .schedule | .disable _ | .disabled _ _ => 0
  | _ => 1

theorem Frame.hold_nonneg (f : Frame) : 0 ≤ f.hold := by cases f <;> simp [Frame.hold]

/-- The count read by a `++` or a `--` is the one it writes over. -/
def Frame.Loaded : Frame → Prop
  | .disabled _ preempt_count => preempt_count = 0
  | .enabled _ preempt_count => preempt_count = 1
  | _ => True

/-- The innermost call alone may have raised the count. -/
structure Stacked (preempt_count : Int) (l : List Frame) : Prop where
  count : preempt_count = (l.head?.map Frame.hold).getD 0
  below : ∀ f ∈ l.tail, f.hold = 0
  loaded : ∀ f ∈ l, f.Loaded

section Stacked
variable {n : Int} {f g : Frame} {l rest : List Frame}

theorem Stacked.nil : Stacked 0 [] := ⟨rfl, by simp, by simp⟩

theorem Stacked.hold_eq (h : Stacked n (f :: rest)) : n = f.hold := h.count

theorem Stacked.all (h : Stacked 0 l) : ∀ f ∈ l, f.hold = 0 := by
  cases l with
  | nil => simp
  | cons f rest =>
    intro g hg
    rcases List.mem_cons.1 hg with rfl | hg
    · exact h.hold_eq.symm
    · exact h.below g hg

theorem Stacked.push (h : Stacked 0 l) (hf : f.Loaded) : Stacked f.hold (f :: l) := by
  refine ⟨rfl, h.all, fun g hg => ?_⟩
  rcases List.mem_cons.1 hg with rfl | hg
  · exact hf
  · exact h.loaded g hg

theorem Stacked.pop (h : Stacked n (f :: rest)) : Stacked 0 rest := by
  refine ⟨?_, fun g hg => h.below g (List.mem_of_mem_tail hg), fun g hg => h.loaded g (List.mem_cons_of_mem _ hg)⟩
  cases rest with
  | nil => rfl
  | cons g rest => exact (h.below g (by simp)).symm

/-- The call goes on to another place, or returns. -/
theorem Stacked.advance (h : Stacked n (f :: rest)) (o : Option Frame) (ho : ∀ g, o = some g → g.Loaded) :
    Stacked ((o.map Frame.hold).getD 0) (o.toList ++ rest) := by
  cases o with
  | none => exact h.pop
  | some g => exact h.pop.push (ho g rfl)

end Stacked

/-- What a call of the current task knows between two reads of the scan or the refill. -/
def Frame.Sound (m : Cpu) : Frame → Prop
  | .assign i c _ => ∃ p, m.kernel.task i = some p ∧
      c < (m.kernel.task_struct p).counter + (if p = m.kernel.current then (m.ticks : Int) else 0)
  | .refilled i p counter => m.kernel.task i = some p ∧ counter < 2 ^ 31
  | _ => True

theorem Frame.sound_of_hold {f : Frame} (m : Cpu) (h : f.hold = 0) : f.Sound m := by
  cases f <;> first | trivial | cases h

/-- The counters and the priorities fit the `int` the scan keeps them in. -/
def Kernel.Fits (k : Kernel) : Prop := k.Short ∧ ∀ i p, k.task i = some p → (k.task_struct p).priority ≤ 2 ^ 30

/-- What holds between any two steps. -/
structure Cpu.Inv (m : Cpu) : Prop where
  tasks : TaskInv m.kernel
  stacked : ∀ i p, m.kernel.task i = some p → Stacked (m.kernel.task_struct p).preempt_count (m.stack p)
  away : ∀ i p, m.kernel.task i = some p → p ≠ m.kernel.current → ∃ rest, m.stack p = .enable false :: rest
  priority : ∀ i p, m.kernel.task i = some p → 1 ≤ (m.kernel.task_struct p).priority
  fits : m.kernel.Fits
  innermost : ∀ f rest, m.calls = f :: rest → f.Sound m

section Inv
variable {m m' : Cpu} {f : Frame} {rest : List Frame}

theorem Cpu.Inv.calls (h : m.Inv) : Stacked (m.kernel.task_struct m.kernel.current).preempt_count m.calls := by
  obtain ⟨i, hi⟩ := h.tasks.current
  exact h.stacked i _ hi

/-- A step that neither switches nor makes a task. -/
theorem Cpu.Inv.stay (h : m.Inv) (hcalls : m.calls = f :: rest) {k' : Kernel} {o : Option Frame}
    (hmm : k'.toMm = m.kernel.toMm) (htask : k'.task = m.kernel.task) (hnr : k'.nr_tasks = m.kernel.nr_tasks)
    (hcur : k'.current = m.kernel.current)
    (hcount : ∀ q, (k'.task_struct q).preempt_count =
      if q = m.kernel.current then (o.map Frame.hold).getD 0 else (m.kernel.task_struct q).preempt_count)
    (hprio : ∀ q, (k'.task_struct q).priority = (m.kernel.task_struct q).priority) (hshort : k'.Short)
    (hloaded : ∀ g, o = some g → g.Loaded) (hsound : ∀ g, o = some g → g.Sound (m.advance rest ⟨k', o, none⟩)) :
    (m.advance rest ⟨k', o, none⟩).Inv := by
  have hstacked := h.calls
  rw [hcalls] at hstacked
  have hstack : ∀ q, (m.advance rest ⟨k', o, none⟩).stack q = if q = m.kernel.current then o.toList ++ rest else m.stack q :=
    fun q => by simp [Cpu.advance]
  refine ⟨?_, fun i p hp => ?_, fun i p hp hne => ?_, fun i p hp => ?_, ⟨hshort, fun i p hp => ?_⟩, fun g l hg => ?_⟩
  · refine h.tasks.keep (hmm ▸ Mm.Le.refl _) htask hnr ?_
    show ∃ i, m.kernel.task i = some k'.current
    rw [hcur]
    exact h.tasks.current
  · have hp : k'.task i = some p := hp
    show Stacked (k'.task_struct p).preempt_count _
    rw [hcount, hstack]
    split
    · exact hstacked.advance o hloaded
    · exact h.stacked i p (htask ▸ hp)
  · have hp : k'.task i = some p := hp
    have hne : p ≠ k'.current := hne
    rw [hstack, if_neg (hcur ▸ hne)]
    exact h.away i p (htask ▸ hp) (hcur ▸ hne)
  · have hp : k'.task i = some p := hp
    show 1 ≤ (k'.task_struct p).priority
    rw [hprio]
    exact h.priority i p (htask ▸ hp)
  · have hp : k'.task i = some p := hp
    show (k'.task_struct p).priority ≤ 2 ^ 30
    rw [hprio]
    exact h.fits.2 i p (htask ▸ hp)
  · have hg : (m.advance rest ⟨k', o, none⟩).stack k'.current = g :: l := hg
    rw [hstack, if_pos hcur] at hg
    cases o with
    | none => exact Frame.sound_of_hold _ (hstacked.below g (by simp_all))
    | some g' =>
      obtain ⟨rfl, -⟩ := List.cons.inj hg
      exact hsound _ rfl

/-- A step that changes nothing in the kernel. -/
theorem Cpu.Inv.same (h : m.Inv) (hcalls : m.calls = f :: rest) {g : Frame} (hhold : g.hold = f.hold) (hloaded : g.Loaded)
    (hsound : g.Sound (m.advance rest ⟨m.kernel, some g, none⟩)) : (m.advance rest ⟨m.kernel, some g, none⟩).Inv := by
  have hstacked := h.calls
  rw [hcalls] at hstacked
  refine h.stay hcalls rfl rfl rfl rfl (fun q => ?_) (fun _ => rfl) h.fits.1 ?_ ?_
  · split
    · next hq =>
      rw [hq, hstacked.hold_eq]
      exact hhold.symm
    · rfl
  · rintro _ ⟨⟩
    exact hloaded
  · rintro _ ⟨⟩
    exact hsound

/-- A step that changes the current task. -/
theorem Cpu.Inv.modify (h : m.Inv) (hcalls : m.calls = f :: rest) (o : Option Frame) (g : TaskStruct → TaskStruct)
    (hcount : ∀ t : TaskStruct, t.preempt_count = f.hold → (g t).preempt_count = (o.map Frame.hold).getD 0)
    (hprio : ∀ t, (g t).priority = t.priority) (hshort : ∀ t : TaskStruct, t.counter < 2 ^ 31 → (g t).counter < 2 ^ 31)
    (hloaded : ∀ g, o = some g → g.Loaded) (hsound : ∀ g m', o = some g → g.Sound m') :
    (m.advance rest ⟨m.kernel.modTask m.kernel.current g, o, none⟩).Inv := by
  have hstacked := h.calls
  rw [hcalls] at hstacked
  refine h.stay hcalls rfl rfl rfl rfl (fun q => ?_) (fun q => ?_) (fun i p hp => ?_) hloaded fun g => hsound g _
  · rw [Kernel.modTask_task_struct]
    split
    · next hq =>
      rw [hq]
      exact hcount _ hstacked.hold_eq
    · rfl
  · rw [Kernel.modTask_task_struct]
    split
    · exact hprio _
    · rfl
  · have hlt := h.fits.1 i p hp
    rw [Kernel.modTask_task_struct]
    split
    · exact hshort _ hlt
    · exact hlt

theorem switch_to_eq (p : TaskPtr) (k : Kernel) : switch_to p k = { k with current := p } := by
  unfold switch_to
  split
  · next heq => rw [← heq]
  · rfl

/-- Behind a `switch_to` any task would go on with its `preempt_enable`. -/
theorem Cpu.Inv.switch_stack (h : m.Inv) (rest : List Frame) (p : TaskPtr) {i : Fin NR_TASKS} {q : TaskPtr}
    (hq : m.kernel.task i = some q) :
    ∃ rest', (m.advance rest ⟨switch_to p m.kernel, some (.enable false), none⟩).stack q = .enable false :: rest' := by
  by_cases hqc : q = m.kernel.current
  · exact ⟨rest, by simp [Cpu.advance, hqc]⟩
  · obtain ⟨rest', haway⟩ := h.away i q hq hqc
    exact ⟨rest', by simp [Cpu.advance, hqc, haway]⟩

theorem Cpu.Inv.switch {next : Fin NR_TASKS} {p : TaskPtr} (h : m.Inv) (hcalls : m.calls = .switch next :: rest)
    (hp : m.kernel.task next = some p) : (m.advance rest ⟨switch_to p m.kernel, some (.enable false), none⟩).Inv := by
  have hstacked := h.calls
  rw [hcalls] at hstacked
  have henabled : ∀ i q, m.kernel.task i = some q → _ := fun i q hq => h.switch_stack rest p hq
  obtain ⟨m', hm'⟩ : ∃ m', m' = m.advance rest ⟨switch_to p m.kernel, some (.enable false), none⟩ := ⟨_, rfl⟩
  rw [← hm'] at henabled ⊢
  have hkernel : m'.kernel = { m.kernel with current := p } := by
    rw [hm']
    exact switch_to_eq p m.kernel
  have hts : m'.kernel.task_struct = m.kernel.task_struct := by rw [hkernel]
  have htask : m'.kernel.task = m.kernel.task := by rw [hkernel]
  have hcur : m'.kernel.current = p := by rw [hkernel]
  have hstack : ∀ q, m'.stack q = if q = m.kernel.current then .enable false :: rest else m.stack q := by
    intro q
    rw [hm']
    simp [Cpu.advance]
  refine ⟨?_, fun i q hq => ?_, fun i q hq _ => henabled i q (htask ▸ hq), fun i q hq => ?_,
    ⟨fun i q hq => ?_, fun i q hq => ?_⟩, fun g l hg => ?_⟩
  · rw [hkernel]
    exact h.tasks.keep (Mm.Le.refl _) rfl rfl ⟨next, hp⟩
  · rw [htask] at hq
    rw [hts, hstack]
    split
    · next heq =>
      rw [heq, hstacked.hold_eq]
      exact hstacked.advance (some (.enable false)) (by rintro _ ⟨⟩; trivial)
    · exact h.stacked i q hq
  · rw [hts]
    exact h.priority i q (htask ▸ hq)
  · rw [hts]
    exact h.fits.1 i q (htask ▸ hq)
  · rw [hts]
    exact h.fits.2 i q (htask ▸ hq)
  · obtain ⟨rest', henabled⟩ := henabled next p hp
    rw [Cpu.calls, hcur, henabled] at hg
    obtain ⟨rfl, -⟩ := List.cons.inj hg
    trivial

/-- The task made stands in front of its `schedule_tail`. -/
theorem Cpu.Inv.fork {clone_flags fn arg : Nat} {k' : Kernel} {j : Fin PAGING_PAGES} {i : Fin NR_TASKS} (h : m.Inv)
    (hcalls : m.calls = .copy_process clone_flags fn arg :: rest) (hj : m.kernel.mem_map j = 0) (hi : i.val = m.kernel.nr_tasks)
    (hf : Forked m.kernel k' j i) : (m.advance rest ⟨k', some (.enable false), some (.page (pageAddr j))⟩).Inv := by
  have hstacked := h.calls
  rw [hcalls] at hstacked
  have hne : m.kernel.current ≠ .page (pageAddr j) := h.tasks.current_ne hj
  obtain ⟨c, hc⟩ := h.tasks.current
  obtain ⟨m', hm'⟩ : ∃ m', m' = m.advance rest ⟨k', some (.enable false), some (.page (pageAddr j))⟩ := ⟨_, rfl⟩
  rw [← hm']
  have hkernel : m'.kernel = k' := by rw [hm']; rfl
  have hstack : ∀ q, m'.stack q =
      if q = .page (pageAddr j) then [.enable false] else if q = m.kernel.current then .enable false :: rest else m.stack q := by
    intro q
    rw [hm']
    simp [Cpu.advance, eq_comm]
  -- A task is the new one, or has been there before and is as it was.
  have hcases : ∀ n q, m'.kernel.task n = some q → q = .page (pageAddr j) ∨ q ≠ .page (pageAddr j) ∧ m.kernel.task n = some q ∧
      m'.kernel.task_struct q = m.kernel.task_struct q := by
    intro n q hq
    by_cases hqj : q = .page (pageAddr j)
    · exact .inl hqj
    · rw [hkernel, hf.task, Function.update_apply] at hq
      split at hq
      · cases hq
        exact absurd rfl hqj
      · exact .inr ⟨hqj, hq, by rw [hkernel, hf.others q hqj]⟩
  have hprio : (m'.kernel.task_struct (.page (pageAddr j))).priority = (m.kernel.task_struct m.kernel.current).priority := by
    rw [hkernel]
    exact hf.priority hne
  have hcur : m'.kernel.current = m.kernel.current := by
    rw [hkernel]
    exact hf.current
  refine ⟨?_, fun n q hq => ?_, fun n q hq hqc => ?_, fun n q hq => ?_, ⟨fun n q hq => ?_, fun n q hq => ?_⟩, fun g l hg => ?_⟩
  · rw [hkernel]
    exact h.tasks.forked hj hi hf
  · rw [hstack]
    rcases hcases n q hq with rfl | ⟨hqj, hq, hts⟩
    · rw [if_pos rfl, hkernel, hf.preempt_count]
      exact Stacked.nil.push (f := .enable false) trivial
    · rw [if_neg hqj, hts]
      split
      · next heq =>
        rw [heq, hstacked.hold_eq]
        exact hstacked.advance (some (.enable false)) (by rintro _ ⟨⟩; trivial)
      · exact h.stacked n q hq
  · rw [hcur] at hqc
    rw [hstack]
    rcases hcases n q hq with rfl | ⟨hqj, hq, -⟩
    · exact ⟨[], if_pos rfl⟩
    · rw [if_neg hqj, if_neg hqc]
      exact h.away n q hq hqc
  · rcases hcases n q hq with rfl | ⟨-, hq, hts⟩
    · rw [hprio]
      exact h.priority c _ hc
    · rw [hts]
      exact h.priority n q hq
  · rcases hcases n q hq with rfl | ⟨-, hq, hts⟩
    · have hle := h.fits.2 c _ hc
      have hcounter := hf.counter
      rw [← hkernel, hprio] at hcounter
      omega
    · rw [hts]
      exact h.fits.1 n q hq
  · rcases hcases n q hq with rfl | ⟨-, hq, hts⟩
    · rw [hprio]
      exact h.fits.2 c _ hc
    · rw [hts]
      exact h.fits.2 n q hq
  · rw [Cpu.calls, hcur, hstack, if_neg hne, if_pos rfl] at hg
    obtain ⟨rfl, -⟩ := List.cons.inj hg
    trivial

/-- A step in which a `copy_process` finds no page. -/
def NoPage (st : Step Cpu CpuEvent) : Prop :=
  st.event = .code ∧ (∃ clone_flags fn arg rest, st.pre.calls = .copy_process clone_flags fn arg :: rest) ∧
    ∀ i, st.pre.kernel.mem_map i ≠ 0

theorem Bracket.inside_hold (b : Bracket) : b.inside.hold = 1 := by cases b <;> rfl

theorem Bracket.inside_loaded (b : Bracket) : b.inside.Loaded := by cases b <;> trivial

theorem Bracket.inside_sound (b : Bracket) (m : Cpu) : b.inside.Sound m := by cases b <;> trivial

theorem Cpu.Inv.code (h : m.Inv) (hcalls : m.calls = f :: rest) {a : Advance} (hf : f.next m.kernel = .ok a)
    (hpage : ¬ NoPage ⟨m, .code, m.advance rest a⟩) : (m.advance rest a).Inv := by
  have hstacked := h.calls
  rw [hcalls] at hstacked
  have hcount := hstacked.hold_eq
  have hloaded := hstacked.loaded f (by simp)
  have hsound := h.innermost f rest hcalls
  cases f with
  | schedule =>
    cases hf
    exact h.modify hcalls _ _ (fun _ ht => ht) (fun _ => rfl) (fun _ _ => (by decide : (0 : Int) < 2 ^ 31))
      (by rintro _ ⟨⟩; trivial) (by rintro _ _ ⟨⟩; trivial)
  | disable b =>
    cases hf
    exact h.same hcalls rfl hcount trivial
  | disabled b n =>
    cases hf
    refine h.modify hcalls _ _ (fun t _ => ?_) (fun _ => rfl) (fun _ hlt => hlt) ?_ ?_
    · have hn : n = 0 := hloaded
      show n + 1 = b.inside.hold
      rw [hn, b.inside_hold]
      rfl
    · rintro _ ⟨⟩
      exact b.inside_loaded
    · rintro _ m' ⟨⟩
      exact b.inside_sound m'
  | scan i c next =>
    simp only [Frame.next] at hf
    split at hf
    · next hi =>
      cases hf
      by_cases hb : m.kernel.better c ⟨i, hi⟩ = true
      · rw [if_pos hb]
        obtain ⟨p, hp, -, hlt⟩ := better_iff.1 hb
        refine h.same hcalls rfl trivial ⟨p, hp, ?_⟩
        show c < (m.kernel.task_struct p).counter + (if p = m.kernel.current then ((0 : Nat) : Int) else 0)
        simpa using hlt
      · rw [if_neg hb]
        exact h.same hcalls rfl trivial trivial
    · cases hf
      exact h.same hcalls rfl trivial trivial
  | assign i c next =>
    cases hf
    exact h.same hcalls rfl trivial trivial
  | check c next =>
    cases hf
    split
    · exact h.same hcalls rfl trivial trivial
    · exact h.same hcalls rfl trivial trivial
  | refill i =>
    simp only [Frame.next] at hf
    split at hf
    · next hi =>
      split at hf
      · next p hp =>
        cases hf
        refine h.same hcalls rfl trivial ⟨hp, ?_⟩
        have hlt := h.fits.1 _ p hp
        have hle := h.fits.2 _ p hp
        rw [shiftRight_one]
        omega
      · cases hf
        exact h.same hcalls rfl trivial trivial
    · cases hf
      exact h.same hcalls rfl trivial trivial
  | refilled i p counter =>
    cases hf
    obtain ⟨-, hlt⟩ := hsound
    refine h.stay hcalls rfl rfl rfl rfl (fun q => ?_) (fun q => ?_) (fun j q hq => ?_) (by rintro _ ⟨⟩; trivial)
      (by rintro _ ⟨⟩; trivial)
    · rw [Kernel.modTask_task_struct]
      by_cases hqc : q = m.kernel.current
      · rw [if_pos hqc]
        have hone : (m.kernel.task_struct q).preempt_count = 1 := hqc ▸ hcount
        split <;> exact hone
      · rw [if_neg hqc]
        split <;> rfl
    · rw [Kernel.modTask_task_struct]
      split <;> rfl
    · rw [Kernel.modTask_task_struct]
      split
      · exact hlt
      · exact h.fits.1 j q hq
  | switch next =>
    simp only [Frame.next] at hf
    split at hf
    · cases hf
    · next p hp =>
      cases hf
      exact h.switch hcalls hp
  | exit_process =>
    cases hf
    unfold markZombie
    split
    · exact h.modify hcalls _ _ (fun _ ht => ht) (fun _ => rfl) (fun _ hlt => hlt) (by rintro _ ⟨⟩; trivial)
        (by rintro _ _ ⟨⟩; trivial)
    · exact h.same hcalls rfl trivial trivial
  | copy_process clone_flags fn arg =>
    rcases Frame.copy_process_cases hf with ⟨hused, -⟩ | ⟨j, i, k', hj, hi, hforked, rfl⟩
    · exact absurd ⟨rfl, ⟨_, _, _, _, hcalls⟩, hused⟩ hpage
    · exact h.fork hcalls hj hi hforked
  | enable exits =>
    cases hf
    exact h.same hcalls rfl hcount trivial
  | enabled exits n =>
    cases hf
    have hn : n = 1 := hloaded
    refine h.modify hcalls _ _ (fun t _ => ?_) (fun _ => rfl) (fun _ hlt => hlt) ?_ ?_
    · show n - 1 = _
      rw [hn]
      cases exits <;> rfl
    · cases exits
      · rintro _ ⟨⟩
      · rintro _ ⟨⟩
        trivial
    · cases exits
      · rintro _ _ ⟨⟩
      · rintro _ _ ⟨⟩
        trivial

/-- Some counters change, and the calls stay where they are. -/
theorem Cpu.Inv.recount (h : m.Inv) {k' : Kernel} {n : Nat} (hk : SameButCounters m.kernel k') (hshort : k'.Short)
    (hsound : ∀ f rest, m.calls = f :: rest → f.Sound ⟨k', m.stack, n⟩) : (⟨k', m.stack, n⟩ : Cpu).Inv := by
  have hts : ∀ q, (k'.task_struct q).preempt_count = (m.kernel.task_struct q).preempt_count ∧
      (k'.task_struct q).priority = (m.kernel.task_struct q).priority := by
    intro q
    obtain ⟨c, hc⟩ := hk.task_struct q
    rw [hc]
    exact ⟨rfl, rfl⟩
  refine ⟨h.tasks.keep (hk.mm ▸ Mm.Le.refl _) hk.task hk.nr_tasks (hk.current ▸ h.tasks.current), fun i p hp => ?_,
    fun i p hp hne => h.away i p (hk.task ▸ hp) (hk.current ▸ hne), fun i p hp => ?_, ⟨hshort, fun i p hp => ?_⟩,
    fun f rest hf => ?_⟩
  · show Stacked (k'.task_struct p).preempt_count (m.stack p)
    rw [(hts p).1]
    exact h.stacked i p (hk.task ▸ hp)
  · show 1 ≤ (k'.task_struct p).priority
    rw [(hts p).2]
    exact h.priority i p (hk.task ▸ hp)
  · show (k'.task_struct p).priority ≤ 2 ^ 30
    rw [(hts p).2]
    exact h.fits.2 i p (hk.task ▸ hp)
  · have hf : m.stack k'.current = f :: rest := hf
    rw [hk.current] at hf
    exact hsound f rest hf

/-- Another call begins. -/
theorem Cpu.Inv.push (h : m.Inv) (hcount : (m.kernel.task_struct m.kernel.current).preempt_count = 0) (hf : f.Entry) :
    (m.push f).Inv := by
  have hentry : f.hold = 0 ∧ f.Loaded := by
    rcases hf with rfl | ⟨b, rfl⟩ <;> exact ⟨rfl, trivial⟩
  have hstacked := h.calls
  rw [hcount] at hstacked
  have hstack : ∀ q, (m.push f).stack q = if q = m.kernel.current then f :: m.calls else m.stack q :=
    fun q => Function.update_apply ..
  refine ⟨h.tasks, fun i p hp => ?_, fun i p hp hne => ?_, h.priority, h.fits, fun g rest hg => ?_⟩
  · rw [hstack]
    split
    · next heq =>
      have hcount : ((m.push f).kernel.task_struct p).preempt_count = f.hold := by
        rw [heq, hentry.1]
        exact hcount
      rw [hcount]
      exact hstacked.push hentry.2
    · exact h.stacked i p hp
  · have hne : p ≠ m.kernel.current := hne
    rw [hstack, if_neg hne]
    exact h.away i p hp hne
  · have hg : (m.push f).stack m.kernel.current = g :: rest := hg
    rw [hstack, if_pos rfl] at hg
    obtain ⟨rfl, -⟩ := List.cons.inj hg
    exact Frame.sound_of_hold _ hentry.1

theorem Kernel.Short.modCounter {k : Kernel} (h : k.Short) (p : TaskPtr) (g : TaskStruct → Int)
    (hg : ∀ t : TaskStruct, t.counter < 2 ^ 31 → g t < 2 ^ 31) : (k.modTask p fun t => { t with counter := g t }).Short := by
  intro i q hq
  rw [Kernel.modTask_task_struct]
  split
  · exact hg _ (h i q hq)
  · exact h i q hq

/-- A tick that goes to the scheduler finds preemption on. -/
theorem Cpu.Inv.tick_count (h : m.Inv) {k : Kernel}
    (hk : k = m.kernel.modTask m.kernel.current fun t => { t with counter := t.counter - 1 })
    (hgo : ¬ ((k.task_struct k.current).counter > 0 ∨ (k.task_struct k.current).preempt_count > 0)) :
    (m.kernel.task_struct m.kernel.current).preempt_count = 0 := by
  have hle : (m.kernel.task_struct m.kernel.current).preempt_count ≤ 0 := by
    rw [hk] at hgo
    simp only [Kernel.modTask_current, Kernel.modTask_task_struct, if_true] at hgo
    omega
  have hcount := h.calls.count
  cases hcalls : m.calls with
  | nil =>
    rw [hcalls] at hcount
    exact hcount
  | cons f rest =>
    rw [hcalls] at hcount
    have hcount : (m.kernel.task_struct m.kernel.current).preempt_count = f.hold := hcount
    have hhold := f.hold_nonneg
    omega

/-- A tick takes time from the current task; if it goes to the scheduler, preemption is on. -/
theorem Cpu.Inv.tick (h : m.Inv) : m.tick.Inv := by
  have hdown := SameButCounters.modCounter m.kernel m.kernel.current fun t => t.counter - 1
  have hshort := h.fits.1.modCounter m.kernel.current (fun t => t.counter - 1) fun t hlt => by omega
  unfold Cpu.tick
  simp only
  split
  · refine h.recount hdown hshort fun f rest hf => ?_
    have hsound := h.innermost f rest hf
    cases f with
    | assign i c next =>
      obtain ⟨p, hp, hlt⟩ := hsound
      -- What the counter of the current task has lost is in the ticks.
      have hstill : ∀ k' : Kernel, k'.current = m.kernel.current →
          (k'.task_struct p).counter = (m.kernel.task_struct p).counter - (if p = m.kernel.current then 1 else 0) →
          c < (k'.task_struct p).counter + (if p = k'.current then ((m.ticks + 1 : Nat) : Int) else 0) := by
        intro k' hcur hcounter
        rw [hcounter, hcur]
        by_cases heq : p = m.kernel.current
        · rw [if_pos heq] at hlt ⊢
          rw [if_pos heq]
          omega
        · rw [if_neg heq] at hlt ⊢
          rw [if_neg heq]
          omega
      refine ⟨p, hp, hstill _ rfl ?_⟩
      rw [Kernel.modTask_task_struct]
      split
      · rfl
      · exact (sub_zero _).symm
    | refilled i p counter => exact hsound
    | _ => trivial
  · next hlt =>
    have hzero := h.tick_count rfl hlt
    have hstacked := h.calls
    rw [hzero] at hstacked
    have hall : ∀ f rest, m.calls = f :: rest → ∀ m', f.Sound m' := fun f rest hf m' =>
      f.sound_of_hold m' (hstacked.all f (by rw [hf]; simp))
    have h₁ := h.recount (n := m.ticks + 1) hdown hshort fun f rest hf => hall f rest hf _
    have h₂ := h₁.recount (n := m.ticks + 1) (SameButCounters.modCounter _ m.kernel.current fun _ => 0)
      (hshort.modCounter m.kernel.current (fun _ => 0) fun _ _ => (by decide : (0 : Int) < 2 ^ 31))
      fun f rest hf => hall f rest hf _
    refine h₂.push ?_ (.inr ⟨_, rfl⟩)
    simp only [Kernel.modTask_current, Kernel.modTask_task_struct, if_true]
    exact hzero

/-- Every step keeps the invariant, a `copy_process` without a page apart. -/
theorem Cpu.Inv.next (h : m.Inv) {e : CpuEvent} (hn : CpuNext m e m') (hpage : ¬ NoPage ⟨m, e, m'⟩) : m'.Inv := by
  cases hn with
  | call hcalls hf =>
    have hstacked := h.calls
    rw [hcalls] at hstacked
    exact h.push hstacked.count hf
  | tick => exact h.tick
  | code hcalls hf => exact h.code hcalls hf hpage
  | other hcalls hle =>
    exact ⟨h.tasks.keep hle rfl rfl h.tasks.current, h.stacked, h.away, h.priority, h.fits,
      fun f rest hf => by cases hcalls.symm.trans hf⟩

/-- A new task gets a slot of its own. -/
theorem Frame.next_task {k : Kernel} {a : Advance} (hf : f.next k = .ok a) : a.kernel.task = k.task ∨
    ∃ (i : Fin NR_TASKS) (q : TaskPtr), i.val = k.nr_tasks ∧ a.kernel.task = Function.update k.task i (some q) := by
  cases f with
  | scan i c next =>
    simp only [Frame.next] at hf
    split at hf <;> cases hf <;> exact .inl rfl
  | refill i =>
    simp only [Frame.next] at hf
    split at hf
    · split at hf <;> cases hf <;> exact .inl rfl
    · cases hf
      exact .inl rfl
  | switch next =>
    simp only [Frame.next] at hf
    split at hf
    · cases hf
    · cases hf
      rw [switch_to_eq]
      exact .inl rfl
  | exit_process =>
    cases hf
    exact .inl (markZombie_task k).1
  | copy_process clone_flags fn arg =>
    rcases Frame.copy_process_cases hf with ⟨-, rfl⟩ | ⟨j, i, k', -, hi, hforked, rfl⟩
    · exact .inl rfl
    · exact .inr ⟨i, _, hi, hforked.task⟩
  | _ =>
    cases hf
    exact .inl rfl

/-- No task loses its slot. -/
theorem Cpu.Inv.task_stays (h : m.Inv) {e : CpuEvent} (hn : CpuNext m e m') {i : Fin NR_TASKS} {p : TaskPtr}
    (hp : m.kernel.task i = some p) : m'.kernel.task i = some p := by
  cases hn with
  | call hcalls hf => exact hp
  | tick =>
    unfold Cpu.tick
    simp only
    split <;> exact hp
  | @code _ rest a hcalls hf =>
    show a.kernel.task i = some p
    rcases Frame.next_task hf with htask | ⟨n, q, hn, htask⟩
    · rw [htask]
      exact hp
    · have hlt := (h.tasks.filled i).1 (by rw [hp]; simp)
      rw [htask, Function.update_of_ne]
      · exact hp
      · rintro rfl
        omega
  | other hcalls hle => exact hp

end Inv

/-- The current task is in no call, every other task in front of a `preempt_enable`, and the counts are balanced. -/
structure Cpu.AtRest (m : Cpu) : Prop where
  tasks : TaskInv m.kernel
  balanced : Balanced m.kernel
  idle : m.Idle
  priority : ∀ i p, m.kernel.task i = some p → 1 ≤ (m.kernel.task_struct p).priority

theorem Cpu.AtRest.inv {m : Cpu} (h : m.AtRest) (hfits : m.kernel.Fits) : m.Inv := by
  refine ⟨h.tasks, fun i p hp => ?_, fun i p hp hne => ⟨[], h.idle.others i p hp hne⟩, h.priority, hfits, fun f rest hf => ?_⟩
  · by_cases hpc : p = m.kernel.current
    · have hcalls : m.stack m.kernel.current = [] := h.idle.calls
      rw [hpc, h.balanced.current, hcalls]
      exact .nil
    · rw [h.balanced.others i p hp hpc, h.idle.others i p hp hpc]
      exact Stacked.nil.push (f := .enable false) trivial
  · cases h.idle.calls.symm.trans hf

/-- In a run whose forks find their pages. -/
theorem Cpu.AtRest.inv_of_mem {m₀ m : Cpu} (h : m₀.AtRest) (hfits : m₀.kernel.Fits) {tr : List (Step Cpu CpuEvent)}
    (hrun : Run CpuNext m₀ tr m) (hpage : ∀ st ∈ tr, ¬ NoPage st) : ∀ st ∈ tr, st.pre.Inv := by
  intro st hst
  obtain ⟨_, hpre, -⟩ := (hrun.restrict _ hpage).of_mem st hst
  exact hpre.inv Cpu.Inv (h.inv hfits) fun _ _ _ hm hn => hm.next hn.1 hn.2

theorem Cpu.AtRest.boot (mm : Mm) : (bootCpu mm).AtRest := by
  refine ⟨TaskInv.boot mm, Balanced.boot mm, Cpu.Idle.boot mm, fun i p hp => ?_⟩
  have hprio : ((bootKernel mm).task_struct p).priority = 15 := (Timed.boot mm).priority i p hp
  show 1 ≤ ((bootKernel mm).task_struct p).priority
  omega

end ClbFilesystem
