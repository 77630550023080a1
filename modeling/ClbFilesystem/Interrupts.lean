import ClbFilesystem.Select
/-!
# The timer inside the calls

The calls of the scheduler and of fork, one access to the counters and counts at
a time. Each task has a stack of the calls it is in. The timer may tick between
any two steps; a tick that finds preemption on puts a `_schedule` on the stack of
the current task, and a switch goes on with the stack of another. Calls that no
tick comes into do what `Sched.lean` says they do.
-/

namespace ClbFilesystem

open Lib

/-! ## Steps of the calls -/

/-- The functions that begin with `preempt_disable`. -/
inductive Bracket where
  | _schedule
  | exit_process
  | copy_process (clone_flags fn arg : Nat)

/-- The place a call has come to, with the locals of `_schedule`. A `++` or `--` reads in one step and writes in
the next. -/
inductive Frame where
  /-- `current->counter = 0;` of `schedule` -/
  | schedule
  | disable (b : Bracket)
  | disabled (b : Bracket) (preempt_count : Int)
  /-- the test of the scan on `task[i]`, or the end of that loop -/
  | scan (i : Nat) (c : Int) (next : Fin NR_TASKS)
  /-- `c = p->counter;` -/
  | assign (i : Fin NR_TASKS) (c : Int) (next : Fin NR_TASKS)
  /-- `if (c)` -/
  | check (c : Int) (next : Fin NR_TASKS)
  | refill (i : Nat)
  | refilled (i : Fin NR_TASKS) (p : TaskPtr) (counter : Int)
  | switch (next : Fin NR_TASKS)
  | exit_process
  | copy_process (clone_flags fn arg : Nat)
  /-- `preempt_enable`, also that of `schedule_tail`; `exit_process` goes on behind it -/
  | enable (exits : Bool)
  | enabled (exits : Bool) (preempt_count : Int)

/-- What stands behind the `preempt_disable`. -/
def Bracket.inside : Bracket → Frame
  | ._schedule => .scan 0 (-1) ⟨0, NR_TASKS_pos⟩
  | .exit_process => .exit_process
  | .copy_process clone_flags fn arg => .copy_process clone_flags fn arg

/-- What a step leaves: the kernel, the place the call has come to if it has not returned, and the task it made. -/
structure Advance where
  kernel : Kernel
  frame : Option Frame
  child : Option TaskPtr

def Frame.next (k : Kernel) : Frame → Except Fault Advance
  | .schedule => .ok ⟨k.modTask k.current fun t => { t with counter := 0 }, some (.disable ._schedule), none⟩
  | .disable b => .ok ⟨k, some (.disabled b (k.task_struct k.current).preempt_count), none⟩
  | .disabled b preempt_count =>
    .ok ⟨k.modTask k.current fun t => { t with preempt_count := preempt_count + 1 }, some b.inside, none⟩
  | .scan i c next =>
    if h : i < NR_TASKS then
      .ok ⟨k, some (if k.better c ⟨i, h⟩ then .assign ⟨i, h⟩ c next else .scan (i + 1) c next), none⟩
    else .ok ⟨k, some (.check c next), none⟩
  | .assign i _ _ => .ok ⟨k, some (.scan (i + 1) (k.counterOf i) i), none⟩
  | .check c next => .ok ⟨k, some (if c ≠ 0 then .switch next else .refill 0), none⟩
  | .refill i =>
    if h : i < NR_TASKS then
      match k.task ⟨i, h⟩ with
      | some p => .ok ⟨k, some (.refilled ⟨i, h⟩ p (((k.task_struct p).counter >>> (1 : Nat)) + (k.task_struct p).priority)), none⟩
      | none => .ok ⟨k, some (.refill (i + 1)), none⟩
    else .ok ⟨k, some (.scan 0 (-1) ⟨0, NR_TASKS_pos⟩), none⟩
  | .refilled i p counter => .ok ⟨k.modTask p fun t => { t with counter := counter }, some (.refill (i + 1)), none⟩
  | .switch next =>
    match k.task next with
    | none => .error .nullPointer
    | some p => .ok ⟨switch_to p k, some (.enable false), none⟩
  | .exit_process => .ok ⟨markZombie k, some (.enable true), none⟩
  | .copy_process clone_flags fn arg => do
    match ← copyBody clone_flags fn arg k with
    | (none, k) => return ⟨k, none, none⟩
    | (some _, k') =>
      let i ← taskIndex k.nr_tasks
      return ⟨k', some (.enable false), k'.task i⟩
  | .enable exits => .ok ⟨k, some (.enabled exits (k.task_struct k.current).preempt_count), none⟩
  | .enabled exits preempt_count =>
    .ok ⟨k.modTask k.current fun t => { t with preempt_count := preempt_count - 1 },
      if exits then some .schedule else none, none⟩

/-- A `copy_process` that finds its pages. -/
theorem Frame.next_copy_process {clone_flags fn arg : Nat} {k k' : Kernel} {pid : Int} {i : Fin NR_TASKS}
    (hbody : copyBody clone_flags fn arg k = .ok (some pid, k')) (hi : i.val = k.nr_tasks) :
    (Frame.copy_process clone_flags fn arg).next k = .ok ⟨k', some (.enable false), k'.task i⟩ := by
  have hindex : taskIndex k.nr_tasks = .ok i := by rw [← hi, taskIndex, dif_pos i.isLt]
  rw [Frame.next, hbody]
  show (taskIndex k.nr_tasks).bind (fun i => Except.ok (Advance.mk k' (some (.enable false)) (k'.task i))) = _
  rw [hindex, ok_bind]

/-- A `copy_process` stops without a page, or makes a task and stands in front of the `preempt_enable`. -/
theorem Frame.copy_process_cases {clone_flags fn arg : Nat} {k : Kernel} {a : Advance}
    (hf : (Frame.copy_process clone_flags fn arg).next k = .ok a) :
    (∀ i, k.mem_map i ≠ 0) ∧ a = ⟨k, none, none⟩ ∨
    ∃ j i k', k.mem_map j = 0 ∧ i.val = k.nr_tasks ∧ Forked k k' j i ∧
      a = ⟨k', some (.enable false), some (.page (pageAddr j))⟩ := by
  cases hbody : copyBody clone_flags fn arg k with
  | error e =>
    rw [Frame.next, hbody] at hf
    cases hf
  | ok r =>
    obtain ⟨pid, k'⟩ := r
    rcases copyBody_spec hbody with ⟨hused, rfl, rfl⟩ | ⟨j, i, hj, hi, rfl, hforked⟩
    · rw [Frame.next, hbody] at hf
      cases hf
      exact .inl ⟨hused, rfl⟩
    · have hchild : k'.task i = some (.page (pageAddr j)) := by rw [hforked.task, Function.update_self]
      rw [Frame.next_copy_process hbody hi, hchild] at hf
      cases hf
      exact .inr ⟨j, i, k', hj, hi, hforked, rfl⟩

/-! ## The processor -/

/-- The kernel, where each task stands in it, and how often the timer has ticked since the last step of the code. -/
structure Cpu where
  kernel : Kernel
  stack : TaskPtr → List Frame
  ticks : Nat

namespace Cpu

/-- The calls the current task is in, the innermost first. -/
def calls (m : Cpu) : List Frame := m.stack m.kernel.current

def push (m : Cpu) (f : Frame) : Cpu := { m with stack := Function.update m.stack m.kernel.current (f :: m.calls) }

/-- `timer_tick`, up to its call of `_schedule`; until then no other tick comes. -/
def tick (m : Cpu) : Cpu :=
  let k := m.kernel.modTask m.kernel.current fun t => { t with counter := t.counter - 1 }
  let m := { m with kernel := k, ticks := m.ticks + 1 }
  let t := k.task_struct k.current
  if t.counter > 0 ∨ t.preempt_count > 0 then m
  else { m with kernel := k.modTask k.current fun t => { t with counter := 0 } }.push (.disable ._schedule)

/-- The call on top of the stack has come to `a.frame`, and a new task is about to do its `schedule_tail`. -/
def advance (m : Cpu) (rest : List Frame) (a : Advance) : Cpu where
  kernel := a.kernel
  stack q :=
    if a.child = some q then [.enable false]
    else if q = m.kernel.current then a.frame.toList ++ rest
    else m.stack q
  ticks := 0

end Cpu

inductive CpuEvent where
  | call (f : Frame)
  | tick
  | code
  | other

/-- The places calls begin at. -/
def Frame.Entry (f : Frame) : Prop := f = .schedule ∨ ∃ b, f = .disable b

inductive CpuNext : Cpu → CpuEvent → Cpu → Prop
  | call {m : Cpu} {f : Frame} : m.calls = [] → f.Entry → CpuNext m (.call f) (m.push f)
  | tick {m : Cpu} : CpuNext m .tick m.tick
  | code {m : Cpu} {f : Frame} {rest : List Frame} {a : Advance} : m.calls = f :: rest → f.next m.kernel = .ok a →
    CpuNext m .code (m.advance rest a)
  /-- Tasks work on memory, on their page tables and on their registers. -/
  | other {m : Cpu} {mm : Mm} {pt_regs : TaskPtr → PtRegs} {mms : TaskPtr → MmStruct} : m.calls = [] → m.kernel.toMm.Le mm →
    CpuNext m .other { m with kernel := { m.kernel with
      toMm := mm
      pt_regs := pt_regs
      task_struct := fun p => { m.kernel.task_struct p with mm := mms p } } }

/-! ## Stretches of code -/

/-- The code goes from `m` to `m'` with no tick in between, each of its steps made where `Q` holds. -/
def Goes (Q : Cpu → Prop) (m m' : Cpu) : Prop := ∃ tr, Run CpuNext m tr m' ∧ ∀ st ∈ tr, st.event = .code ∧ Q st.pre

section Goes
variable {Q : Cpu → Prop} {m m' m'' : Cpu}

theorem Goes.refl (Q : Cpu → Prop) (m : Cpu) : Goes Q m m := ⟨[], .nil, by simp⟩

theorem Goes.trans (h : Goes Q m m') (h' : Goes Q m' m'') : Goes Q m m'' := by
  obtain ⟨tr, hrun, hall⟩ := h
  obtain ⟨tr', hrun', hall'⟩ := h'
  refine ⟨tr ++ tr', hrun.append hrun', fun st hst => ?_⟩
  rcases List.mem_append.1 hst with hst | hst
  · exact hall st hst
  · exact hall' st hst

theorem Goes.single (h : CpuNext m .code m') (hQ : Q m) : Goes Q m m' :=
  ⟨[⟨m, .code, m'⟩], Run.nil.snoc h, by simpa using hQ⟩

end Goes

/-- Kernel `k`, with the current task in the calls `l` and the others where `S` says. -/
structure Stands (m : Cpu) (k : Kernel) (l : List Frame) (S : TaskPtr → List Frame) : Prop where
  kernel : m.kernel = k
  calls : m.calls = l
  others : ∀ q, q ≠ k.current → m.stack q = S q

section Stands
variable {Q : Cpu → Prop} {m : Cpu} {k k' : Kernel} {S : TaskPtr → List Frame} {rest : List Frame}

/-- One step of the code, without a switch and without a new task. -/
theorem Stands.step {f : Frame} {o : Option Frame} (h : Stands m k (f :: rest) S) (hf : f.next k = .ok ⟨k', o, none⟩)
    (hcur : k'.current = k.current) (hQ : Q m) : ∃ m', Goes Q m m' ∧ Stands m' k' (o.toList ++ rest) S := by
  obtain ⟨rfl, hcalls, hothers⟩ := h
  refine ⟨_, .single (.code hcalls hf) hQ, rfl, ?_, fun q hq => ?_⟩
  · simp [Cpu.calls, Cpu.advance, hcur]
  · have hq : q ≠ m.kernel.current := hcur ▸ hq
    simp [Cpu.advance, hq, hothers q hq]

/-- The same, of a call that does not return yet. -/
theorem Stands.code {f g : Frame} (h : Stands m k (f :: rest) S) (hf : f.next k = .ok ⟨k', some g, none⟩)
    (hcur : k'.current = k.current) (hQ : Q m) : ∃ m', Goes Q m m' ∧ Stands m' k' (g :: rest) S :=
  h.step hf hcur hQ

/-- The same tasks in the same states. -/
structure Alike (k k' : Kernel) : Prop where
  task : k'.task = k.task
  current : k'.current = k.current
  state : ∀ q, (k'.task_struct q).state = (k.task_struct q).state

theorem Alike.refl (k : Kernel) : Alike k k := ⟨rfl, rfl, fun _ => rfl⟩

theorem Alike.trans {k'' : Kernel} (h : Alike k k') (h' : Alike k' k'') : Alike k k'' :=
  ⟨h'.task.trans h.task, h'.current.trans h.current, fun q => (h'.state q).trans (h.state q)⟩

theorem Alike.modTask (k : Kernel) (p : TaskPtr) (f : TaskStruct → TaskStruct) (hf : ∀ t, (f t).state = t.state) :
    Alike k (k.modTask p f) := by
  refine ⟨rfl, rfl, fun q => ?_⟩
  rw [Kernel.modTask_task_struct]
  split
  · exact hf _
  · rfl

theorem SameButCounters.alike (h : SameButCounters k k') : Alike k k' := by
  refine ⟨h.task, h.current, fun q => ?_⟩
  obtain ⟨c, hc⟩ := h.task_struct q
  rw [hc]

theorem Alike.disable (k : Kernel) : Alike k (preempt_disable k) := Alike.modTask k _ _ fun _ => rfl

/-- What `schedule` does before its first scan. -/
theorem Alike.stop (k : Kernel) : Alike k (preempt_disable (k.modTask k.current fun t => { t with counter := 0 })) :=
  (Alike.modTask k k.current (fun t => { t with counter := 0 }) fun _ => rfl).trans (Alike.disable _)

/-- The places in which no refill begins and no task is made. -/
def Frame.Plain : Frame → Prop
  | .check c _ => c ≠ 0
  | .copy_process _ _ _ => False
  | _ => True

/-- `Q` holds in the plain places, as long as the tasks keep their states. -/
def Calm (Q : Cpu → Prop) (k : Kernel) : Prop := ∀ m f rest, Alike k m.kernel → m.calls = f :: rest → f.Plain → Q m

theorem Calm.alike (h : Calm Q k) (hk : Alike k k') : Calm Q k' :=
  fun m f rest hm => h m f rest (hk.trans hm)

theorem Calm.true (k : Kernel) : Calm (fun _ => True) k := fun _ _ _ _ _ _ => trivial

theorem Stands.calm {f : Frame} (h : Stands m k (f :: rest) S) (hQ : Calm Q k) (hf : f.Plain) : Q m :=
  hQ m f rest (h.kernel ▸ Alike.refl _) h.calls hf

theorem drop_finRange {i n : Nat} (hi : i < n) : (List.finRange n).drop i = ⟨i, hi⟩ :: (List.finRange n).drop (i + 1) := by
  rw [List.drop_eq_getElem_cons (by simpa using hi), List.getElem_finRange]
  rfl

/-- The scan, from `task[i]` on. -/
theorem Stands.scan_run {i : Nat} {c : Int} {next : Fin NR_TASKS} (h : Stands m k (.scan i c next :: rest) S) (hQ : Calm Q k) :
    ∃ m', Goes Q m m' ∧ Stands m' k (.check (((List.finRange NR_TASKS).drop i).foldl (scanStep k) (c, next)).1
      (((List.finRange NR_TASKS).drop i).foldl (scanStep k) (c, next)).2 :: rest) S := by
  induction hn : NR_TASKS - i generalizing m i c next with
  | zero =>
    have hi : ¬ i < NR_TASKS := by omega
    rw [List.drop_eq_nil_of_le (by simpa using hi)]
    exact h.code (dif_neg hi) rfl (h.calm hQ trivial)
  | succ n ih =>
    have hi : i < NR_TASKS := by omega
    rw [drop_finRange hi, List.foldl_cons]
    by_cases hb : k.better c ⟨i, hi⟩ = true
    · obtain ⟨m₁, hgoes₁, h₁⟩ := h.code (g := .assign ⟨i, hi⟩ c next) (by simp [Frame.next, hi, hb]) rfl (h.calm hQ trivial)
      obtain ⟨m₂, hgoes₂, h₂⟩ := h₁.code rfl rfl (h₁.calm hQ trivial)
      obtain ⟨m₃, hgoes₃, h₃⟩ := ih h₂ (by simp only; omega)
      have hstep : scanStep k (c, next) ⟨i, hi⟩ = (k.counterOf ⟨i, hi⟩, ⟨i, hi⟩) := if_pos hb
      rw [hstep]
      exact ⟨m₃, hgoes₁.trans (hgoes₂.trans hgoes₃), h₃⟩
    · obtain ⟨m₁, hgoes₁, h₁⟩ := h.code (g := .scan (i + 1) c next) (by simp [Frame.next, hi, hb]) rfl (h.calm hQ trivial)
      obtain ⟨m₂, hgoes₂, h₂⟩ := ih h₁ (by omega)
      have hstep : scanStep k (c, next) ⟨i, hi⟩ = (c, next) := if_neg hb
      rw [hstep]
      exact ⟨m₂, hgoes₁.trans hgoes₂, h₂⟩

/-- The refill, from `task[i]` on, and the way back to the scan. -/
theorem Stands.refill_run {i : Nat} (h : Stands m k (.refill i :: rest) S) (hQ : Calm Q k) :
    ∃ m', Goes Q m m' ∧ Stands m' (((List.finRange NR_TASKS).drop i).foldl refillTask k)
      (.scan 0 (-1) ⟨0, by decide⟩ :: rest) S := by
  induction hn : NR_TASKS - i generalizing m k i with
  | zero =>
    have hi : ¬ i < NR_TASKS := by omega
    rw [List.drop_eq_nil_of_le (by simpa using hi)]
    exact h.code (dif_neg hi) rfl (h.calm hQ trivial)
  | succ n ih =>
    have hi : i < NR_TASKS := by omega
    rw [drop_finRange hi, List.foldl_cons]
    cases hp : k.task ⟨i, hi⟩ with
    | none =>
      obtain ⟨m₁, hgoes₁, h₁⟩ := h.code (g := .refill (i + 1)) (by simp [Frame.next, hi, hp]) rfl (h.calm hQ trivial)
      obtain ⟨m₂, hgoes₂, h₂⟩ := ih h₁ hQ (by omega)
      have hstep : refillTask k ⟨i, hi⟩ = k := by
        unfold refillTask
        rw [hp]
      rw [hstep]
      exact ⟨m₂, hgoes₁.trans hgoes₂, h₂⟩
    | some p =>
      obtain ⟨m₁, hgoes₁, h₁⟩ := h.code
        (g := .refilled ⟨i, hi⟩ p (((k.task_struct p).counter >>> (1 : Nat)) + (k.task_struct p).priority))
        (by simp [Frame.next, hi, hp]) rfl (h.calm hQ trivial)
      obtain ⟨m₂, hgoes₂, h₂⟩ := h₁.code rfl rfl (h₁.calm hQ trivial)
      have hstep : refillTask k ⟨i, hi⟩ =
          k.modTask p fun t => { t with counter := ((k.task_struct p).counter >>> (1 : Nat)) + (k.task_struct p).priority } := by
        unfold refillTask
        rw [hp]
        rfl
      rw [← hstep] at h₂
      have hsame : Alike k (refillTask k ⟨i, hi⟩) := hstep ▸ Alike.modTask k p _ fun _ => rfl
      obtain ⟨m₃, hgoes₃, h₃⟩ := ih h₂ (hQ.alike hsame) (by simp only; omega)
      exact ⟨m₃, hgoes₁.trans (hgoes₂.trans hgoes₃), h₃⟩

/-- `preempt_disable` at the beginning of a call. -/
theorem Stands.disable_run {b : Bracket} (h : Stands m k (.disable b :: rest) S) (hQ : Calm Q k) :
    ∃ m', Goes Q m m' ∧ Stands m' (preempt_disable k) (b.inside :: rest) S := by
  obtain ⟨m₁, hgoes₁, h₁⟩ := h.code rfl rfl (h.calm hQ trivial)
  obtain ⟨m₂, hgoes₂, h₂⟩ := h₁.code rfl rfl (h₁.calm hQ trivial)
  exact ⟨m₂, hgoes₁.trans hgoes₂, h₂⟩

/-- `_schedule`, up to its first test of `c`. -/
theorem Stands.first_run (h : Stands m k (.disable ._schedule :: rest) S) (hQ : Calm Q k) : ∃ m', Goes Q m m' ∧
    Stands m' (preempt_disable k) (.check (scan (preempt_disable k)).1 (scan (preempt_disable k)).2 :: rest) S := by
  obtain ⟨m₁, hgoes₁, h₁⟩ := h.disable_run hQ
  obtain ⟨m₂, hgoes₂, h₂⟩ := h₁.scan_run (hQ.alike (Alike.disable k))
  rw [List.drop_zero] at h₂
  exact ⟨m₂, hgoes₁.trans hgoes₂, h₂⟩

/-- `preempt_enable` at the end. -/
theorem Stands.enable_run {exits : Bool} (h : Stands m k (.enable exits :: rest) S) (hQ : Calm Q k) :
    ∃ m', Goes Q m m' ∧ Stands m' (preempt_enable k) ((if exits then some .schedule else none).toList ++ rest) S := by
  obtain ⟨m₁, hgoes₁, h₁⟩ := h.code rfl rfl (h.calm hQ trivial)
  obtain ⟨m₂, hgoes₂, h₂⟩ := h₁.step rfl rfl (h₁.calm hQ trivial)
  exact ⟨m₂, hgoes₁.trans hgoes₂, h₂⟩

end Stands

/-! ## Calls without a tick -/

/-- The current task is in no call, and every other is behind the `switch_to` of a `_schedule` or in front of its
`schedule_tail`. -/
structure Cpu.Idle (m : Cpu) : Prop where
  calls : m.calls = []
  others : ∀ i p, m.kernel.task i = some p → p ≠ m.kernel.current → m.stack p = [.enable false]

section Idle
variable {Q : Cpu → Prop} {m : Cpu} {k k' : Kernel} {S : TaskPtr → List Frame} {rest : List Frame}

/-- A turn of the loop that finds `c = 0` goes on to the refill. -/
theorem Stands.check_zero {next : Fin NR_TASKS} (h : Stands m k (.check 0 next :: rest) S) :
    ∃ m₁, CpuNext m .code m₁ ∧ Stands m₁ k (.refill 0 :: rest) S := by
  obtain ⟨rfl, hcalls, hothers⟩ := h
  refine ⟨_, .code hcalls rfl, rfl, by simp [Cpu.calls, Cpu.advance], fun q hq => ?_⟩
  simp [Cpu.advance, hq, hothers q hq]

/-- Behind the refill comes the scan of the next turn. -/
theorem Stands.again {next : Fin NR_TASKS} (h : Stands m k (.check 0 next :: rest) S) (hQ : Calm Q k) :
    ∃ m₁ m', CpuNext m .code m₁ ∧ Goes Q m₁ m' ∧
      Stands m' (refill k) (.check (scan (refill k)).1 (scan (refill k)).2 :: rest) S := by
  obtain ⟨m₁, hnext, h₁⟩ := h.check_zero
  obtain ⟨m₂, hgoes₂, h₂⟩ := h₁.refill_run hQ
  rw [List.drop_zero] at h₂
  obtain ⟨m₃, hgoes₃, h₃⟩ := h₂.scan_run (hQ.alike (SameButCounters.refill _).alike)
  rw [List.drop_zero] at h₃
  exact ⟨m₁, m₃, hnext, hgoes₂.trans hgoes₃, h₃⟩

/-- The loop of `_schedule`, from its first test on. -/
theorem Stands.select_run {n : Nat} {next : Fin NR_TASKS} (h : Stands m k (.check (scan k).1 (scan k).2 :: rest) S)
    (hselect : select n k = .ok (next, k')) : ∃ m', Goes (fun _ => True) m m' ∧ Stands m' k' (.switch next :: rest) S := by
  induction n generalizing m k with
  | zero => cases hselect
  | succ n ih =>
    by_cases hc : (scan k).1 = 0
    · have hrest : select n (refill k) = .ok (next, k') := by
        simpa only [select, hc, ne_eq, not_true_eq_false, if_false] using hselect
      rw [hc] at h
      obtain ⟨m₁, m₂, hnext, hgoes₂, h₂⟩ := h.again (Calm.true k)
      obtain ⟨m₃, hgoes₃, h₃⟩ := ih h₂ hrest
      exact ⟨m₃, (Goes.single hnext trivial).trans (hgoes₂.trans hgoes₃), h₃⟩
    · rw [select_found n hc] at hselect
      cases hselect
      exact h.code (Q := fun _ => True) (by simp [Frame.next, hc]) rfl trivial

/-- The task switched to goes on behind its own `switch_to`. -/
theorem Stands.switch_run {next : Fin NR_TASKS} {p : TaskPtr} (h : Stands m k [.switch next] S) (hp : k.task next = some p)
    (hS : ∀ i p, k.task i = some p → p ≠ k.current → S p = [.enable false]) (hQ : Q m) (hQ' : Calm Q (switch_to p k)) :
    ∃ m', Goes Q m m' ∧ m'.Idle ∧ m'.kernel = preempt_enable (switch_to p k) := by
  obtain ⟨rfl, hcalls, hothers⟩ := h
  obtain ⟨m₁, hm₁⟩ : ∃ m₁, m₁ = m.advance [] ⟨switch_to p m.kernel, some (.enable false), none⟩ := ⟨_, rfl⟩
  have hgoes₁ : Goes Q m m₁ := hm₁ ▸ .single (.code hcalls (by simp only [Frame.next, hp])) hQ
  have hkernel : m₁.kernel = switch_to p m.kernel := by rw [hm₁]; rfl
  have hcur : m₁.kernel.current = p := by
    rw [hkernel]
    unfold switch_to
    split
    · next heq => exact heq
    · rfl
  have htask : m₁.kernel.task = m.kernel.task := by
    rw [hkernel]
    unfold switch_to
    split <;> rfl
  have hstack : ∀ i q, m.kernel.task i = some q → m₁.stack q = [.enable false] := by
    intro i q hq
    rw [hm₁]
    by_cases hqc : q = m.kernel.current
    · simp [Cpu.advance, hqc]
    · simp [Cpu.advance, hqc, hothers q hqc, hS i q hq hqc]
  have h₁ : Stands m₁ (switch_to p m.kernel) [.enable false] m₁.stack :=
    ⟨hkernel, by rw [Cpu.calls, hcur]; exact hstack next p hp, fun _ _ => rfl⟩
  obtain ⟨m₂, hgoes₂, hkernel₂, hcalls₂, hothers₂⟩ := h₁.enable_run hQ'
  refine ⟨m₂, hgoes₁.trans hgoes₂, ⟨hcalls₂, fun i q hq hne => ?_⟩, hkernel₂⟩
  rw [hkernel₂] at hq hne
  rw [hothers₂ q hne]
  refine hstack i q ?_
  rw [← htask, hkernel]
  exact hq

/-- The other tasks are where `Cpu.Idle` has them. -/
def Waiting (k : Kernel) (S : TaskPtr → List Frame) : Prop :=
  ∀ i p, k.task i = some p → p ≠ k.current → S p = [.enable false]

theorem Waiting.alike (h : Waiting k S) (hk : Alike k k') : Waiting k' S := fun i p hp hne => by
  rw [hk.task] at hp
  rw [hk.current] at hne
  exact h i p hp hne

/-- A test of `c` that finds a task, up to the return in the task found. -/
theorem Stands.found_run {c : Int} {next : Fin NR_TASKS} {p : TaskPtr} (h : Stands m k [.check c next] S) (hc : c ≠ 0)
    (hp : k.task next = some p) (hS : Waiting k S) (hQ : Calm Q k) (hQ' : Calm Q (switch_to p k)) :
    ∃ m', Goes Q m m' ∧ m'.Idle ∧ m'.kernel = preempt_enable (switch_to p k) := by
  obtain ⟨m₁, hgoes₁, h₁⟩ := h.code (g := .switch next) (by simp [Frame.next, hc]) rfl (h.calm hQ hc)
  obtain ⟨m₂, hgoes₂, h₂⟩ := h₁.switch_run hp hS (h₁.calm hQ trivial) hQ'
  exact ⟨m₂, hgoes₁.trans hgoes₂, h₂⟩

theorem Stands._schedule_run (h : Stands m k [.disable ._schedule] S) (hS : Waiting k S) (hcall : _schedule k = .ok k') :
    ∃ m', Goes (fun _ => True) m m' ∧ m'.Idle ∧ m'.kernel = k' := by
  rw [_schedule_eq] at hcall
  obtain ⟨⟨next, k₁⟩, hselect, hcall⟩ := bind_ok hcall
  obtain ⟨m₁, hgoes₁, h₁⟩ := h.first_run (Calm.true k)
  obtain ⟨m₂, hgoes₂, h₂⟩ := h₁.select_run hselect
  have hsame := SameButCounters.select hselect
  cases hp : k₁.task next with
  | none =>
    simp only [hp] at hcall
    cases hcall
  | some p =>
    simp only [hp] at hcall
    cases hcall
    have hS₁ : Waiting k₁ S := (hS.alike (Alike.disable k)).alike hsame.alike
    obtain ⟨m₃, hgoes₃, h₃⟩ := h₂.switch_run hp hS₁ trivial (Calm.true _)
    exact ⟨m₃, hgoes₁.trans (hgoes₂.trans hgoes₃), h₃⟩

theorem Stands.schedule_run (h : Stands m k [.schedule] S) (hS : Waiting k S) (hcall : schedule k = .ok k') :
    ∃ m', Goes (fun _ => True) m m' ∧ m'.Idle ∧ m'.kernel = k' := by
  have hk : Alike k (k.modTask k.current fun t => { t with counter := 0 }) := Alike.modTask k _ _ fun _ => rfl
  obtain ⟨m₁, hgoes₁, h₁⟩ := h.code (Q := fun _ => True) rfl rfl trivial
  obtain ⟨m₂, hgoes₂, h₂⟩ := h₁._schedule_run (hS.alike hk) hcall
  exact ⟨m₂, hgoes₁.trans hgoes₂, h₂⟩

theorem markZombie_task (k : Kernel) : (markZombie k).task = k.task ∧ (markZombie k).current = k.current := by
  unfold markZombie
  split <;> exact ⟨rfl, rfl⟩

theorem Stands.exit_process_run (h : Stands m k [.disable .exit_process] S) (hS : Waiting k S) (hcall : exit_process k = .ok k') :
    ∃ m', Goes (fun _ => True) m m' ∧ m'.Idle ∧ m'.kernel = k' := by
  obtain ⟨htask, hcur⟩ := markZombie_task (preempt_disable k)
  obtain ⟨m₁, hgoes₁, h₁⟩ := h.disable_run (Calm.true k)
  obtain ⟨m₂, hgoes₂, h₂⟩ := h₁.code (Q := fun _ => True) rfl hcur trivial
  obtain ⟨m₃, hgoes₃, h₃⟩ := h₂.enable_run (Calm.true _)
  have hS₃ : Waiting (preempt_enable (markZombie (preempt_disable k))) S := by
    intro i p hp hne
    have hp : (markZombie (preempt_disable k)).task i = some p := hp
    have hne : p ≠ (markZombie (preempt_disable k)).current := hne
    rw [htask] at hp
    rw [hcur] at hne
    exact hS i p hp hne
  obtain ⟨m₄, hgoes₄, h₄⟩ := h₃.schedule_run hS₃ hcall
  exact ⟨m₄, hgoes₁.trans (hgoes₂.trans (hgoes₃.trans hgoes₄)), h₄⟩

/-- The exit of a `copy_process` without a page leaves the count as it is. -/
theorem Stands.copy_process_run {clone_flags fn arg : Nat} {pid : Int} (ht : TaskInv k)
    (h : Stands m k [.disable (.copy_process clone_flags fn arg)] S) (hS : Waiting k S)
    (hcall : copy_process clone_flags fn arg k = .ok (pid, k')) :
    ∃ m', Goes (fun _ => True) m m' ∧ m'.Idle ∧ m'.kernel = k' := by
  unfold copy_process at hcall
  obtain ⟨⟨r, k₁⟩, hbody, hcall⟩ := bind_ok hcall
  obtain ⟨m₁, hgoes₁, h₁⟩ := h.disable_run (Calm.true k)
  rcases copyBody_spec hbody with ⟨-, rfl, rfl⟩ | ⟨j, i, hj, hi, rfl, hf⟩
  · cases hcall
    have hnext : (Frame.copy_process clone_flags fn arg).next (preempt_disable k) = .ok ⟨preempt_disable k, none, none⟩ := by
      rw [Frame.next, hbody]
      rfl
    obtain ⟨m₂, hgoes₂, hkernel, hcalls, hothers⟩ := h₁.step (Q := fun _ => True) hnext rfl trivial
    refine ⟨m₂, hgoes₁.trans hgoes₂, ⟨hcalls, fun i p hp hne => ?_⟩, hkernel⟩
    rw [hkernel] at hp hne
    rw [hothers p hne]
    exact hS i p hp hne
  · cases hcall
    have hne : k.current ≠ .page (pageAddr j) := ht.current_ne hj
    have hchild : k₁.task i = some (.page (pageAddr j)) := by rw [hf.task, Function.update_self]
    have hnext := Frame.next_copy_process hbody hi
    rw [hchild] at hnext
    -- The child stands in front of its `schedule_tail`.
    obtain ⟨hkernel₁, hcalls₁, hothers₁⟩ := h₁
    obtain ⟨m₂, hm₂⟩ : ∃ m₂, m₂ = m₁.advance [] ⟨k₁, some (.enable false), some (.page (pageAddr j))⟩ := ⟨_, rfl⟩
    have hgoes₂ : Goes (fun _ => True) m₁ m₂ := hm₂ ▸ .single (.code hcalls₁ (hkernel₁ ▸ hnext)) trivial
    have hcur₁ : m₁.kernel.current = k.current := by rw [hkernel₁]; rfl
    have h₂ : Stands m₂ k₁ [.enable false] m₂.stack := by
      refine ⟨by rw [hm₂]; rfl, ?_, fun _ _ => rfl⟩
      have hcur : m₂.kernel.current = k.current := by
        rw [hm₂]
        exact hf.current
      rw [Cpu.calls, hcur, hm₂]
      simp [Cpu.advance, hcur₁, hne.symm]
    obtain ⟨m₃, hgoes₃, hkernel₃, hcalls₃, hothers₃⟩ := h₂.enable_run (Calm.true _)
    refine ⟨m₃, hgoes₁.trans (hgoes₂.trans hgoes₃), ⟨hcalls₃, fun n q hq hqc => ?_⟩, hkernel₃⟩
    have hqc : q ≠ k.current := fun he => hqc (by rw [hkernel₃, he]; exact hf.current.symm)
    rw [hothers₃ q (fun he => hqc (he.trans hf.current)), hm₂]
    by_cases hqj : q = .page (pageAddr j)
    · simp [Cpu.advance, hqj]
    · have hq : k.task n = some q := by
        rw [hkernel₃] at hq
        have hq : k₁.task n = some q := hq
        rw [hf.task, Function.update_apply] at hq
        split at hq
        · cases hq
          exact absurd rfl hqj
        · exact hq
      have hold : m₁.stack q = [.enable false] := (hothers₁ q hqc).trans (hS n q hq hqc)
      simp [Cpu.advance, hcur₁, hqc, hold]

/-- Ticks come, and calls begin, only where the current task is in no call. -/
def Undisturbed (st : Step Cpu CpuEvent) : Prop := st.event = .code ∨ st.pre.calls = []

/-- A step of the kernel is made by the processor, if no tick comes into it. -/
theorem Cpu.Idle.next (h : m.Idle) (ht : TaskInv m.kernel) {e : KernelEvent} (hn : KernelNext m.kernel e k') :
    ∃ tr m', Run CpuNext m tr m' ∧ m'.Idle ∧ m'.kernel = k' ∧ ∀ st ∈ tr, Undisturbed st := by
  have hbegin : ∀ {m₁ : Cpu} {e : CpuEvent}, CpuNext m e m₁ →
      (∃ m', Goes (fun _ => True) m₁ m' ∧ m'.Idle ∧ m'.kernel = k') →
      ∃ tr m', Run CpuNext m tr m' ∧ m'.Idle ∧ m'.kernel = k' ∧ ∀ st ∈ tr, Undisturbed st := by
    rintro m₁ e hfirst ⟨m', ⟨tr, hrun, hcode⟩, hidle, hkernel⟩
    refine ⟨[⟨m, e, m₁⟩] ++ tr, m', (Run.nil.snoc hfirst).append hrun, hidle, hkernel, fun st hst => ?_⟩
    rcases List.mem_append.1 hst with hst | hst
    · obtain rfl := List.mem_singleton.1 hst
      exact .inr h.calls
    · exact .inl (hcode st hst).1
  have hpush : ∀ f, Stands (m.push f) m.kernel [f] m.stack := by
    intro f
    refine ⟨rfl, ?_, fun q hq => ?_⟩
    · rw [Cpu.calls, Cpu.push, h.calls]
      exact Function.update_self ..
    · simp only [Cpu.push, Function.update_of_ne hq]
  have hS : Waiting m.kernel m.stack := h.others
  cases hn with
  | other hle => exact hbegin (.other h.calls hle) ⟨_, .refl _ _, ⟨h.calls, h.others⟩, rfl⟩
  | @call c _ _ hex => cases c with
    | schedule =>
      obtain ⟨_, hcall, h₁⟩ := map_ok hex
      cases h₁
      exact hbegin (.call h.calls (.inl rfl)) ((hpush .schedule).schedule_run hS hcall)
    | timer_tick =>
      obtain ⟨k₁, hcall, h₁⟩ := map_ok hex
      cases h₁
      refine hbegin .tick ?_
      unfold timer_tick at hcall
      unfold Cpu.tick
      simp only at hcall ⊢
      split at hcall
      · next hlt =>
        cases hcall
        rw [if_pos hlt]
        exact ⟨_, .refl _ _, ⟨h.calls, h.others⟩, rfl⟩
      · next hlt =>
        rw [if_neg hlt]
        refine Stands._schedule_run (S := m.stack) ⟨rfl, ?_, fun q hq => ?_⟩ hS hcall
        · rw [Cpu.calls, Cpu.push, Cpu.calls]
          simp only [Kernel.modTask_current]
          rw [Function.update_self]
          exact congrArg _ h.calls
        · exact Function.update_of_ne hq _ _
    | exit_process =>
      obtain ⟨_, hcall, h₁⟩ := map_ok hex
      cases h₁
      exact hbegin (.call h.calls (.inr ⟨_, rfl⟩)) ((hpush (.disable .exit_process)).exit_process_run hS hcall)
    | copy_process clone_flags fn arg =>
      obtain ⟨_, hcall, h₁⟩ := map_ok hex
      cases h₁
      exact hbegin (.call h.calls (.inr ⟨_, rfl⟩))
        ((hpush (.disable (.copy_process clone_flags fn arg))).copy_process_run ht hS hcall)

end Idle

/-- The processor before the first task is created. -/
def bootCpu (mm : Mm) : Cpu := ⟨bootKernel mm, fun _ => [], 0⟩

theorem Cpu.Idle.boot (mm : Mm) : (bootCpu mm).Idle := by
  refine ⟨rfl, fun i p hp hne => ?_⟩
  simp only [bootCpu, bootKernel] at hp hne
  split at hp
  · cases hp
    exact absurd rfl hne
  · cases hp

/-- A run of the kernel is one of the processor in which no tick comes into a call. -/
theorem KernelRuns.undisturbed {tr : List (Step Kernel KernelEvent)} {k : Kernel} (h : KernelRuns tr k) :
    ∃ mm tr' m, Run CpuNext (bootCpu mm) tr' m ∧ m.Idle ∧ m.kernel = k ∧ ∀ st ∈ tr', Undisturbed st := by
  obtain ⟨mm, hrun⟩ := h
  refine ⟨mm, ?_⟩
  induction hrun with
  | nil => exact ⟨[], _, .nil, Cpu.Idle.boot mm, rfl, by simp⟩
  | @snoc tr k e k' hrun hn ih =>
    obtain ⟨tr₁, m₁, hrun₁, hidle₁, rfl, hall₁⟩ := ih
    obtain ⟨tr₂, m₂, hrun₂, hidle₂, hkernel₂, hall₂⟩ := hidle₁.next (KernelRuns.taskInv ⟨mm, hrun⟩) hn
    refine ⟨tr₁ ++ tr₂, m₂, hrun₁.append hrun₂, hidle₂, hkernel₂, fun st hst => ?_⟩
    rcases List.mem_append.1 hst with hst | hst
    · exact hall₁ st hst
    · exact hall₂ st hst

end ClbFilesystem
