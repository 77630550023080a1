import ClbFilesystem.Paging
/-!
# The scheduler and fork (`sched.c`, `fork.c`)

`switch_to` returns in the task switched to: in one that has run before, behind
the call in `_schedule`, in a new one in `ret_from_fork`, which calls
`schedule_tail`. Both go on with `preempt_enable`.
-/

namespace ClbFilesystem

def preempt_disable (k : Kernel) : Kernel :=
  k.modTask k.current fun t => { t with preempt_count := t.preempt_count + 1 }

def preempt_enable (k : Kernel) : Kernel :=
  k.modTask k.current fun t => { t with preempt_count := t.preempt_count - 1 }

/-! ## `_schedule` -/

/-- The test of the scan, on `task[i]`. -/
def Kernel.better (k : Kernel) (c : Int) (i : Fin NR_TASKS) : Bool :=
  match k.task i with
  | some p => (k.task_struct p).state = .RUNNING ∧ (k.task_struct p).counter > c
  | none => false

/-- `c = p->counter`, into an `int`. -/
def Kernel.counterOf (k : Kernel) (i : Fin NR_TASKS) : Int :=
  match k.task i with
  | some p => toInt (k.task_struct p).counter
  | none => 0

/-- The first loop: `c` and `next`. -/
def scan (k : Kernel) : Int × Fin NR_TASKS :=
  (List.finRange NR_TASKS).foldl (fun x i => if k.better x.1 i then (k.counterOf i, i) else x) (-1, ⟨0, by decide⟩)

/-- `p->counter = (p->counter >> 1) + p->priority;` for `p = task[i]`. -/
def refillTask (k : Kernel) (i : Fin NR_TASKS) : Kernel :=
  match k.task i with
  | some p => k.modTask p fun t => { t with counter := (t.counter >>> (1 : Nat)) + t.priority }
  | none => k

/-- The second loop. -/
def refill (k : Kernel) : Kernel := (List.finRange NR_TASKS).foldl refillTask k

/-- The `while (1)`; with 64-bit counters it goes on for ever after so many turns. -/
def select : Nat → Kernel → Except Fault (Fin NR_TASKS × Kernel)
  | 0, _ => .error .diverges
  | n + 1, k =>
    let (c, next) := scan k
    if c ≠ 0 then .ok (next, k) else select n (refill k)

def switch_to (next : TaskPtr) (k : Kernel) : Kernel :=
  if k.current = next then k else { k with current := next }

def _schedule (k : Kernel) : Except Fault Kernel := do
  let k := preempt_disable k
  let (next, k) ← select 128 k
  match k.task next with
  | none => .error .nullPointer
  | some p => return preempt_enable (switch_to p k)

def schedule (k : Kernel) : Except Fault Kernel :=
  _schedule (k.modTask k.current fun t => { t with counter := 0 })

def timer_tick (k : Kernel) : Except Fault Kernel :=
  let k := k.modTask k.current fun t => { t with counter := t.counter - 1 }
  let t := k.task_struct k.current
  if t.counter > 0 ∨ t.preempt_count > 0 then .ok k
  else _schedule (k.modTask k.current fun t => { t with counter := 0 })

/-- The loop of `exit_process`: the current task becomes a zombie. -/
def markZombie (k : Kernel) : Kernel :=
  match (List.finRange NR_TASKS).find? fun i => k.task i = some k.current with
  | some _ => k.modTask k.current fun t => { t with state := .ZOMBIE }
  | none => k

def exit_process (k : Kernel) : Except Fault Kernel :=
  schedule (preempt_enable (markZombie (preempt_disable k)))

/-! ## `copy_process` -/

/-- The branch for a kernel thread, and the one for a copy of the current task, whose saved registers are
overwritten with those of the new one. -/
def startTask (clone_flags fn arg : Nat) (p : TaskPtr) (k : Kernel) : Except Fault Kernel :=
  if clone_flags &&& PF_KTHREAD ≠ 0 then
    .ok (k.modTask p fun t => { t with cpu_context := { t.cpu_context with x19 := fn, x20 := arg } })
  else do
    let k := { k with pt_regs := Function.update k.pt_regs k.current (k.pt_regs p) }
    let childregs := { k.pt_regs p with regs := Function.update (k.pt_regs p).regs 0 0 }
    let k := { k with pt_regs := Function.update k.pt_regs p childregs }
    let (_, mm_struct, mm) ← copy_virt_memory (k.task_struct k.current).mm (k.task_struct p).mm k.toMm
    return { k with toMm := mm }.modTask p ({ · with mm := mm_struct })

/-- The new task gets a slot. -/
def publish (clone_flags : Nat) (p : TaskPtr) (k : Kernel) : Except Fault (Int × Kernel) := do
  let priority := (k.task_struct k.current).priority
  let k := k.modTask p fun t =>
    { t with
      flags := clone_flags, priority := priority, state := .RUNNING, counter := priority, preempt_count := 1
      cpu_context := { t.cpu_context with pc := some .ret_from_fork, sp := some p } }
  let pid := k.nr_tasks
  let i ← taskIndex pid
  return (pid, { k with nr_tasks := pid + 1, task := Function.update k.task i (some p) })

/-- `copy_process` without the `preempt_disable` before and the `preempt_enable` behind it; the return for want
of a page comes with `none`. -/
def copyBody (clone_flags fn arg : Nat) (k : Kernel) : Except Fault (Option Int × Kernel) := do
  let (page, mm) := allocate_kernel_page k.toMm
  let k := { k with toMm := mm }
  if page = 0 then return (none, k)
  let p := TaskPtr.page page
  let k ← startTask clone_flags fn arg p (k.freshTask p)
  let (pid, k) ← publish clone_flags p k
  return (some pid, k)

def copy_process (clone_flags fn arg : Nat) (k : Kernel) : Except Fault (Int × Kernel) := do
  match ← copyBody clone_flags fn arg (preempt_disable k) with
  | (none, k) => return (-1, k)
  | (some pid, k) => return (pid, preempt_enable k)

end ClbFilesystem
