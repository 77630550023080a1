import ClbFilesystem.Memory
import ClbFilesystem.Strings
/-!
# Tasks (`sched.h`, `fork.h`)

A task has a page of its own: the `task_struct` at its bottom, and at its top the
registers saved when it entered the kernel. Both are kept as records next to the
memory, zero in a page the allocator has just handed out. What `cpu_switch_to`
saves is left out but for the four registers a new task starts with.
-/

namespace ClbFilesystem

def NR_TASKS : Nat := 64
def MAX_PROCESS_PAGES : Nat := 16
def PF_KTHREAD : Nat := 2

theorem kthread_flag : PF_KTHREAD &&& PF_KTHREAD ≠ 0 := by decide

/-- There are more pages than slots. -/
theorem NR_TASKS_pos : 0 < NR_TASKS := by decide
theorem NR_TASKS_lt : NR_TASKS < PAGING_PAGES := by decide

/-- `TASK_RUNNING` and `TASK_ZOMBIE`. -/
inductive TaskState where
  | RUNNING | ZOMBIE
  deriving DecidableEq, Repr

/-- A pointer to a task: the static one, or the kernel address of a page. -/
inductive TaskPtr where
  | init_task
  | page (a : Nat)
  deriving DecidableEq, Repr

/-- Where a task that has never run starts. -/
inductive Routine where
  | ret_from_fork
  deriving DecidableEq, Repr

/-- Part of `struct cpu_context`; `sp` points to the saved registers of a task. -/
structure CpuContext where
  x19 : Nat
  x20 : Nat
  sp : Option TaskPtr
  pc : Option Routine

structure UserPage where
  phys_addr : Nat
  virt_addr : Nat
  deriving DecidableEq

/-- `struct mm_struct`. Entries of `kernel_pages` from 16 on land in the unused part of the task's page. -/
structure MmStruct where
  pgd : Nat
  user_pages_count : Nat
  user_pages : Fin MAX_PROCESS_PAGES → UserPage
  kernel_pages_count : Nat
  kernel_pages : Nat → Nat

/-- `struct task_struct`. -/
structure TaskStruct where
  cpu_context : CpuContext
  state : TaskState
  counter : Int
  priority : Int
  preempt_count : Int
  flags : Nat
  mm : MmStruct

/-- `struct pt_regs`. -/
@[ext]
structure PtRegs where
  regs : Fin 31 → Nat
  sp : Nat
  pc : Nat
  pstate : Nat

/-- What a zeroed page holds. -/
def MmStruct.zero : MmStruct := ⟨0, 0, fun _ => ⟨0, 0⟩, 0, fun _ => 0⟩
def TaskStruct.zero : TaskStruct := ⟨⟨0, 0, none, none⟩, .RUNNING, 0, 0, 0, 0, .zero⟩
def PtRegs.zero : PtRegs := ⟨fun _ => 0, 0, 0, 0⟩

/-- What the scheduler and the page allocator work on. -/
structure Kernel extends Mm where
  task_struct : TaskPtr → TaskStruct
  pt_regs : TaskPtr → PtRegs
  task : Fin NR_TASKS → Option TaskPtr
  nr_tasks : Nat
  current : TaskPtr

/-- `INIT_TASK`. -/
def INIT_TASK : TaskStruct := { TaskStruct.zero with priority := 15, flags := PF_KTHREAD }

/-- The kernel before its first task is created, on any memory and with any pages taken. -/
def bootKernel (mm : Mm) : Kernel where
  toMm := mm
  task_struct p := if p = .init_task then INIT_TASK else .zero
  pt_regs _ := .zero
  task i := if i.val = 0 then some .init_task else none
  nr_tasks := 1
  current := .init_task

/-- The only task at boot. -/
theorem bootKernel_task {mm : Mm} {i : Fin NR_TASKS} {p : TaskPtr} (h : (bootKernel mm).task i = some p) :
    i.val = 0 ∧ p = .init_task := by
  simp only [bootKernel] at h
  split at h
  · next hi =>
    cases h
    exact ⟨hi, rfl⟩
  · cases h

namespace Kernel

def modTask (k : Kernel) (p : TaskPtr) (f : TaskStruct → TaskStruct) : Kernel :=
  { k with task_struct := Function.update k.task_struct p (f (k.task_struct p)) }

/-- Page `p`, just handed out, becomes a task. -/
def freshTask (k : Kernel) (p : TaskPtr) : Kernel :=
  { k with
    task_struct := Function.update k.task_struct p .zero
    pt_regs := Function.update k.pt_regs p .zero }

variable (k : Kernel) (p q : TaskPtr) (f : TaskStruct → TaskStruct)

@[simp] theorem modTask_task_struct :
    (k.modTask p f).task_struct q = if q = p then f (k.task_struct q) else k.task_struct q := by
  simp only [modTask, Function.update_apply]
  split
  · next h => rw [h]
  · rfl

@[simp] theorem modTask_toMm : (k.modTask p f).toMm = k.toMm := rfl
@[simp] theorem modTask_pt_regs : (k.modTask p f).pt_regs = k.pt_regs := rfl
@[simp] theorem modTask_task : (k.modTask p f).task = k.task := rfl
@[simp] theorem modTask_nr_tasks : (k.modTask p f).nr_tasks = k.nr_tasks := rfl
@[simp] theorem modTask_current : (k.modTask p f).current = k.current := rfl

@[simp] theorem freshTask_task_struct :
    (k.freshTask p).task_struct q = if q = p then .zero else k.task_struct q := by
  simp only [freshTask, Function.update_apply]

@[simp] theorem freshTask_pt_regs : (k.freshTask p).pt_regs q = if q = p then .zero else k.pt_regs q := by
  simp only [freshTask, Function.update_apply]

@[simp] theorem freshTask_toMm : (k.freshTask p).toMm = k.toMm := rfl
@[simp] theorem freshTask_task : (k.freshTask p).task = k.task := rfl
@[simp] theorem freshTask_nr_tasks : (k.freshTask p).nr_tasks = k.nr_tasks := rfl
@[simp] theorem freshTask_current : (k.freshTask p).current = k.current := rfl

end Kernel

/-- `task[pid]`, when the index is one. -/
def taskIndex (pid : Nat) : Except Fault (Fin NR_TASKS) :=
  if h : pid < NR_TASKS then .ok ⟨pid, h⟩ else .error .outOfBounds

end ClbFilesystem
