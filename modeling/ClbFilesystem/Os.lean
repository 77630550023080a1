import ClbFilesystem.PageTree
import ClbFilesystem.Preemption
import ClbFilesystem.Descriptors
/-!
# The operating system as a whole

The filesystem and the tasks on one memory: what a process does in user mode, the
system calls, the timer and the data abort, one after the other, by whichever
task is current. A process reaches memory through the tables in `ttbr0_el1`
alone. The buffer of a call of the filesystem is given by its kernel address.
What results about whole runs rest on, and nothing checks, is `Orderly`.
-/

namespace ClbFilesystem

open Lib

/-! ## The first process (`fork.c`) and the data abort (`mm.c`) -/

def PSR_MODE_EL0t : Nat := 0

def Kernel.setMem (k : Kernel) (mem : Mem) : Kernel := { k with mem := mem }

/-- `move_to_user_mode`: the process starts at `pc` in a copy of the `size` bytes at `start`. -/
def move_to_user_mode (start size pc : Nat) (k : Kernel) : Except Fault (Int × Kernel) := do
  let regs := { k.pt_regs k.current with pstate := PSR_MODE_EL0t, pc := pc, sp := 2 * PAGE_SIZE }
  let k := { k with pt_regs := Function.update k.pt_regs k.current regs }
  let (code_page, mm_struct, mm) ← allocate_user_page (k.task_struct k.current).mm 0 k.toMm
  let k := { k with toMm := mm }.modTask k.current ({ · with mm := mm_struct })
  if code_page = 0 then return (-1, k)
  return (0, k.setMem (memcpy k.mem start code_page (toLong size)))

/-- A translation fault, on any level. -/
def TranslationFault (esr : Nat) : Prop := (esr &&& 0b111111) &&& 0b111100 = 0b100

instance (esr : Nat) : Decidable (TranslationFault esr) := inferInstanceAs (Decidable (_ = _))

/-- `do_mem_abort`, with the static `ind` before and after. -/
def do_mem_abort (addr esr : Nat) (ind : Int) (k : Kernel) : Except Fault (Int × Int × Kernel) := do
  if TranslationFault esr then
    let (page, mm) := get_free_page k.toMm
    if page = 0 then return (-1, ind, { k with toMm := mm })
    let (mm_struct, mm) ← map_page (k.task_struct k.current).mm (addr &&& PAGE_MASK) page mm
    let k := { k with toMm := mm }.modTask k.current ({ · with mm := mm_struct })
    let ind := ind + 1
    if ind > 2 then return (-1, ind, k)
    return (0, ind, k)
  else return (-1, ind, k)

/-! ## States -/

/-- The kernel, the register with the page tables of the lower half, the tables of the filesystem and `ind`. -/
structure Os extends Kernel where
  ttbr0_el1 : Nat
  RAM_inodes_table : Fin FS_NPAGES → Inode
  open_inodes : Fin MAX_OPEN_FILES → FileDescriptor
  token : List UInt8
  ind : Int

/-- `task->mm` -/
def Kernel.mm_struct (k : Kernel) (p : TaskPtr) : MmStruct := (k.task_struct p).mm

namespace Os

/-- What the filesystem works on. It allocates at boot only, so the map of the pages is that of then. -/
def fs (o : Os) : State where
  mem := o.mem
  mem_map p := if p.val < FS_NPAGES then 1 else 0
  RAM_inodes_table := o.RAM_inodes_table
  open_inodes := o.open_inodes
  token := o.token

def withFs (o : Os) (s : State) : Os :=
  { o with
    mem := s.mem
    RAM_inodes_table := s.RAM_inodes_table
    open_inodes := s.open_inodes
    token := s.token }

/-- `switch_to` is called for another task than the current one; it loads the tables of that task. -/
def withKernel (o : Os) (k : Kernel) : Os :=
  { o with
    toKernel := k
    ttbr0_el1 := if k.current = o.current then o.ttbr0_el1 else (k.mm_struct k.current).pgd }

/-- The physical address a user address of a task leads to, if the task has tables. -/
def physical (o : Os) (p : TaskPtr) (va : Nat) : Option Nat :=
  if (o.mm_struct p).pgd = 0 then none else translate o.mem (o.mm_struct p).pgd va

/-- What a process reads at an address. -/
def load (o : Os) (p : TaskPtr) (va : Nat) : Option UInt8 := (o.physical p va).map fun pa => o.mem (pa + VA_START)

/-- Where the current task may well have the kernel write: outside the pages of the allocator, in the page with its
stack, or in memory of its own. -/
def Owns (o : Os) (a : Nat) : Prop :=
  ¬ InPaging a ∨ (∃ i : Fin PAGING_PAGES, o.current = .page (pageAddr i) ∧ pageAddr i ≤ a ∧ a < pageAddr i + PAGE_SIZE) ∨
    ∃ va pa, o.physical o.current va = some pa ∧ a = pa + VA_START

end Os

/-- The buffer of a call and its length, in whole words where the call writes whole words. -/
def Call.buffer : Call → Nat × Nat
  | .read_file _ str len => (str, words len.toNat)
  | .write_file _ str len => (str, max len.toNat 1)
  | .append_file _ str len => (str, max len.toNat 1)
  | .get_next_dir_son _ son_name => (son_name, MAX_SIZE_NAME + 1)
  | _ => (0, 0)

/-! ## Steps -/

inductive OsEvent where
  | kernel (c : KernelCall) (pid : Option Int)
  | vfs (c : Call) (r : Reply)
  /-- A process stores a byte. -/
  | store (va : Nat) (b : UInt8)
  /-- A process enters the kernel, and its registers are saved. -/
  | entry (regs : PtRegs)
  /-- The kernel works on data of its own and on the stack of the current task. -/
  | stack
  | move_to_user_mode (start size pc : Nat) (r : Int)
  | mem_abort (addr esr : Nat) (r : Int)

inductive OsNext : Os → OsEvent → Os → Prop
  | kernel {o c pid k} : c.exec o.toKernel = .ok (pid, k) → OsNext o (.kernel c pid) (o.withKernel k)
  | vfs {o c r s} : exec c o.fs = .ok (r, s) → OsNext o (.vfs c r) (o.withFs s)
  | store {o va b pa} : translate o.mem o.ttbr0_el1 va = some pa →
    OsNext o (.store va b) { o with mem := Function.update o.mem (pa + VA_START) b }
  | entry {o regs} : OsNext o (.entry regs) { o with pt_regs := Function.update o.pt_regs o.current regs }
  | stack {o : Os} {mem : Mem} : (∀ a, mem a ≠ o.mem a → ¬ InPaging a ∨
      ∃ i : Fin PAGING_PAGES, o.current = .page (pageAddr i) ∧ pageAddr i ≤ a ∧ a < pageAddr i + PAGE_SIZE) →
    OsNext o .stack { o with mem := mem }
  | move_to_user_mode {o : Os} {start size pc : Nat} {r : Int} {k : Kernel} :
    move_to_user_mode start size pc o.toKernel = .ok (r, k) → OsNext o (.move_to_user_mode start size pc r)
      { o with toKernel := k, ttbr0_el1 := if r = 0 then (k.mm_struct k.current).pgd else o.ttbr0_el1 }
  | mem_abort {o addr esr r ind k} : do_mem_abort addr esr o.ind o.toKernel = .ok (r, ind, k) →
    OsNext o (.mem_abort addr esr r) { o with toKernel := k, ind := ind }

/-- `kernel_main` has called `init_fs`, and starts the first task. The tables of the lower half are still those of `boot.S`. -/
def bootOs (s : State) (idmap_dir : Nat) : Os where
  toKernel := bootKernel s.toMm
  ttbr0_el1 := idmap_dir
  RAM_inodes_table := s.RAM_inodes_table
  open_inodes := s.open_inodes
  token := s.token
  ind := 1

/-- A run of the system from boot. -/
def OsRuns (tr : List (Step Os OsEvent)) (o : Os) : Prop :=
  ∃ mem s₀ idmap_dir, init_fs (boot mem) = .ok s₀ ∧ Run OsNext (bootOs s₀ idmap_dir) tr o

/-- The caller gives a buffer of its own, or a program that fits in its page, and what is done in user mode is done by a
task with tables. The code checks none of it. -/
def OsEvent.Orderly (o : Os) : OsEvent → Prop
  | .vfs c _ => ∀ k < c.buffer.2, o.Owns (c.buffer.1 + k)
  | .move_to_user_mode _ size _ _ => words (toLong size) ≤ PAGE_SIZE
  | .store _ _ | .mem_abort _ _ _ => (o.mm_struct o.current).pgd ≠ 0
  | .kernel _ _ | .entry _ | .stack => True

/-- Besides, there has been a page for every table the step allocates; the code does not look. -/
structure Orderly (st : Step Os OsEvent) : Prop where
  event : st.event.Orderly st.pre
  tabled : ∀ p, (st.post.mm_struct p).Tabled

/-- A run from boot in which all steps are such. -/
structure OrderlyRuns (tr : List (Step Os OsEvent)) (o : Os) : Prop where
  runs : OsRuns tr o
  orderly : ∀ st ∈ tr, Orderly st

/-! ## The two parts -/

/-- A step as the filesystem has it. -/
def OsEvent.fs : OsEvent → Event
  | .vfs c r => .call c r
  | _ => .user

/-- A step as the scheduler has it. -/
def OsEvent.sched : OsEvent → KernelEvent
  | .kernel c pid => .call c pid
  | _ => .other

end ClbFilesystem
