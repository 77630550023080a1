import ClbFilesystem.State
import ClbFilesystem.Task
/-!
# Virtual memory (`mm.c`)

The four levels of page tables of a user process, and the copy of its pages at a
fork. The kernel sees physical memory at `VA_START`; a user address goes through
the tables of the current task. The 0 of a failed allocation is the address of a
page like any other, and the code goes on through it. The variables of the kernel
are kept beside the memory, out of the way of what it stores there.
-/

namespace ClbFilesystem

/-! ## Words of memory -/

/-- The 64-bit word at an address. -/
def Mem.word (m : Mem) (a : Nat) : Nat := ofLeBytes ((List.range 8).map fun k => m (a + k))

def Mem.setWord (m : Mem) (a v : Nat) : Mem := fun b =>
  if a ≤ b ∧ b < a + 8 then (leBytes 8 v).getD (b - a) 0 else m b

/-! ## Constants (`mm.h`, `mmu.h`) -/

def PAGE_MASK : Nat := 0xfffffffffffff000
def PTRS_PER_TABLE : Nat := 1 <<< TABLE_SHIFT
def PGD_SHIFT : Nat := PAGE_SHIFT + 3 * TABLE_SHIFT
def PUD_SHIFT : Nat := PAGE_SHIFT + 2 * TABLE_SHIFT
def PMD_SHIFT : Nat := PAGE_SHIFT + TABLE_SHIFT
def MM_TYPE_PAGE_TABLE : Nat := 0x3
def MM_TYPE_PAGE : Nat := 0x3
def MT_NORMAL_NC : Nat := 0x1
def MM_ACCESS : Nat := 0x1 <<< 10
def MM_ACCESS_PERMISSION : Nat := 0x01 <<< 6
def MMU_PTE_FLAGS : Nat := MM_TYPE_PAGE ||| (MT_NORMAL_NC <<< 2) ||| MM_ACCESS ||| MM_ACCESS_PERMISSION

/-- The index bits of a level in a virtual address. -/
def tableIndex (va shift : Nat) : Nat := (va >>> shift) &&& (PTRS_PER_TABLE - 1)

/-! ## The MMU -/

/-- The output address bits of a descriptor. -/
def ADDRESS_MASK : Nat := 0x0000fffffffff000

/-- One level of the walk; a descriptor leads on when its two low bits are set. -/
def descend (m : Mem) (table shift va : Nat) : Option Nat :=
  let entry := m.word (table + VA_START + 8 * tableIndex va shift)
  if entry % 4 = 3 then some (entry &&& ADDRESS_MASK) else none

/-- The physical address of a user address. -/
def translate (m : Mem) (pgd va : Nat) : Option Nat := do
  let pud ← descend m pgd PGD_SHIFT va
  let pmd ← descend m pud PUD_SHIFT va
  let pte ← descend m pmd PMD_SHIFT va
  let page ← descend m pte PAGE_SHIFT va
  return page + va % PAGE_SIZE

/-- `ldr x3, [src]` from a user address, then `str x3, [dst]`. -/
def copy8_user (pgd : Nat) (m : Mem) (src dst : Nat) : Except Fault Mem :=
  match translate m pgd src with
  | none => .error .outOfBounds
  | some pa => .ok (m.copy8 (pa + VA_START) dst)

/-- `memcpy` from a user address. -/
def memcpy_user (pgd : Nat) (m : Mem) (x0 x1 : Nat) (x2 : Int) : Except Fault Mem := do
  let m ← copy8_user pgd m x0 x1
  if 0 < x2 - 8 then memcpy_user pgd m (x0 + 8) (x1 + 8) (x2 - 8) else return m
termination_by x2.toNat

/-! ## Page tables -/

/-- The kernel addresses of the pages of the allocator. -/
def InPaging (a : Nat) : Prop := VA_START + LOW_MEMORY ≤ a ∧ a < VA_START + HIGH_MEMORY

instance (a : Nat) : Decidable (InPaging a) := inferInstanceAs (Decidable (_ ∧ _))

/-- `p + VA_START` -/
def kernelAddr (p : Nat) : Nat := toUlong ((p + VA_START : Nat) : Int)

/-- `table[index]` -/
def readEntry (mm : Mm) (table index : Nat) : Nat := mm.mem.word (table + 8 * index)

/-- `table[index] = entry;` -/
def writeEntry (mm : Mm) (table index entry : Nat) : Mm := { mm with mem := mm.mem.setWord (table + 8 * index) entry }

def map_table_entry (pte va pa : Nat) (mm : Mm) : Mm := writeEntry mm pte (tableIndex va PAGE_SHIFT) (pa ||| MMU_PTE_FLAGS)

/-- The physical address of the next table, and `new_table`. -/
def map_table (table shift va : Nat) (mm : Mm) : (Nat × Bool) × Mm :=
  let index := tableIndex va shift
  let entry := readEntry mm table index
  if entry = 0 then
    let (next_level_table, mm) := get_free_page mm
    ((next_level_table, true), writeEntry mm table index (next_level_table ||| MM_TYPE_PAGE_TABLE))
  else ((entry &&& PAGE_MASK, false), mm)

/-- `task->mm.kernel_pages[++task->mm.kernel_pages_count] = page;` -/
def MmStruct.addKernelPage (t : MmStruct) (page : Nat) : MmStruct :=
  { t with
    kernel_pages_count := t.kernel_pages_count + 1
    kernel_pages := Function.update t.kernel_pages (t.kernel_pages_count + 1) page }

/-- `task->mm.user_pages[task->mm.user_pages_count++] = p;` -/
def MmStruct.addUserPage (t : MmStruct) (p : UserPage) : Except Fault MmStruct :=
  if h : t.user_pages_count < MAX_PROCESS_PAGES then
    .ok { t with
      user_pages_count := t.user_pages_count + 1
      user_pages := Function.update t.user_pages ⟨t.user_pages_count, h⟩ p }
  else .error .outOfBounds

/-- `map_page` on the `mm` of the task. -/
def map_page (t : MmStruct) (va page : Nat) (mm : Mm) : Except Fault (MmStruct × Mm) := do
  let (t, mm) :=
    if t.pgd = 0 then
      let (pgd, mm) := get_free_page mm
      ({ t with pgd := pgd }.addKernelPage pgd, mm)
    else (t, mm)
  let pgd := t.pgd
  let ((pud, new_table), mm) := map_table (kernelAddr pgd) PGD_SHIFT va mm
  let t := if new_table then t.addKernelPage pud else t
  let ((pmd, new_table), mm) := map_table (kernelAddr pud) PUD_SHIFT va mm
  let t := if new_table then t.addKernelPage pmd else t
  let ((pte, new_table), mm) := map_table (kernelAddr pmd) PMD_SHIFT va mm
  let t := if new_table then t.addKernelPage pte else t
  let mm := map_table_entry (kernelAddr pte) va page mm
  let t ← t.addUserPage ⟨page, va⟩
  return (t, mm)

/-- The kernel address of the new page, or 0. -/
def allocate_user_page (t : MmStruct) (va : Nat) (mm : Mm) : Except Fault (Nat × MmStruct × Mm) := do
  let (page, mm) := get_free_page mm
  if page = 0 then return (0, t, mm)
  let (t, mm) ← map_page t va page mm
  return (page + VA_START, t, mm)

/-- The loop of `copy_virt_memory` from page `i`; there are at most `MAX_PROCESS_PAGES` turns. -/
def copyLoop (src : MmStruct) : Nat → Nat → MmStruct → Mm → Except Fault (Int × MmStruct × Mm)
  | 0, _, _, _ => .error .outOfBounds
  | n + 1, i, dst, mm =>
    if i < src.user_pages_count then
      if h : i < MAX_PROCESS_PAGES then do
        let va := (src.user_pages ⟨i, h⟩).virt_addr
        let (kernel_va, dst, mm) ← allocate_user_page dst va mm
        if kernel_va = 0 then return (-1, dst, mm)
        let mem ← memcpy_user src.pgd mm.mem va kernel_va PAGE_SIZE
        copyLoop src n (i + 1) dst { mm with mem := mem }
      else .error .outOfBounds
    else .ok (0, dst, mm)

/-- `copy_virt_memory` from the `mm` of the current task to that of another. -/
def copy_virt_memory (src dst : MmStruct) (mm : Mm) : Except Fault (Int × MmStruct × Mm) :=
  copyLoop src (MAX_PROCESS_PAGES + 1) 0 dst mm

/-! ## The way of `map_page` -/

/-- The first step of `map_page`: the table at the top. -/
def mapRoot (t : MmStruct) (mm : Mm) : MmStruct × Mm :=
  if t.pgd = 0 then
    let (pgd, mm) := get_free_page mm
    (({ t with pgd := pgd } : MmStruct).addKernelPage pgd, mm)
  else (t, mm)

/-- `if (new_table) task->mm.kernel_pages[++task->mm.kernel_pages_count] = ..` -/
def MmStruct.addTable (t : MmStruct) (r : Nat × Bool) : MmStruct := if r.2 then t.addKernelPage r.1 else t

/-- The tables `r₁`, `r₂` and `r₃`, one below the other. -/
theorem map_page_eq {t : MmStruct} {va : Nat} {mm : Mm} {r₁ r₂ r₃ : (Nat × Bool) × Mm}
    (h₁ : map_table (kernelAddr (mapRoot t mm).1.pgd) PGD_SHIFT va (mapRoot t mm).2 = r₁)
    (h₂ : map_table (kernelAddr r₁.1.1) PUD_SHIFT va r₁.2 = r₂) (h₃ : map_table (kernelAddr r₂.1.1) PMD_SHIFT va r₂.2 = r₃)
    (page : Nat) : map_page t va page mm =
      (((((mapRoot t mm).1.addTable r₁.1).addTable r₂.1).addTable r₃.1).addUserPage ⟨page, va⟩).bind fun t' =>
        .ok (t', map_table_entry (kernelAddr r₃.1.1) va page r₃.2) := by
  have hroot : (if t.pgd = 0 then
      let (pgd, mm) := get_free_page mm
      ({ t with pgd := pgd }.addKernelPage pgd, mm)
    else (t, mm)) = mapRoot t mm := rfl
  simp only [map_page, hroot]
  generalize mapRoot t mm = r₀ at h₁
  obtain ⟨t₁, mm₁⟩ := r₀
  obtain ⟨⟨pud, new₁⟩, mm₂⟩ := r₁
  obtain ⟨⟨pmd, new₂⟩, mm₃⟩ := r₂
  obtain ⟨⟨pte, new₃⟩, mm₄⟩ := r₃
  simp only [h₁, h₂, h₃]
  rfl

end ClbFilesystem
