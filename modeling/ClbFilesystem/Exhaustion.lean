import ClbFilesystem.Translations
/-!
# Running out of pages

`map_table` and `map_page` look at no allocation they make, and go on through page
0. Here they also note the tables they go through and the descriptors they store;
otherwise they do the same.
-/

namespace ClbFilesystem

open Lib

/-! ## Page 0 and all -/

/-- Memory, the kernel addresses of the tables gone through, and the descriptors stored. -/
structure Phys extends Mm where
  tables : List Nat
  stored : List Nat

namespace Phys

/-- `table[index] = entry;` -/
def store (m : Phys) (table index entry : Nat) : Phys :=
  { m with
    mem := m.mem.setWord (table + 8 * index) entry
    tables := table :: m.tables
    stored := entry :: m.stored }

def map_table_entry (pte va pa : Nat) (m : Phys) : Phys :=
  m.store pte (tableIndex va PAGE_SHIFT) (pa ||| MMU_PTE_FLAGS)

/-- The physical address of the next table, and `new_table`. -/
def map_table (table shift va : Nat) (m : Phys) : (Nat × Bool) × Phys :=
  let index := tableIndex va shift
  let entry := m.mem.word (table + 8 * index)
  if entry = 0 then
    let (next_level_table, mm) := get_free_page m.toMm
    ((next_level_table, true), { m with toMm := mm }.store table index (next_level_table ||| MM_TYPE_PAGE_TABLE))
  else ((entry &&& PAGE_MASK, false), { m with tables := table :: m.tables })

/-- `map_page` on the `mm` of the task. -/
def map_page (t : MmStruct) (va page : Nat) (m : Phys) : Except Fault (MmStruct × Phys) := do
  let (t, m) :=
    if t.pgd = 0 then
      let (pgd, mm) := get_free_page m.toMm
      ({ t with pgd := pgd }.addKernelPage pgd, { m with toMm := mm })
    else (t, m)
  let pgd := t.pgd
  let ((pud, new_table), m) := map_table (kernelAddr pgd) PGD_SHIFT va m
  let t := if new_table then t.addKernelPage pud else t
  let ((pmd, new_table), m) := map_table (kernelAddr pud) PUD_SHIFT va m
  let t := if new_table then t.addKernelPage pmd else t
  let ((pte, new_table), m) := map_table (kernelAddr pmd) PMD_SHIFT va m
  let t := if new_table then t.addKernelPage pte else t
  let m := map_table_entry (kernelAddr pte) va page m
  let t ← t.addUserPage ⟨page, va⟩
  return (t, m)

/-- The kernel address of the new page, or 0. -/
def allocate_user_page (t : MmStruct) (va : Nat) (m : Phys) : Except Fault (Nat × MmStruct × Phys) := do
  let (page, mm) := get_free_page m.toMm
  let m := { m with toMm := mm }
  if page = 0 then return (0, t, m)
  let (t, m) ← map_page t va page m
  return (kernelAddr page, t, m)

end Phys

/-- Nothing has been done to tables yet. -/
def Mm.toPhys (mm : Mm) : Phys := ⟨mm, [], []⟩

/-- No descriptor without an address has been stored, page 0 has been neither the top table nor any other, and is not
among the pages noted for reclaim since `t`. -/
structure Phys.Clean (m : Phys) (t t' : MmStruct) : Prop where
  pgd : t'.pgd = t.pgd ∨ t'.pgd ≠ 0
  kernel_pages : ∀ k, t.kernel_pages_count < k → k ≤ t'.kernel_pages_count → t'.kernel_pages k ≠ 0
  tables : ∀ table ∈ m.tables, table ≠ kernelAddr 0
  stored : ∀ entry ∈ m.stored, entry &&& PAGE_MASK ≠ 0

/-- The call maps the address to a new page and returns this, or returns 0 and leaves the tables of the task and what
they say as they were. -/
def MmStruct.Allocates (t : MmStruct) (va : Nat) (mm : Mm) : Prop :=
  ∃ ret t' m', Phys.allocate_user_page t va mm.toPhys = .ok (ret, t', m') ∧ m'.Clean t t' ∧
    ((∃ page, page ≠ 0 ∧ ret = page + VA_START ∧ walkTables m'.mem t'.pgd va = some page) ∨
      ret = 0 ∧ t' = t ∧ (∀ i, mm.mem_map i ≠ 0 → ∀ o < PAGE_SIZE, m'.byte i o = mm.byte i o) ∧
      ∀ va', walkTables m'.mem t'.pgd va' = walkTables mm.mem t.pgd va')

/-- The call stores no descriptor without an address, and takes page 0 for no table. -/
def MmStruct.Maps (t : MmStruct) (va page : Nat) (mm : Mm) : Prop :=
  ∃ t' m', Phys.map_page t va page mm.toPhys = .ok (t', m') ∧ m'.Clean t t'

/-- The tables missing below one on the way to an address. -/
def missingBelow (m : Mem) (va : Nat) : List Nat → Nat → Nat
  | [], _ => 0
  | shift :: shifts, table => match nextTable m table shift va with
    | none => shifts.length + 1
    | some next => missingBelow m va shifts next

/-- The tables of a task that are missing on the way to an address. -/
def missingTables (m : Mem) (pgd va : Nat) : Nat :=
  if pgd = 0 then 4 else missingBelow m va [PGD_SHIFT, PUD_SHIFT, PMD_SHIFT] pgd

section Missing
variable {mm mm' : Mm} {pgd : Nat} {place : List (Fin 512) → Fin PAGING_PAGES} {N : Finset (List (Fin 512))}
  {leaf : List (Fin 512) → Option (Fin PAGING_PAGES)} {n : List (Fin 512)} {shifts : List Nat}

/-- Below a table without entries all are missing. -/
theorem PageTree.missing_bare (h : PageTree mm pgd place N leaf) (hn : n ∈ N) (hlen : n.length + shifts.length ≤ 3)
    (hbare : ∀ x, n ++ [x] ∉ N) (va : Nat) : missingBelow mm.mem va shifts (physAddr (place n)) = shifts.length := by
  cases shifts with
  | nil => rfl
  | cons shift shifts =>
    have hn3 : n.length < 3 := by
      rw [List.length_cons] at hlen
      omega
    rw [missingBelow, h.nextTable hn hn3, if_neg (hbare _)]
    rfl

/-- One level down, where the next table is there. -/
theorem PageTree.missing_next (h : PageTree mm pgd place N leaf) (hn : n ∈ N) (hlen : n.length < 3) {va shift : Nat}
    (hmem : n ++ [entryIndex va shift] ∈ N) : missingBelow mm.mem va (shift :: shifts) (physAddr (place n)) =
      missingBelow mm.mem va shifts (physAddr (place (n ++ [entryIndex va shift]))) := by
  rw [missingBelow, h.nextTable hn hlen, if_pos hmem]

/-- And where it is not. -/
theorem PageTree.missing_none (h : PageTree mm pgd place N leaf) (hn : n ∈ N) (hlen : n.length < 3) {va shift : Nat}
    (hmem : n ++ [entryIndex va shift] ∉ N) :
    missingBelow mm.mem va (shift :: shifts) (physAddr (place n)) = shifts.length + 1 := by
  rw [missingBelow, h.nextTable hn hlen, if_neg hmem]

/-- Only the tree counts. -/
theorem PageTree.missing_congr (h : PageTree mm pgd place N leaf) (h' : PageTree mm' pgd place N leaf) (hn : n ∈ N)
    (hlen : n.length + shifts.length ≤ 3) (va : Nat) :
    missingBelow mm'.mem va shifts (physAddr (place n)) = missingBelow mm.mem va shifts (physAddr (place n)) := by
  induction shifts generalizing n with
  | nil => rfl
  | cons shift shifts ih =>
    rw [List.length_cons] at hlen
    have hn3 : n.length < 3 := by omega
    by_cases hmem : n ++ [entryIndex va shift] ∈ N
    · rw [h.missing_next hn hn3 hmem, h'.missing_next hn hn3 hmem]
      refine ih hmem ?_
      rw [List.length_append, List.length_singleton]
      omega
    · rw [h.missing_none hn hn3 hmem, h'.missing_none hn hn3 hmem]

/-- On the way to an address whose last table is there none is missing. -/
theorem PageTree.missing_mapped (h : PageTree mm pgd place N leaf) {va : Nat}
    (hmem : [entryIndex va PGD_SHIFT, entryIndex va PUD_SHIFT, entryIndex va PMD_SHIFT] ∈ N) : missingTables mm.mem pgd va = 0 := by
  have h₂ : [entryIndex va PGD_SHIFT, entryIndex va PUD_SHIFT] ∈ N := h.stored.closed _ _ hmem
  have h₁ : [entryIndex va PGD_SHIFT] ∈ N := h.stored.closed _ _ h₂
  have h₀ : [] ∈ N := h.stored.closed _ _ h₁
  have hpgd : pgd = physAddr (place []) := by rw [h.root, if_pos h₀]
  unfold missingTables
  rw [hpgd, if_neg (physAddr_pos _).ne']
  calc missingBelow mm.mem va [PGD_SHIFT, PUD_SHIFT, PMD_SHIFT] (physAddr (place []))
    _ = missingBelow mm.mem va [PUD_SHIFT, PMD_SHIFT] (physAddr (place [entryIndex va PGD_SHIFT])) :=
      h.missing_next h₀ (by simp) h₁
    _ = missingBelow mm.mem va [PMD_SHIFT] (physAddr (place [entryIndex va PGD_SHIFT, entryIndex va PUD_SHIFT])) :=
      h.missing_next h₁ (by simp) h₂
    _ = 0 := h.missing_next h₂ (by simp) hmem

theorem PageTree.missingTables_congr (h : PageTree mm pgd place N leaf) (h' : PageTree mm' pgd place N leaf) (va : Nat) :
    missingTables mm'.mem pgd va = missingTables mm.mem pgd va := by
  unfold missingTables
  split
  · rfl
  · next hpgd =>
    have hroot : [] ∈ N := by
      by_contra hroot
      exact hpgd (h.root.trans (if_neg hroot))
    have heq : pgd = physAddr (place []) := h.root.trans (if_pos hroot)
    rw [heq]
    exact h.missing_congr h' hroot (by simp) va

end Missing

/-! ## The way down -/

/-- Where `map_page` has come to: the `mm` of the task, the physical address of the table, the memory. -/
structure Descent where
  mm_struct : MmStruct
  table : Nat
  phys : Phys

/-- The first step of `map_page`: the table at the top. -/
def Phys.mapRoot (t : MmStruct) (m : Phys) : MmStruct × Phys :=
  if t.pgd = 0 then
    let (pgd, mm) := get_free_page m.toMm
    (({ t with pgd := pgd } : MmStruct).addKernelPage pgd, { m with toMm := mm })
  else (t, m)

namespace Descent

def root (t : MmStruct) (m : Phys) : Descent :=
  let r := Phys.mapRoot t m
  ⟨r.1, r.1.pgd, r.2⟩

/-- One level down. -/
def level (x : Descent) (va shift : Nat) : Descent :=
  let r := Phys.map_table (kernelAddr x.table) shift va x.phys
  ⟨x.mm_struct.addTable r.1, r.1.1, r.2⟩

theorem level_mm_struct (x : Descent) (va shift : Nat) : (x.level va shift).mm_struct =
    x.mm_struct.addTable (Phys.map_table (kernelAddr x.table) shift va x.phys).1 := by
  simp only [level]

theorem level_table (x : Descent) (va shift : Nat) :
    (x.level va shift).table = (Phys.map_table (kernelAddr x.table) shift va x.phys).1.1 := by
  simp only [level]

theorem level_phys (x : Descent) (va shift : Nat) :
    (x.level va shift).phys = (Phys.map_table (kernelAddr x.table) shift va x.phys).2 := by
  simp only [level]

def levels (x : Descent) (va : Nat) : Descent := [PGD_SHIFT, PUD_SHIFT, PMD_SHIFT].foldl (fun x => x.level va) x

end Descent

theorem Phys.map_page_eq (t : MmStruct) (va page : Nat) (m : Phys) : Phys.map_page t va page m =
    (((Descent.root t m).levels va).mm_struct.addUserPage ⟨page, va⟩).bind fun t' =>
      .ok (t', Phys.map_table_entry (kernelAddr ((Descent.root t m).levels va).table) va page
        ((Descent.root t m).levels va).phys) := by
  have hroot : (if t.pgd = 0 then
      let (pgd, mm) := get_free_page m.toMm
      (({ t with pgd := pgd } : MmStruct).addKernelPage pgd, { m with toMm := mm })
    else (t, m)) = Phys.mapRoot t m := rfl
  simp only [Phys.map_page, Descent.levels, Descent.root, Descent.level, List.foldl_cons, List.foldl_nil, hroot]
  generalize Phys.mapRoot t m = r₀
  obtain ⟨t₁, m₁⟩ := r₀
  generalize Phys.map_table (kernelAddr t₁.pgd) PGD_SHIFT va m₁ = r₁
  obtain ⟨⟨pud, new₁⟩, m₂⟩ := r₁
  generalize Phys.map_table (kernelAddr pud) PUD_SHIFT va m₂ = r₂
  obtain ⟨⟨pmd, new₂⟩, m₃⟩ := r₂
  generalize Phys.map_table (kernelAddr pmd) PMD_SHIFT va m₃ = r₃
  rfl

/-! ## The same without the notes -/

section Notes
variable {t t' : MmStruct} {m m' : Phys}

theorem Phys.map_table_toMm (table shift va : Nat) (m : Phys) :
    (Phys.map_table table shift va m).1 = (ClbFilesystem.map_table table shift va m.toMm).1 ∧
      (Phys.map_table table shift va m).2.toMm = (ClbFilesystem.map_table table shift va m.toMm).2 := by
  rw [map_table_eq]
  unfold Phys.map_table readEntry
  dsimp only
  split <;> exact ⟨rfl, rfl⟩

theorem Descent.level_toMm (x : Descent) (va shift : Nat) {r : (Nat × Bool) × Mm}
    (hr : ClbFilesystem.map_table (kernelAddr x.table) shift va x.phys.toMm = r) :
    (x.level va shift).mm_struct = x.mm_struct.addTable r.1 ∧ (x.level va shift).table = r.1.1 ∧
      (x.level va shift).phys.toMm = r.2 := by
  obtain ⟨hresult, hmm⟩ := Phys.map_table_toMm (kernelAddr x.table) shift va x.phys
  rw [level_mm_struct, level_table, level_phys, hresult, hmm, hr]
  exact ⟨rfl, rfl, rfl⟩

theorem Descent.root_toMm (t : MmStruct) (m : Phys) : (root t m).mm_struct = (mapRoot t m.toMm).1 ∧
    (root t m).table = (mapRoot t m.toMm).1.pgd ∧ (root t m).phys.toMm = (mapRoot t m.toMm).2 := by
  unfold root Phys.mapRoot mapRoot
  split <;> exact ⟨rfl, rfl, rfl⟩

theorem Phys.map_table_entry_toMm (pte va pa : Nat) (m : Phys) :
    (Phys.map_table_entry pte va pa m).toMm = ClbFilesystem.map_table_entry pte va pa m.toMm := rfl

theorem Phys.map_page_toMm {va page : Nat} (h : Phys.map_page t va page m = .ok (t', m')) :
    ClbFilesystem.map_page t va page m.toMm = .ok (t', m'.toMm) := by
  obtain ⟨ht₀, htable₀, hmm₀⟩ := Descent.root_toMm t m
  obtain ⟨r₁, hr₁⟩ : ∃ r, ClbFilesystem.map_table (kernelAddr (ClbFilesystem.mapRoot t m.toMm).1.pgd) PGD_SHIFT va
      (ClbFilesystem.mapRoot t m.toMm).2 = r := ⟨_, rfl⟩
  obtain ⟨r₂, hr₂⟩ : ∃ r, ClbFilesystem.map_table (kernelAddr r₁.1.1) PUD_SHIFT va r₁.2 = r := ⟨_, rfl⟩
  obtain ⟨r₃, hr₃⟩ : ∃ r, ClbFilesystem.map_table (kernelAddr r₂.1.1) PMD_SHIFT va r₂.2 = r := ⟨_, rfl⟩
  obtain ⟨ht₁, htable₁, hmm₁⟩ := (Descent.root t m).level_toMm va PGD_SHIFT (by rw [htable₀, hmm₀, hr₁])
  obtain ⟨ht₂, htable₂, hmm₂⟩ := ((Descent.root t m).level va PGD_SHIFT).level_toMm va PUD_SHIFT (by rw [htable₁, hmm₁, hr₂])
  obtain ⟨ht₃, htable₃, hmm₃⟩ := (((Descent.root t m).level va PGD_SHIFT).level va PUD_SHIFT).level_toMm va PMD_SHIFT
    (by rw [htable₂, hmm₂, hr₃])
  rw [Phys.map_page_eq, Descent.levels, List.foldl_cons, List.foldl_cons, List.foldl_cons, List.foldl_nil, ht₃, ht₂, ht₁, ht₀,
    htable₃] at h
  obtain ⟨t₁, hadd, h⟩ := bind_ok h
  cases h
  rw [ClbFilesystem.map_page_eq hr₁ hr₂ hr₃, hadd, ok_bind, Phys.map_table_entry_toMm, hmm₃]

/-- What is proved of the calls with their notes is true of the calls. -/
theorem Phys.allocate_user_page_toMm {va ret : Nat} (h : Phys.allocate_user_page t va m = .ok (ret, t', m')) :
    ClbFilesystem.allocate_user_page t va m.toMm = .ok (ret, t', m'.toMm) := by
  unfold Phys.allocate_user_page at h
  unfold ClbFilesystem.allocate_user_page
  rcases get_free_page_cases m.toMm with ⟨j, -, hget⟩ | ⟨-, hget⟩
  · rw [hget] at h ⊢
    simp only [if_neg (physAddr_pos j).ne', kernelAddr_physAddr] at h ⊢
    obtain ⟨⟨t₁, m₁⟩, hmap, h⟩ := bind_ok h
    cases h
    have hplain := Phys.map_page_toMm hmap
    rw [← physAddr_add]
    exact congrArg (fun x => Except.bind x _) hplain
  · rw [hget] at h ⊢
    simp only [if_true] at h ⊢
    cases h
    rfl

end Notes

/-! ## One level -/

theorem pageAddr_ne_kernelAddr (i : Nat) : pageAddr i ≠ kernelAddr 0 := by
  have hzero : kernelAddr 0 = 0xffff000000000000 := by decide
  rw [hzero, pageAddr_eq]
  omega

/-- A page was noted for reclaim since `t₀` that there is none of. -/
def MmStruct.Lost (t₀ t : MmStruct) : Prop :=
  ∃ k, t₀.kernel_pages_count < k ∧ k ≤ t.kernel_pages_count ∧ t.kernel_pages k = 0

section Lost
variable {t₀ t : MmStruct}

theorem MmStruct.Lost.addKernelPage (h : t₀.Lost t) (page : Nat) : t₀.Lost (t.addKernelPage page) := by
  obtain ⟨k, hlt, hle, hzero⟩ := h
  refine ⟨k, hlt, Nat.le_succ_of_le hle, ?_⟩
  show Function.update t.kernel_pages (t.kernel_pages_count + 1) page k = 0
  rw [Function.update_of_ne (by omega), hzero]

theorem MmStruct.Lost.addTable (h : t₀.Lost t) (r : Nat × Bool) : t₀.Lost (t.addTable r) := by
  unfold MmStruct.addTable
  split
  · exact h.addKernelPage r.1
  · exact h

theorem MmStruct.lost_zero (h : t₀.kernel_pages_count ≤ t.kernel_pages_count) : t₀.Lost (t.addKernelPage 0) :=
  ⟨t.kernel_pages_count + 1, by omega, Nat.le_refl _, Function.update_self ..⟩

/-- What is noted since `t₀` is complete, or a page was noted that there is none of. -/
def MmStruct.Told (t₀ t : MmStruct) : Prop := t₀.kernel_pages_count ≤ t.kernel_pages_count ∧ (t.Tabled ∨ t₀.Lost t)

theorem MmStruct.Told.addKernelPage (h : t₀.Told t) (page : Nat) : t₀.Told (t.addKernelPage page) := by
  refine ⟨Nat.le_succ_of_le h.1, ?_⟩
  by_cases hpage : page = 0
  · subst hpage
    exact .inr (lost_zero h.1)
  · exact h.2.imp (fun ht => (tabled_addKernelPage page).2 ⟨ht, hpage⟩) fun hlost => hlost.addKernelPage page

theorem MmStruct.Told.addTable (h : t₀.Told t) (r : Nat × Bool) : t₀.Told (t.addTable r) := by
  unfold MmStruct.addTable
  split
  · exact h.addKernelPage r.1
  · exact h

theorem MmStruct.addUserPage_kernel {t : MmStruct} (h : t.user_pages_count < MAX_PROCESS_PAGES) (p : UserPage) :
    ∃ t', t.addUserPage p = .ok t' ∧ t'.pgd = t.pgd ∧ t'.kernel_pages_count = t.kernel_pages_count ∧
      t'.kernel_pages = t.kernel_pages :=
  ⟨_, dif_pos h, rfl, rfl, rfl⟩

theorem Phys.Clean.not_lost {m : Phys} (h : m.Clean t₀ t) : ¬ t₀.Lost t := by
  rintro ⟨k, hlt, hle, hzero⟩
  exact h.kernel_pages k hlt hle hzero

end Lost

namespace Descent

theorem lost_levels {t₀ : MmStruct} {x : Descent} (h : t₀.Lost x.mm_struct) (va : Nat) (shifts : List Nat) :
    t₀.Lost (shifts.foldl (fun x => x.level va) x).mm_struct := by
  induction shifts generalizing x with
  | nil => exact h
  | cons shift shifts ih =>
    rw [List.foldl_cons]
    apply ih
    rw [level_mm_struct]
    exact h.addTable _

end Descent

namespace PageTree
variable {m : Phys} {pgd : Nat} {place : List (Fin 512) → Fin PAGING_PAGES} {N : Finset (List (Fin 512))}
  {leaf : List (Fin 512) → Option (Fin PAGING_PAGES)} {n : List (Fin 512)}

/-- The next table is there, or a free page becomes it, or 0 is taken for it. -/
theorem phys_map_table (h : PageTree m.toMm pgd place N leaf) (hn : n ∈ N) (hlen : n.length < 3) (shift va : Nat) :
    n ++ [entryIndex va shift] ∈ N ∧ Phys.map_table (pageAddr (place n)) shift va m =
      ((physAddr (place (n ++ [entryIndex va shift])), false), { m with tables := pageAddr (place n) :: m.tables }) ∨
    n ++ [entryIndex va shift] ∉ N ∧
      ((∃ j, m.mem_map j = 0 ∧ Phys.map_table (pageAddr (place n)) shift va m = ((physAddr j, true),
        ⟨(m.take j).setEntry (place n) (entryIndex va shift) (enc n.length j), pageAddr (place n) :: m.tables,
          enc n.length j :: m.stored⟩)) ∨
      m.toMm.free = 0 ∧ (Phys.map_table (pageAddr (place n)) shift va m).1 = (0, true)) := by
  have hedge : m.mem.word (pageAddr (place n) + 8 * tableIndex va shift) =
      if n ++ [entryIndex va shift] ∈ N then enc n.length (place (n ++ [entryIndex va shift])) else 0 :=
    h.stored.edge n hn hlen (entryIndex va shift)
  unfold Phys.map_table
  simp only [hedge]
  by_cases hmem : n ++ [entryIndex va shift] ∈ N
  · refine .inl ⟨hmem, ?_⟩
    rw [if_pos hmem, if_neg (enc_ne_zero _ _), enc_page]
  · refine .inr ⟨hmem, ?_⟩
    rw [if_neg hmem, if_pos rfl]
    rcases get_free_page_cases m.toMm with ⟨j, hj, hget⟩ | ⟨hall, hget⟩
    · have hflags : physAddr j ||| MM_TYPE_PAGE_TABLE = enc n.length j := by
        unfold enc
        rw [if_pos hlen]
      refine .inl ⟨j, hj, ?_⟩
      rw [hget, hflags]
      rfl
    · exact .inr ⟨Mm.free_eq_zero.2 hall, by rw [hget]⟩

end PageTree

/-- The way down so far has gone through tables of the task, to that at `n`, and the pages noted since `t₀` are pages. -/
structure Descent.Sound (x : Descent) (t₀ : MmStruct) (leaf : List (Fin 512) → Option (Fin PAGING_PAGES))
    (n : List (Fin 512)) : Prop where
  tree : ∃ place N, PageTree x.phys.toMm x.mm_struct.pgd place N leaf ∧ n ∈ N ∧ x.table = physAddr (place n)
  pgd : x.mm_struct.pgd ≠ 0
  user : SameUser t₀ x.mm_struct
  count : t₀.kernel_pages_count ≤ x.mm_struct.kernel_pages_count
  clean : x.phys.Clean t₀ x.mm_struct

/-- There are pages for the tables missing below. -/
def Descent.Room (x : Descent) (va : Nat) (shifts : List Nat) : Prop :=
  missingBelow x.phys.mem va shifts x.table ≤ x.phys.toMm.free

section Clean
variable {m : Phys} {t₀ t : MmStruct}

theorem Phys.Clean.start {mm : Mm} (hpgd : t.pgd = t₀.pgd ∨ t.pgd ≠ 0) (hcount : t.kernel_pages_count = t₀.kernel_pages_count) :
    mm.toPhys.Clean t₀ t := by
  refine ⟨hpgd, fun k hlt hle => ?_, by simp [Mm.toPhys], by simp [Mm.toPhys]⟩
  rw [hcount] at hle
  exact absurd hle (Nat.not_le.2 hlt)

theorem Phys.Clean.addKernelPage (h : m.Clean t₀ t) {page : Nat} (hpage : page ≠ 0) : m.Clean t₀ (t.addKernelPage page) := by
  refine ⟨h.pgd, fun k hlt hle => ?_, h.tables, h.stored⟩
  show Function.update t.kernel_pages (t.kernel_pages_count + 1) page k ≠ 0
  rw [Function.update_apply]
  split
  · exact hpage
  · have hle : k ≤ t.kernel_pages_count + 1 := hle
    exact h.kernel_pages k hlt (by omega)

/-- One more table gone through. -/
theorem Phys.Clean.visit (h : m.Clean t₀ t) (i : Fin PAGING_PAGES) :
    ({ m with tables := pageAddr i :: m.tables } : Phys).Clean t₀ t :=
  ⟨h.pgd, h.kernel_pages, List.forall_mem_cons.2 ⟨pageAddr_ne_kernelAddr i, h.tables⟩, h.stored⟩

/-- One more descriptor stored, whatever became of the memory. -/
theorem Phys.Clean.store (h : m.Clean t₀ t) (mm : Mm) (i : Fin PAGING_PAGES) (l : Nat) (j : Fin PAGING_PAGES) :
    (⟨mm, pageAddr i :: m.tables, enc l j :: m.stored⟩ : Phys).Clean t₀ t := by
  refine ⟨h.pgd, h.kernel_pages, List.forall_mem_cons.2 ⟨pageAddr_ne_kernelAddr i, h.tables⟩,
    List.forall_mem_cons.2 ⟨?_, h.stored⟩⟩
  rw [enc_page]
  exact (physAddr_pos j).ne'

end Clean

namespace Descent

variable {x : Descent} {t₀ : MmStruct} {leaf : List (Fin 512) → Option (Fin PAGING_PAGES)} {n : List (Fin 512)}

/-- One level down is a table of the task, with as many pages left for those still missing; or there is no page, and 0 is
noted for reclaim. -/
theorem Sound.level (h : x.Sound t₀ leaf n) (va shift : Nat) {shifts : List Nat} (hlen : n.length + (shift :: shifts).length ≤ 3) :
    (x.level va shift).Sound t₀ leaf (n ++ [entryIndex va shift]) ∧
      ((x.level va shift).Room va shifts ↔ x.Room va (shift :: shifts)) ∨
    t₀.Lost (x.level va shift).mm_struct ∧ ¬ x.Room va (shift :: shifts) := by
  obtain ⟨⟨place, N, htree, hn, htable⟩, hpgd, huser, hcount, hclean⟩ := h
  rw [List.length_cons] at hlen
  have hn3 : n.length < 3 := by omega
  have hstep : Phys.map_table (kernelAddr x.table) shift va x.phys = Phys.map_table (pageAddr (place n)) shift va x.phys := by
    rw [htable, kernelAddr_physAddr]
  rcases htree.phys_map_table hn hn3 shift va with ⟨hmem, hmap⟩ | ⟨hmem, ⟨j, hj, hmap⟩ | ⟨hfree, hmap⟩⟩
  · have hlevel : x.level va shift = ⟨x.mm_struct, physAddr (place (n ++ [entryIndex va shift])),
        { x.phys with tables := pageAddr (place n) :: x.phys.tables }⟩ := by
      simp only [Descent.level, hstep, hmap]
      rfl
    rw [hlevel]
    refine .inl ⟨⟨⟨place, N, htree, hmem, rfl⟩, hpgd, huser, hcount, hclean.visit (place n)⟩, ?_⟩
    unfold Room
    rw [htable, htree.missing_next hn hn3 hmem]
  · have hlevel : x.level va shift = ⟨x.mm_struct.addKernelPage (physAddr j), physAddr j,
        ⟨(x.phys.take j).setEntry (place n) (entryIndex va shift) (enc n.length j), pageAddr (place n) :: x.phys.tables,
          enc n.length j :: x.phys.stored⟩⟩ := by
      simp only [Descent.level, hstep, hmap]
      rfl
    rw [hlevel]
    obtain ⟨htree', -⟩ := htree.addTable hj hn hn3 hmem
    have hbare : ∀ y, n ++ [entryIndex va shift] ++ [y] ∉ insert (n ++ [entryIndex va shift]) N := by
      intro y hy
      rcases Finset.mem_insert.1 hy with heq | hy
      · simpa using congrArg List.length heq
      · exact hmem (htree.stored.closed _ y hy)
    have hplace : physAddr j = physAddr (Function.update place (n ++ [entryIndex va shift]) j (n ++ [entryIndex va shift])) := by
      rw [Function.update_self]
    have hself := Finset.mem_insert_self (n ++ [entryIndex va shift]) N
    refine .inl ⟨⟨⟨_, _, htree', hself, hplace⟩, hpgd, huser, Nat.le_succ_of_le hcount,
      (hclean.addKernelPage (physAddr_pos j).ne').store _ (place n) n.length j⟩, ?_⟩
    have hmissing : missingBelow ((x.phys.take j).setEntry (place n) (entryIndex va shift) (enc n.length j)).mem va shifts
        (physAddr j) = shifts.length := by
      rw [hplace]
      refine htree'.missing_bare hself ?_ hbare va
      rw [List.length_append, List.length_singleton]
      omega
    have hfree : ((x.phys.take j).setEntry (place n) (entryIndex va shift) (enc n.length j)).free + 1 = x.phys.toMm.free :=
      Mm.free_take hj
    unfold Room
    rw [htable, htree.missing_none hn hn3 hmem]
    show missingBelow _ va shifts (physAddr j) ≤ _ ↔ _
    rw [hmissing, ← hfree]
    exact Nat.add_le_add_iff_right.symm
  · refine .inr ⟨?_, ?_⟩
    · rw [level_mm_struct, hstep, hmap]
      exact MmStruct.lost_zero hcount
    · unfold Room
      rw [htable, htree.missing_none hn hn3 hmem, hfree]
      omega

/-- All the way down. -/
theorem Sound.levels {shifts : List Nat} (h : x.Sound t₀ leaf n) (va : Nat) (hlen : n.length + shifts.length ≤ 3) :
    (shifts.foldl (fun x => x.level va) x).Sound t₀ leaf (n ++ shifts.map (entryIndex va)) ∧ x.Room va shifts ∨
    t₀.Lost (shifts.foldl (fun x => x.level va) x).mm_struct ∧ ¬ x.Room va shifts := by
  induction shifts generalizing x n with
  | nil =>
    rw [List.map_nil, List.append_nil]
    exact .inl ⟨h, Nat.zero_le _⟩
  | cons shift shifts ih =>
    rw [List.foldl_cons]
    rcases h.level va shift hlen with ⟨hsound, hroom⟩ | ⟨hlost, hroom⟩
    · rw [← hroom, List.map_cons, List.append_cons]
      refine ih hsound ?_
      rw [List.length_cons] at hlen
      rw [List.length_append, List.length_singleton]
      omega
    · exact .inr ⟨lost_levels hlost va shifts, hroom⟩

section Root
variable {mm : Mm} {t : MmStruct} {place : List (Fin 512) → Fin PAGING_PAGES} {N : Finset (List (Fin 512))}

/-- The way down begins at the top table of the task or at a new one, unless there is no page for it. -/
theorem root_cases (h : PageTree mm t.pgd place N leaf) (va : Nat) :
    (root t mm.toPhys).Sound t leaf [] ∧
      ((root t mm.toPhys).Room va [PGD_SHIFT, PUD_SHIFT, PMD_SHIFT] ↔ missingTables mm.mem t.pgd va ≤ mm.free) ∨
    t.Lost (root t mm.toPhys).mm_struct ∧ ¬ missingTables mm.mem t.pgd va ≤ mm.free := by
  by_cases hpgd : t.pgd = 0
  · obtain rfl : N = ∅ := by
      refine Finset.eq_empty_of_forall_notMem fun n hn => ?_
      rw [h.root, if_pos (h.stored.nil_mem hn)] at hpgd
      exact absurd hpgd (physAddr_pos _).ne'
    unfold missingTables
    rw [if_pos hpgd]
    rcases get_free_page_cases mm with ⟨j, hj, hget⟩ | ⟨hall, hget⟩
    · have hroot : root t mm.toPhys =
          ⟨({ t with pgd := physAddr j } : MmStruct).addKernelPage (physAddr j), physAddr j, (mm.take j).toPhys⟩ := by
        simp only [root, Phys.mapRoot, Mm.toPhys, hpgd, hget, if_true]
        rfl
      rw [hpgd] at h
      obtain ⟨htree, -⟩ := h.addRoot hj
      have hself := Finset.mem_singleton_self ([] : List (Fin 512))
      have hplace : physAddr j = physAddr (Function.update place [] j []) := by rw [Function.update_self]
      have hclean : (mm.take j).toPhys.Clean t ({ t with pgd := physAddr j } : MmStruct) :=
        .start (.inr (physAddr_pos j).ne') rfl
      have hmissing : missingBelow (mm.take j).mem va [PGD_SHIFT, PUD_SHIFT, PMD_SHIFT] (physAddr j) = 3 := by
        rw [hplace]
        exact htree.missing_bare hself (by simp) (by simp) va
      have hfree := Mm.free_take hj
      rw [hroot]
      refine .inl ⟨⟨⟨_, _, htree, hself, hplace⟩, (physAddr_pos j).ne', ⟨rfl, rfl⟩, Nat.le_succ _,
        hclean.addKernelPage (physAddr_pos j).ne'⟩, ?_⟩
      show missingBelow (mm.take j).mem va [PGD_SHIFT, PUD_SHIFT, PMD_SHIFT] (physAddr j) ≤ (mm.take j).free ↔ 4 ≤ mm.free
      omega
    · have hroot : (root t mm.toPhys).mm_struct = ({ t with pgd := 0 } : MmStruct).addKernelPage 0 := by
        simp only [root, Phys.mapRoot, Mm.toPhys, hpgd, hget, if_true]
      rw [hroot, Mm.free_eq_zero.2 hall]
      exact .inr ⟨MmStruct.lost_zero (Nat.le_refl _), by omega⟩
  · have hroot : root t mm.toPhys = ⟨t, t.pgd, mm.toPhys⟩ := by
      simp only [root, Phys.mapRoot, hpgd, if_false]
    have hmem : [] ∈ N := by
      by_contra hmem
      exact hpgd (h.root.trans (if_neg hmem))
    have hclean : mm.toPhys.Clean t t := .start (.inl rfl) rfl
    rw [hroot]
    refine .inl ⟨⟨⟨place, N, h, hmem, h.root.trans (if_pos hmem)⟩, hpgd, ⟨rfl, rfl⟩, Nat.le_refl _, hclean⟩, ?_⟩
    unfold missingTables
    rw [if_neg hpgd]
    rfl

end Root

end Descent

/-! ## `map_page` and `allocate_user_page` -/

section MapPage
variable {mm : Mm} {t : MmStruct} {place : List (Fin 512) → Fin PAGING_PAGES} {N : Finset (List (Fin 512))}
  {leaf : List (Fin 512) → Option (Fin PAGING_PAGES)}

/-- The way down leaves the user pages alone. -/
theorem Descent.levels_user (t : MmStruct) (m : Phys) (va : Nat) : SameUser t ((root t m).levels va).mm_struct := by
  have hlevels : ∀ (shifts : List Nat) (x : Descent), SameUser t x.mm_struct →
      SameUser t (shifts.foldl (fun x => x.level va) x).mm_struct := by
    intro shifts
    induction shifts with
    | nil => exact fun x hx => hx
    | cons shift shifts ih =>
      intro x hx
      rw [List.foldl_cons]
      apply ih
      rw [level_mm_struct]
      exact hx.trans (MmStruct.addTable_spec _ _).2
  refine hlevels _ _ ?_
  simp only [root, Phys.mapRoot]
  split <;> exact ⟨rfl, rfl⟩

/-- The page of a task that has `MAX_PROCESS_PAGES` of them is noted outside the array. -/
theorem Phys.map_page_full (hcount : MAX_PROCESS_PAGES ≤ t.user_pages_count) (va page : Nat) (m : Phys) :
    Phys.map_page t va page m = .error .outOfBounds := by
  rw [Phys.map_page_eq, MmStruct.addUserPage, dif_neg, error_bind]
  rw [(Descent.levels_user t m va).1]
  exact Nat.not_lt.2 hcount

/-- The way down ends at a table of the task as long as there are pages for the tables missing. -/
theorem PageTree.levels_cases (h : PageTree mm t.pgd place N leaf) (va : Nat) :
    ((Descent.root t mm.toPhys).levels va).Sound t leaf [entryIndex va PGD_SHIFT, entryIndex va PUD_SHIFT, entryIndex va PMD_SHIFT] ∧
      missingTables mm.mem t.pgd va ≤ mm.free ∨
    t.Lost ((Descent.root t mm.toPhys).levels va).mm_struct ∧ ¬ missingTables mm.mem t.pgd va ≤ mm.free := by
  rcases Descent.root_cases h va with ⟨hroot, hroom⟩ | ⟨hlost, hroom⟩
  · have hlen : ([] : List Nat).length + [PGD_SHIFT, PUD_SHIFT, PMD_SHIFT].length ≤ 3 := by simp
    have hlevels := hroot.levels va hlen
    rw [hroom] at hlevels
    exact hlevels
  · exact .inr ⟨Descent.lost_levels hlost va _, hroom⟩

/-- The call leads the address to the page, through tables and pages there are; or a table is missing that there is no
page for, and 0 is noted for reclaim. -/
theorem PageTree.phys_map_page (h : PageTree mm t.pgd place N leaf) (hcount : t.user_pages_count < MAX_PROCESS_PAGES) (va : Nat)
    (d : Fin PAGING_PAGES) : ∃ t' m', Phys.map_page t va (physAddr d) mm.toPhys = .ok (t', m') ∧
      (missingTables mm.mem t.pgd va ≤ mm.free ∧ m'.Clean t t' ∧ walkTables m'.mem t'.pgd va = some (physAddr d) ∨
        ¬ missingTables mm.mem t.pgd va ≤ mm.free ∧ t.Lost t') := by
  have hcases := h.levels_cases va
  have huser := Descent.levels_user t mm.toPhys va
  obtain ⟨n, hpath⟩ : ∃ n, n = [entryIndex va PGD_SHIFT, entryIndex va PUD_SHIFT, entryIndex va PMD_SHIFT] := ⟨_, rfl⟩
  have hlen : n.length = 3 := by rw [hpath]; rfl
  rw [Phys.map_page_eq]
  rw [← hpath] at hcases
  generalize (Descent.root t mm.toPhys).levels va = x at hcases huser ⊢
  obtain ⟨t', hadd, hpgd, hkcount, hkpages⟩ := MmStruct.addUserPage_kernel (huser.1 ▸ hcount) ⟨physAddr d, va⟩
  rw [hadd, ok_bind]
  refine ⟨t', _, rfl, ?_⟩
  rcases hcases with ⟨⟨⟨place', N', htree, hn, htable⟩, -, -, -, hclean⟩, hroom⟩ | ⟨⟨k, hlt, hle, hzero⟩, hroom⟩
  · have hentry : Phys.map_table_entry (kernelAddr x.table) va (physAddr d) x.phys =
        ⟨x.phys.toMm.setEntry (place' n) (entryIndex va PAGE_SHIFT) (enc 3 d), pageAddr (place' n) :: x.phys.tables,
          enc 3 d :: x.phys.stored⟩ := by
      rw [htable, kernelAddr_physAddr, enc, if_neg (Nat.lt_irrefl 3)]
      rfl
    have hstore := hclean.store (x.phys.toMm.setEntry (place' n) (entryIndex va PAGE_SHIFT) (enc 3 d)) (place' n) 3 d
    have hset := htree.setLeaf hn hlen (entryIndex va PAGE_SHIFT) d
    rw [hentry]
    refine .inl ⟨hroom, ⟨hpgd ▸ hstore.pgd, ?_, hstore.tables, hstore.stored⟩, ?_⟩
    · rw [hkcount, hkpages]
      exact hstore.kernel_pages
    · have hleaf : tablePath va = n ++ [entryIndex va PAGE_SHIFT] := by rw [hpath]; rfl
      rw [hpgd, hset.walk va, hleaf, Function.update_self]
      rfl
  · refine .inr ⟨hroom, k, hlt, ?_, ?_⟩
    · rw [hkcount]
      exact hle
    · rw [hkpages]
      exact hzero

/-- The call gets no page, or one that it maps. -/
theorem Phys.allocate_user_page_cases (t : MmStruct) (va : Nat) (mm : Mm) :
    mm.free = 0 ∧ Phys.allocate_user_page t va mm.toPhys = .ok (0, t, mm.toPhys) ∨
    ∃ j, mm.mem_map j = 0 ∧ Phys.allocate_user_page t va mm.toPhys =
      (Phys.map_page t va (physAddr j) (mm.take j).toPhys).bind fun r => .ok (pageAddr j, r.1, r.2) := by
  unfold Phys.allocate_user_page
  rcases get_free_page_cases mm with ⟨j, hj, hget⟩ | ⟨hall, hget⟩
  · refine .inr ⟨j, hj, ?_⟩
    simp only [Mm.toPhys, hget, if_neg (physAddr_pos j).ne', kernelAddr_physAddr]
    rfl
  · refine .inl ⟨Mm.free_eq_zero.2 hall, ?_⟩
    simp only [Mm.toPhys, hget, if_true]
    rfl

theorem PageTree.maps_iff (h : PageTree mm t.pgd place N leaf) (va : Nat) (d : Fin PAGING_PAGES) :
    t.Maps va (physAddr d) mm ↔ missingTables mm.mem t.pgd va ≤ mm.free ∧ t.user_pages_count < MAX_PROCESS_PAGES := by
  constructor
  · rintro ⟨t', m', hcall, hclean⟩
    by_cases hcount : t.user_pages_count < MAX_PROCESS_PAGES
    · obtain ⟨t₁, m₁, hcall₁, ⟨hroom, -⟩ | ⟨-, hlost⟩⟩ := h.phys_map_page hcount va d
      · exact ⟨hroom, hcount⟩
      · rw [hcall₁] at hcall
        cases hcall
        exact absurd hlost hclean.not_lost
    · rw [Phys.map_page_full (Nat.not_lt.1 hcount)] at hcall
      cases hcall
  · rintro ⟨hroom, hcount⟩
    obtain ⟨t', m', hcall, ⟨-, hclean, -⟩ | ⟨hshort, -⟩⟩ := h.phys_map_page hcount va d
    · exact ⟨t', m', hcall, hclean⟩
    · exact absurd hroom hshort

/-- A page for the address leaves one page less for the tables. -/
theorem PageTree.missing_take (h : PageTree mm t.pgd place N leaf) {j : Fin PAGING_PAGES} (hj : mm.mem_map j = 0) (va : Nat) :
    missingTables (mm.take j).mem t.pgd va ≤ (mm.take j).free ↔ missingTables mm.mem t.pgd va < mm.free := by
  rw [h.missingTables_congr (h.take hj), ← Mm.free_take hj]
  exact Nat.lt_succ_iff.symm

/-- A call that does as claimed has pages for all it needs. -/
theorem PageTree.room_of_allocates (h : PageTree mm t.pgd place N leaf) {va : Nat} (hcall : t.Allocates va mm) (hfree : mm.free ≠ 0) :
    missingTables mm.mem t.pgd va < mm.free ∧ t.user_pages_count < MAX_PROCESS_PAGES := by
  obtain ⟨ret, t', m', hret, hclean, -⟩ := hcall
  rcases Phys.allocate_user_page_cases t va mm with ⟨hzero, -⟩ | ⟨j, hj, heq⟩
  · exact absurd hzero hfree
  · rw [heq] at hret
    obtain ⟨r, hmap, hret⟩ := bind_ok hret
    cases hret
    rw [← h.missing_take hj]
    exact ((h.take hj).maps_iff va j).1 ⟨_, _, hmap, hclean⟩

/-- A call of `allocate_user_page` does as claimed if and only if no page is free, or one for the address and for each of
the tables missing on its way, and the task has room to note it; and `map_page` stores no descriptor without an address
and takes page 0 for no table if and only if there are pages for these tables, and room. -/
theorem PageTree.allocates_iff (h : PageTree mm t.pgd place N leaf) (va : Nat) :
    (t.Allocates va mm ↔
      mm.free = 0 ∨ missingTables mm.mem t.pgd va < mm.free ∧ t.user_pages_count < MAX_PROCESS_PAGES) ∧
    ∀ d : Fin PAGING_PAGES, t.Maps va (physAddr d) mm ↔
      missingTables mm.mem t.pgd va ≤ mm.free ∧ t.user_pages_count < MAX_PROCESS_PAGES := by
  refine ⟨⟨fun hcall => ?_, fun hroom => ?_⟩, h.maps_iff va⟩
  · by_cases hfree : mm.free = 0
    · exact .inl hfree
    · exact .inr (h.room_of_allocates hcall hfree)
  · rcases Phys.allocate_user_page_cases t va mm with ⟨-, hcall⟩ | ⟨j, hj, hcall⟩
    · exact ⟨0, t, mm.toPhys, hcall, .start (.inl rfl) rfl, .inr ⟨rfl, rfl, fun _ _ _ _ => rfl, fun _ => rfl⟩⟩
    · have hsome : mm.free ≠ 0 := fun hzero => Mm.free_eq_zero.1 hzero j hj
      obtain ⟨hlt, hcount⟩ := hroom.resolve_left hsome
      rw [← h.missing_take hj] at hlt
      obtain ⟨t', m', hmap, ⟨-, hclean, hwalk⟩ | ⟨hshort, -⟩⟩ := (h.take hj).phys_map_page hcount va j
      · refine ⟨pageAddr j, t', m', ?_, hclean, .inl ⟨physAddr j, (physAddr_pos j).ne', (physAddr_add j).symm, hwalk⟩⟩
        rw [hcall, hmap, ok_bind]
      · exact absurd hlt hshort

end MapPage

/-- A task with a page mapped at 0, and one page left: it is enough for the next address. -/
theorem allocates_second : ∃ (t : MmStruct) (mm : Mm), t.pgd ≠ 0 ∧ t.user_pages_count = 1 ∧ mm.free = 1 ∧ t.Allocates PAGE_SIZE mm := by
  have h₀ : PageTree ⟨fun _ => 0, fun _ => 0⟩ MmStruct.zero.pgd (fun _ => ⟨0, by decide⟩) ∅ fun _ => none := .nil _ _
  have hj : (⟨fun _ => 0, fun _ => 0⟩ : Mm).mem_map ⟨0, by decide⟩ = 0 := rfl
  have hleft : 5 ≤ ((⟨fun _ => 0, fun _ => 0⟩ : Mm).take ⟨0, by decide⟩).free := by
    have hfree := Mm.free_take hj
    rw [Mm.free_none] at hfree
    have hpages : PAGING_PAGES = 257024 := rfl
    omega
  obtain ⟨t, mm, hmap, ⟨place, N, htree, -, -, hfree⟩ | ⟨hfew, -⟩⟩ := PageTree.map_page (h₀.take hj) (by decide) 0 ⟨0, by decide⟩
  · obtain ⟨mm₁, htree₁, hone⟩ := htree.exists_free (n := 1) (by omega)
    -- The tables on the way to 0 are those on the way to the next page.
    have hmem : [entryIndex 0 PGD_SHIFT, entryIndex 0 PUD_SHIFT, entryIndex 0 PMD_SHIFT] ∈ N := by
      by_contra hout
      have hnone := htree.bare _ hout (entryIndex 0 PAGE_SHIFT)
      rw [show _ ++ [entryIndex 0 PAGE_SHIFT] = tablePath 0 from rfl, Function.update_self] at hnone
      cases hnone
    have hcount := map_page_user_count hmap
    refine ⟨t, mm₁, ?_, hcount, hone, (htree₁.allocates_iff PAGE_SIZE).1.2 (.inr ⟨?_, ?_⟩)⟩
    · have hroot : [] ∈ N :=
        htree.stored.closed _ (entryIndex 0 PGD_SHIFT) (htree.stored.closed _ (entryIndex 0 PUD_SHIFT) (htree.stored.closed _ _ hmem))
      rw [htree.root, if_pos hroot]
      exact (physAddr_pos _).ne'
    · have hnone : missingTables mm₁.mem t.pgd PAGE_SIZE = 0 := htree₁.missing_mapped hmem
      rw [hnone, hone]
      exact Nat.one_pos
    · rw [hcount]
      decide
  · omega

/-- Only page 0 of the allocator is free. -/
def onePageLeft : Mm := ⟨fun _ => 0, fun i => if i.val = 0 then 0 else 1⟩

theorem onePageLeft_free : onePageLeft.free = 1 := by
  have hpage : onePageLeft.mem_map ⟨0, by decide⟩ = 0 := rfl
  have hnone : (onePageLeft.take ⟨0, by decide⟩).free = 0 := by
    refine Mm.free_eq_zero.2 fun i => ?_
    rw [Mm.take_mem_map]
    split
    · decide
    · next hi =>
      have hne : i.val ≠ 0 := fun h0 => hi (Fin.ext h0)
      simp only [onePageLeft, if_neg hne]
      decide
  rw [← Mm.free_take hpage, hnone]

/-- One page left, for a task without tables: it is mapped through tables at page 0. -/
theorem allocates_fails : ¬ ∀ (t : MmStruct) (mm : Mm) place N leaf va, PageTree mm t.pgd place N leaf → t.Allocates va mm := by
  intro hall
  have htree := PageTree.nil onePageLeft fun _ => ⟨0, by decide⟩
  have hcall := hall .zero onePageLeft _ _ _ 0 htree
  have hroom := (PageTree.room_of_allocates (t := .zero) htree hcall (by rw [onePageLeft_free]; decide)).1
  rw [onePageLeft_free] at hroom
  exact absurd hroom (by decide)

end ClbFilesystem
