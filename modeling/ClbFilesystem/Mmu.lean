import ClbFilesystem.Confinement
import ClbFilesystem.Lib.Walk
/-!
# What the MMU sees (`boot.S`, `mm.c`)

Before the MMU is on, `el1_entry` clears the `bss` and builds two trees of three
tables each, with the same macros: one for the kernel, where all physical memory
stands at `VA_START`, and one where the code that turns the MMU on finds itself at
its physical address. Addresses are physical here; no register gets near 2^64.
Later the lower half belongs to the tables of the current task, which have no
sections: the walk of the MMU through them is `Os.physical`.
-/

namespace ClbFilesystem

open Lib Walk

/-! ## Constants (`mm.h`, `mmu.h`) -/

def PHYS_MEMORY_SIZE : Nat := 0x40000000
def PG_DIR_SIZE : Nat := 3 * PAGE_SIZE
def MM_TYPE_BLOCK : Nat := 0x1
def MT_DEVICE_nGnRnE : Nat := 0x0
def MMU_FLAGS : Nat := MM_TYPE_BLOCK ||| (MT_NORMAL_NC <<< 2) ||| MM_ACCESS
def MMU_DEVICE_FLAGS : Nat := MM_TYPE_BLOCK ||| (MT_DEVICE_nGnRnE <<< 2) ||| MM_ACCESS

/-! ## The macros -/

/-- An entry of the table at `tbl` for the one behind it, which `tbl` points to next. -/
def create_table_entry (tbl virt shift : Nat) (m : Mem) : Nat × Mem :=
  let tmp1 := virt >>> shift
  let tmp1 := tmp1 &&& (PTRS_PER_TABLE - 1)
  let tmp2 := tbl + PAGE_SIZE
  let tmp2 := tmp2 ||| MM_TYPE_PAGE_TABLE
  (tbl + PAGE_SIZE, m.setWord (tbl + 8 * tmp1) tmp2)

def create_pgd_entry (tbl virt : Nat) (m : Mem) : Nat × Mem :=
  let (tbl, m) := create_table_entry tbl virt PGD_SHIFT m
  create_table_entry tbl virt PUD_SHIFT m

/-- The loop at `9999`: one entry at least. -/
def create_block_map.entries (tbl start stop phys : Nat) (m : Mem) : Mem :=
  let m := m.setWord (tbl + 8 * start) phys
  if start + 1 ≤ stop then create_block_map.entries tbl (start + 1) stop (phys + SECTION_SIZE) m else m
termination_by stop - start

/-- Sections from `start` to `stop`, both included. -/
def create_block_map (tbl phys start stop flags : Nat) (m : Mem) : Mem :=
  let start := start >>> SECTION_SHIFT &&& (PTRS_PER_TABLE - 1)
  let stop := stop >>> SECTION_SHIFT &&& (PTRS_PER_TABLE - 1)
  let phys := phys >>> SECTION_SHIFT
  let phys := flags ||| phys <<< SECTION_SHIFT
  create_block_map.entries tbl start stop phys m

/-! ## The code -/

set_option linter.style.nameCheck false in
def __create_idmap (idmap_dir : Nat) (m : Mem) : Mem :=
  let m := memzero m idmap_dir PG_DIR_SIZE
  let (x0, m) := create_pgd_entry idmap_dir 0 m
  create_block_map x0 0 0 PHYS_MEMORY_SIZE MMU_FLAGS m

set_option linter.style.nameCheck false in
def __create_page_tables (pg_dir : Nat) (m : Mem) : Mem :=
  let m := memzero m pg_dir PG_DIR_SIZE
  let (x0, m) := create_pgd_entry pg_dir VA_START m
  let m := create_block_map x0 0 VA_START (VA_START + DEVICE_BASE - SECTION_SIZE) MMU_FLAGS m
  create_block_map x0 DEVICE_BASE (VA_START + DEVICE_BASE) (VA_START + PHYS_MEMORY_SIZE - SECTION_SIZE) MMU_DEVICE_FLAGS m

/-- Where the linker script puts what `el1_entry` works on; the image lies below the pages of the allocator. -/
structure Layout where
  bss_begin : Nat
  bss_end : Nat
  idmap_dir : Nat
  pg_dir : Nat
  bss_aligned : bss_begin % 8 = 0
  bss_le : bss_begin ≤ bss_end
  bss_below : bss_end ≤ idmap_dir
  idmap_aligned : idmap_dir % PAGE_SIZE = 0
  pg_dir_eq : pg_dir = idmap_dir + PG_DIR_SIZE
  below : pg_dir + PG_DIR_SIZE ≤ LOW_MEMORY

/-- `el1_entry` up to the system registers. -/
def el1_entry (L : Layout) (m : Mem) : Mem :=
  let m := memzero m L.bss_begin (L.bss_end - L.bss_begin)
  let m := __create_idmap L.idmap_dir m
  __create_page_tables L.pg_dir m

/-! ## The MMU -/

/-- With `TCR_VALUE` both halves have addresses of 48 bits: the lower one is that of `ttbr0_el1`, the upper one that of
`ttbr1_el1`. -/
def mmu (word : Nat → Nat) (ttbr0_el1 ttbr1_el1 va : Nat) : Option Output :=
  if va < 2 ^ 48 then tableWalk word va 3 ttbr0_el1
  else if VA_START ≤ va then tableWalk word va 3 ttbr1_el1
  else none

/-! ## What the macros leave -/

section Macros
variable {m : Mem} {tbl start stop phys flags : Nat}

/-- The loop fills the entries from `start` to `stop`, for one section after the other. -/
theorem entries_word (hle : start ≤ stop) (hphys : phys + (stop - start) * SECTION_SIZE < 2 ^ 64) (i : Nat) :
    (create_block_map.entries tbl start stop phys m).word (tbl + 8 * i) =
      if start ≤ i ∧ i ≤ stop then phys + (i - start) * SECTION_SIZE else m.word (tbl + 8 * i) := by
  have hsize : SECTION_SIZE = 2097152 := rfl
  induction start, phys, m using create_block_map.entries.induct tbl stop with
  | case1 start phys m m₁ hlt ih =>
    have hsub : stop - start = stop - (start + 1) + 1 := by omega
    rw [hsub, Nat.add_mul] at hphys
    have hih := ih hlt (by omega)
    rw [create_block_map.entries, if_pos hlt, hih]
    by_cases hi : start = i
    · subst hi
      rw [if_neg (by omega), if_pos ⟨le_rfl, hle⟩, Mem.word_setWord (by omega), Nat.sub_self, Nat.zero_mul, Nat.add_zero]
    · have hword : m₁.word (tbl + 8 * i) = m.word (tbl + 8 * i) := Mem.word_setWord_of_disjoint (by omega)
      rw [hword]
      by_cases hin : start + 1 ≤ i ∧ i ≤ stop
      · have hsub' : i - start = i - (start + 1) + 1 := by omega
        rw [if_pos hin, if_pos (by omega), hsub', Nat.add_mul]
        omega
      · rw [if_neg hin, if_neg (by omega)]
  | case2 start phys m hlt =>
    obtain rfl : start = stop := by omega
    rw [create_block_map.entries, if_neg hlt]
    by_cases hi : start = i
    · subst hi
      rw [if_pos ⟨le_rfl, le_rfl⟩, Mem.word_setWord (by omega), Nat.sub_self, Nat.zero_mul, Nat.add_zero]
    · rw [if_neg (by omega), Mem.word_setWord_of_disjoint (by omega)]

theorem entries_outside {a : Nat} (h : a < tbl + 8 * start ∨ tbl + 8 * stop + 8 ≤ a) (hle : start ≤ stop) :
    create_block_map.entries tbl start stop phys m a = m a := by
  induction start, phys, m using create_block_map.entries.induct tbl stop with
  | case1 start phys m m₁ hlt ih =>
    rw [create_block_map.entries, if_pos hlt, ih (by omega) hlt]
    exact Mem.setWord_outside (by omega)
  | case2 start phys m hlt =>
    rw [create_block_map.entries, if_neg hlt]
    exact Mem.setWord_outside (by omega)

/-- The upper two of the three cleared tables, each with its first entry, and the lower one still empty. -/
structure Rooted (m m' : Mem) (dir : Nat) : Prop where
  upper : ∀ i < 512, m'.word (dir + 8 * i) = if i = 0 then dir + 4096 + 3 else 0
  middle : ∀ i < 512, m'.word (dir + 4096 + 8 * i) = if i = 0 then dir + 8192 + 3 else 0
  lower : ∀ i < 512, m'.word (dir + 8192 + 8 * i) = 0
  outside : ∀ a, a < dir ∨ dir + 12288 ≤ a → m' a = m a

theorem create_table_entry_eq {virt shift : Nat} (haligned : tbl % 4096 = 0) (hindex : tableIndex virt shift = 0) :
    create_table_entry tbl virt shift m = (tbl + 4096, m.setWord tbl (tbl + 4096 + 3)) := by
  have hor : (tbl + 4096) ||| 3 = tbl + 4096 + 3 := by
    obtain ⟨a, ha⟩ : ∃ a, tbl + 4096 = 2 ^ 12 * a := ⟨tbl / 4096 + 1, by omega⟩
    rw [ha, Nat.two_pow_add_eq_or_of_lt (by decide)]
  unfold create_table_entry
  show (tbl + 4096, m.setWord (tbl + 8 * tableIndex virt shift) ((tbl + 4096) ||| 3)) = _
  rw [hindex, hor]
  rfl

/-- The start of both trees. -/
theorem create_pgd_entry_rooted {dir : Nat} (virt : Nat) (haligned : dir % 4096 = 0) (hlt : dir + 12288 ≤ 2 ^ 48)
    (hpgd : tableIndex virt PGD_SHIFT = 0) (hpud : tableIndex virt PUD_SHIFT = 0) (m : Mem) :
    ∃ m', create_pgd_entry dir virt (memzero m dir PG_DIR_SIZE) = (dir + 8192, m') ∧ Rooted m m' dir := by
  have hzero : ∀ a, memzero m dir PG_DIR_SIZE a = if dir ≤ a ∧ a < dir + 12288 then 0 else m a := by
    intro a
    rw [memzero_eq]
    rfl
  unfold create_pgd_entry
  rw [create_table_entry_eq haligned hpgd]
  simp only
  rw [create_table_entry_eq (by omega) hpud]
  generalize memzero m dir PG_DIR_SIZE = m₀ at hzero ⊢
  have hclear : ∀ a, dir ≤ a → a + 8 ≤ dir + 12288 → m₀.word a = 0 := by
    intro a hle hlt
    refine Mem.word_zero fun k hk => ?_
    rw [hzero, if_pos (by omega)]
  refine ⟨_, rfl, fun i hi => ?_, fun i hi => ?_, fun i hi => ?_, fun a ha => ?_⟩
  · rw [Mem.word_setWord_of_disjoint (by omega)]
    split
    · next h =>
      subst h
      exact Mem.word_setWord (by omega)
    · rw [Mem.word_setWord_of_disjoint (by omega), hclear _ (by omega) (by omega)]
  · split
    · next h =>
      subst h
      exact Mem.word_setWord (by omega)
    · rw [Mem.word_setWord_of_disjoint (by omega), Mem.word_setWord_of_disjoint (by omega), hclear _ (by omega) (by omega)]
  · rw [Mem.word_setWord_of_disjoint (by omega), Mem.word_setWord_of_disjoint (by omega), hclear _ (by omega) (by omega)]
  · rw [Mem.setWord_outside (by omega), Mem.setWord_outside (by omega), hzero, if_neg (by omega)]

end Macros

/-! ## The trees -/

/-- What `create_block_map` fills in, given the indices and the first entry. -/
theorem create_block_map_eq {tbl phys start stop flags i j a : Nat} {m : Mem}
    (hstart : start >>> SECTION_SHIFT &&& (PTRS_PER_TABLE - 1) = i) (hstop : stop >>> SECTION_SHIFT &&& (PTRS_PER_TABLE - 1) = j)
    (hphys : flags ||| phys >>> SECTION_SHIFT <<< SECTION_SHIFT = a) :
    create_block_map tbl phys start stop flags m = create_block_map.entries tbl i j a m := by
  subst hstart hstop hphys
  rfl

/-- The first section only: 512 sections are one gigabyte, and `stop` gets the index 0. -/
def idmapFlags (i : Nat) : Option Nat := if i = 0 then some MMU_FLAGS else none

/-- Memory up to the devices, then the devices. -/
def kernelFlags (i : Nat) : Option Nat :=
  if i < 504 then some MMU_FLAGS else if i < 512 then some MMU_DEVICE_FLAGS else none

/-- With its sections filled in, a tree is done. -/
theorem Rooted.sections {m m' m'' : Mem} {dir : Nat} {flags : Nat → Option Nat} (h : Rooted m m' dir) (haligned : dir % 4096 = 0)
    (hlt : dir + 12288 ≤ 2 ^ 48) (hout : ∀ a, a < dir + 8192 ∨ dir + 12288 ≤ a → m'' a = m' a)
    (hlower : ∀ i < 512, m''.word (dir + 8192 + 8 * i) = match flags i with
      | some f => i * 2 ^ 21 + f
      | none => 0)
    (hblock : ∀ i f, flags i = some f → f % 4 = 1 ∧ f < 2 ^ 12) :
    Sections m''.word dir (dir + 4096) (dir + 8192) flags ∧ ∀ a, a < dir ∨ dir + 12288 ≤ a → m'' a = m a := by
  have hword : ∀ a, a + 8 ≤ dir + 8192 → m''.word a = m'.word a := fun a ha => Mem.word_congr fun k hk => hout _ (by omega)
  refine ⟨⟨by omega, by omega, by omega, by omega, fun i hi => ?_, fun i hi => ?_, hlower, hblock⟩, fun a ha => ?_⟩
  · rw [hword _ (by omega)]
    exact h.upper i hi
  · rw [hword _ (by omega)]
    exact h.middle i hi
  · rw [hout a (by omega)]
    exact h.outside a ha

section Trees
variable {dir : Nat} (haligned : dir % 4096 = 0) (hlt : dir + 12288 ≤ 2 ^ 48)
include haligned hlt

theorem create_idmap_sections (m : Mem) : Sections (__create_idmap dir m).word dir (dir + 4096) (dir + 8192) idmapFlags ∧
    ∀ a, a < dir ∨ dir + 12288 ≤ a → __create_idmap dir m a = m a := by
  obtain ⟨m', hroot, h⟩ := create_pgd_entry_rooted 0 haligned hlt (by decide) (by decide) m
  have heq : __create_idmap dir m = create_block_map.entries (dir + 8192) 0 0 1029 m' := by
    unfold __create_idmap
    simp only [hroot]
    exact create_block_map_eq (by decide) (by decide) (by decide)
  rw [heq]
  refine h.sections haligned hlt (fun a ha => entries_outside (by omega) le_rfl) (fun i hi => ?_) fun i f hf => ?_
  · rw [entries_word le_rfl (by decide), h.lower i hi]
    unfold idmapFlags
    by_cases hi : i = 0
    · subst hi
      rfl
    · rw [if_neg (by omega), if_neg hi]
  · unfold idmapFlags at hf
    split at hf
    · cases hf
      decide
    · cases hf

theorem create_page_tables_sections (m : Mem) : Sections (__create_page_tables dir m).word dir (dir + 4096) (dir + 8192) kernelFlags ∧
    ∀ a, a < dir ∨ dir + 12288 ≤ a → __create_page_tables dir m a = m a := by
  obtain ⟨m', hroot, h⟩ := create_pgd_entry_rooted VA_START haligned hlt (by decide) (by decide) m
  -- 504 sections of memory, 8 of devices.
  have hnormal : ∀ m, create_block_map (dir + 8192) 0 VA_START (VA_START + DEVICE_BASE - SECTION_SIZE) MMU_FLAGS m =
      create_block_map.entries (dir + 8192) 0 503 1029 m :=
    fun m => create_block_map_eq (by decide) (by decide) (by decide)
  have hdevice : ∀ m, create_block_map (dir + 8192) DEVICE_BASE (VA_START + DEVICE_BASE)
      (VA_START + PHYS_MEMORY_SIZE - SECTION_SIZE) MMU_DEVICE_FLAGS m =
        create_block_map.entries (dir + 8192) 504 511 (504 * SECTION_SIZE + 1025) m :=
    fun m => create_block_map_eq (by decide) (by decide) (by decide)
  have heq : __create_page_tables dir m = create_block_map.entries (dir + 8192) 504 511 (504 * SECTION_SIZE + 1025)
      (create_block_map.entries (dir + 8192) 0 503 1029 m') := by
    unfold __create_page_tables
    simp only [hroot]
    rw [hnormal, hdevice]
  have hsize : SECTION_SIZE = 2 ^ 21 := rfl
  rw [heq]
  refine h.sections haligned hlt (fun a ha => ?_) (fun i hi => ?_) fun i f hf => ?_
  · rw [entries_outside (by omega) (by decide), entries_outside (by omega) (by decide)]
  · rw [entries_word (by decide) (by decide), entries_word (by decide) (by decide), h.lower i hi, hsize]
    have hflags : MMU_FLAGS = 1029 := by decide
    have hflags' : MMU_DEVICE_FLAGS = 1025 := by decide
    unfold kernelFlags
    by_cases hi' : i < 504
    · rw [if_neg (by omega), if_pos (by omega), if_pos hi', hflags]
      show 1029 + (i - 0) * 2 ^ 21 = i * 2 ^ 21 + 1029
      omega
    · rw [if_pos (by omega), if_neg hi', if_pos hi, hflags']
      show 504 * 2 ^ 21 + 1025 + (i - 504) * 2 ^ 21 = i * 2 ^ 21 + 1025
      omega
  · unfold kernelFlags at hf
    split at hf
    · cases hf
      decide
    · split at hf
      · cases hf
        decide
      · cases hf

end Trees

theorem mmu_sections {word : Nat → Nat} {idmap_dir pg_dir pud pmd pud' pmd' va : Nat}
    (hid : Sections word idmap_dir pud pmd idmapFlags) (hkernel : Sections word pg_dir pud' pmd' kernelFlags) (hva : va < 2 ^ 64) :
    mmu word idmap_dir pg_dir va =
      if va < SECTION_SIZE then some ⟨va, MMU_FLAGS⟩
      else if VA_START ≤ va ∧ va < VA_START + DEVICE_BASE then some ⟨va - VA_START, MMU_FLAGS⟩
      else if VA_START ≤ va ∧ va < VA_START + PHYS_MEMORY_SIZE then some ⟨va - VA_START, MMU_DEVICE_FLAGS⟩
      else none := by
  have hsection : SECTION_SIZE = 2 ^ 21 := rfl
  have hstart : VA_START = 2 ^ 64 - 2 ^ 48 := rfl
  have hdevice : DEVICE_BASE = 504 * 2 ^ 21 := rfl
  have hphys : PHYS_MEMORY_SIZE = 2 ^ 30 := rfl
  rw [hsection, hstart, hdevice, hphys]
  unfold mmu
  rw [hid.tableWalk, hkernel.tableWalk, hstart]
  by_cases hlow : va < 2 ^ 48
  · rw [if_pos hlow, Nat.mod_eq_of_lt hlow, if_neg (c := _ ∧ va < _ + 504 * 2 ^ 21) (by omega), if_neg (c := _ ∧ _) (by omega)]
    unfold idmapFlags
    by_cases hfirst : va < 2 ^ 21
    · rw [if_pos hfirst, if_pos (by omega), if_pos (by omega)]
      rfl
    · rw [if_neg hfirst]
      split
      · rw [if_neg (by omega)]
        rfl
      · rfl
  · rw [if_neg hlow, if_neg (c := va < 2 ^ 21) (by omega)]
    by_cases hhigh : 2 ^ 64 - 2 ^ 48 ≤ va
    · have hmod : va % 2 ^ 48 = va - (2 ^ 64 - 2 ^ 48) := by omega
      obtain ⟨p, rfl⟩ := Nat.exists_eq_add_of_le hhigh
      rw [Nat.add_sub_cancel_left] at hmod ⊢
      rw [if_pos hhigh, hmod]
      unfold kernelFlags
      by_cases hmem : p < 504 * 2 ^ 21
      · rw [if_pos (by omega), if_pos (by omega), if_pos (by omega)]
        rfl
      · rw [if_neg (c := p / 2 ^ 21 < 504) (by omega), if_neg (c := _ ∧ _ < _ + 504 * 2 ^ 21) (by omega)]
        by_cases hdev : p < 2 ^ 30
        · rw [if_pos hdev, if_pos (by omega), if_pos (by omega)]
          rfl
        · rw [if_neg hdev, if_neg (by omega)]
    · rw [if_neg hhigh, if_neg (by omega), if_neg (by omega)]

/-- Once the MMU is on, the kernel sees physical memory at `VA_START`, and from `DEVICE_BASE` on as devices; the first
section, no more, is seen at its physical addresses as well, and every other access faults. The `bss` is cleared, and
nothing else is written. -/
theorem el1_entry_maps (L : Layout) (m : Mem) :
    (∀ va < 2 ^ 64, mmu (el1_entry L m).word L.idmap_dir L.pg_dir va =
      if va < SECTION_SIZE then some ⟨va, MMU_FLAGS⟩
      else if VA_START ≤ va ∧ va < VA_START + DEVICE_BASE then some ⟨va - VA_START, MMU_FLAGS⟩
      else if VA_START ≤ va ∧ va < VA_START + PHYS_MEMORY_SIZE then some ⟨va - VA_START, MMU_DEVICE_FLAGS⟩
      else none) ∧
    (∀ a, L.bss_begin ≤ a → a < L.bss_end → el1_entry L m a = 0) ∧
    ∀ a, a < L.bss_begin ∨ L.bss_end + 8 ≤ a ∧ a < L.idmap_dir ∨ L.pg_dir + PG_DIR_SIZE ≤ a → el1_entry L m a = m a := by
  obtain ⟨bss_begin, bss_end, idmap_dir, pg_dir, haligned, hle, hbelow, hdir, hpg, hlow⟩ := L
  have hsize : PG_DIR_SIZE = 12288 := rfl
  have hlowmem : LOW_MEMORY = 4194304 := rfl
  rw [hsize] at hpg hlow ⊢
  rw [hlowmem] at hlow
  rw [PAGE_SIZE_eq] at hdir
  unfold el1_entry
  simp only
  have hbss : ∀ a, memzero m bss_begin (bss_end - bss_begin) a =
      if bss_begin ≤ a ∧ a < bss_begin + words (bss_end - bss_begin) then 0 else m a := by
    intro a
    rw [memzero_eq]
  have hwords : (bss_end - bss_begin : Int) ≤ words (bss_end - bss_begin) ∧
      (words (bss_end - bss_begin) : Int) ≤ bss_end - bss_begin + 8 := by
    unfold words
    split <;> omega
  generalize memzero m bss_begin (bss_end - bss_begin) = m₀ at hbss ⊢
  obtain ⟨hid, hidout⟩ := create_idmap_sections hdir (by omega) m₀
  generalize __create_idmap idmap_dir m₀ = m₁ at hid hidout ⊢
  obtain ⟨hkernel, hout⟩ := create_page_tables_sections (by omega : pg_dir % 4096 = 0) (by omega) m₁
  generalize __create_page_tables pg_dir m₁ = m₂ at hkernel hout ⊢
  refine ⟨fun va hva => ?_, fun a hge hlt => ?_, fun a ha => ?_⟩
  · have hid₂ : Sections m₂.word idmap_dir (idmap_dir + 4096) (idmap_dir + 8192) idmapFlags := by
      refine hid.congr fun table htable i hi => Mem.word_congr fun k hk => hout _ ?_
      simp only [List.mem_cons, List.not_mem_nil, or_false] at htable
      omega
    exact mmu_sections hid₂ hkernel hva
  · rw [hout a (by omega), hidout a (by omega), hbss, if_pos (by omega)]
  · rw [hout a (by omega), hidout a (by omega), hbss, if_neg (by omega)]

/-- A small image. -/
def smallImage : Layout where
  bss_begin := 0x90000
  bss_end := 0x90104
  idmap_dir := 0x91000
  pg_dir := 0x94000
  bss_aligned := by decide
  bss_le := by decide
  bss_below := by decide
  idmap_aligned := by decide
  pg_dir_eq := by decide
  below := by decide

/-- The first page of the allocator, the second section from below, and the end of the `bss`. -/
theorem el1_entry_maps_small :
    mmu (el1_entry smallImage fun _ => 7).word 0x91000 0x94000 (VA_START + LOW_MEMORY) = some ⟨LOW_MEMORY, MMU_FLAGS⟩ ∧
    mmu (el1_entry smallImage fun _ => 7).word 0x91000 0x94000 SECTION_SIZE = none ∧
    el1_entry smallImage (fun _ => 7) 0x90103 = 0 ∧ el1_entry smallImage (fun _ => 7) 0x90110 = 7 := by
  obtain ⟨hmaps, hbss, hout⟩ := el1_entry_maps smallImage fun _ => 7
  refine ⟨(hmaps _ (by decide)).trans (by decide), (hmaps _ (by decide)).trans (by decide), hbss _ (by decide) (by decide),
    hout _ (.inr (.inl (by decide)))⟩

/-! ## The tables of a task -/

section User
variable {mm : Mm} {pgd : Nat} {place : List (Fin 512) → Fin PAGING_PAGES} {N : Finset (List (Fin 512))}
  {leaf : List (Fin 512) → Option (Fin PAGING_PAGES)} {n : List (Fin 512)}

/-- Physical memory as the kernel sees it. -/
def Mem.physWord (m : Mem) (a : Nat) : Nat := m.word (a + VA_START)

theorem physWord_entry (mm : Mm) (i : Fin PAGING_PAGES) (x : Nat) : mm.mem.physWord (physAddr i + 8 * x) = mm.entry i x := by
  unfold Mem.physWord Mm.entry
  rw [← physAddr_add]
  congr 1
  omega

theorem physAddr_bits (d : Fin PAGING_PAGES) :
    physAddr d % 4096 = 0 ∧ LOW_MEMORY ≤ physAddr d ∧ physAddr d + 4096 ≤ DEVICE_BASE := by
  have hlow : LOW_MEMORY = 4194304 := rfl
  have hbase : DEVICE_BASE = 1056964608 := rfl
  have hd : d.val < 257024 := d.isLt
  rw [physAddr_eq, hlow, hbase]
  omega

theorem entry_add (d : Fin PAGING_PAGES) {f : Nat} (hf : f < 2 ^ 12) : physAddr d ||| f = physAddr d + f := by
  rw [entry_eq d hf, physAddr_mul]

/-- A table leads the MMU on to the next one of the tree. -/
theorem PageTree.walk_next (h : PageTree mm pgd place N leaf) (hn : n ∈ N) (hlen : n.length < 3) (va l : Nat) {x : Fin 512}
    (hx : x.val = levelIndex va (l + 1)) : tableWalk mm.mem.physWord va (l + 1) (physAddr (place n)) =
      if n ++ [x] ∈ N then tableWalk mm.mem.physWord va l (physAddr (place (n ++ [x]))) else none := by
  have hedge : mm.mem.physWord (physAddr (place n) + 8 * levelIndex va (l + 1)) =
      if n ++ [x] ∈ N then enc n.length (place (n ++ [x])) else 0 := by
    rw [← hx, physWord_entry]
    exact h.stored.edge n hn hlen x
  split
  · next hmem =>
    rw [if_pos hmem] at hedge
    have henc : enc n.length (place (n ++ [x])) = physAddr (place (n ++ [x])) + 3 := by
      unfold enc
      rw [if_pos hlen]
      exact entry_add _ (by decide)
    obtain ⟨haligned, -, hlt⟩ := physAddr_bits (place (n ++ [x]))
    have hbase : DEVICE_BASE = 1056964608 := rfl
    exact walk_table (hedge.trans henc) haligned (by omega)
  · next hmem =>
    rw [if_neg hmem] at hedge
    exact walk_fault hedge

/-- The last table has the page. -/
theorem PageTree.walk_last (h : PageTree mm pgd place N leaf) (hn : n ∈ N) (hlen : n.length = 3) (va : Nat) {x : Fin 512}
    (hx : x.val = levelIndex va 0) : tableWalk mm.mem.physWord va 0 (physAddr (place n)) =
      (leaf (n ++ [x])).map fun d : Fin PAGING_PAGES => ⟨physAddr d + va % PAGE_SIZE, MMU_PTE_FLAGS⟩ := by
  have hentry : mm.mem.physWord (physAddr (place n) + 8 * levelIndex va 0) = (leaf (n ++ [x])).elim 0 (enc 3) := by
    rw [← hx, physWord_entry]
    exact h.leaves n hn hlen x
  cases hleaf : leaf (n ++ [x]) with
  | none =>
    rw [hleaf] at hentry
    exact walk_page_fault hentry
  | some d =>
    rw [hleaf] at hentry
    have hflags : MMU_PTE_FLAGS = 1095 := by decide
    obtain ⟨haligned, -, hlt⟩ := physAddr_bits d
    have hbase : DEVICE_BASE = 1056964608 := rfl
    have henc : enc 3 d = physAddr d / 4096 * 2 ^ levelShift 0 + MMU_PTE_FLAGS := by
      have hmul : physAddr d / 4096 * 2 ^ levelShift 0 = physAddr d := Nat.div_mul_cancel (Nat.dvd_of_mod_eq_zero haligned)
      rw [hmul]
      exact entry_add d (by decide)
    rw [walk_page hentry (entry_type d (by decide) (by decide))]
    show some (Walk.leaf (enc 3 d) va 0) = _
    rw [henc, leaf_eq (by rw [← henc]; unfold enc; rw [if_neg (by decide), entry_add d (by decide)]; omega) (by decide)]
    show some (Output.mk (physAddr d / 4096 * 4096 + va % 4096) MMU_PTE_FLAGS) = _
    rw [Nat.div_mul_cancel (Nat.dvd_of_mod_eq_zero haligned)]
    rfl

/-- The MMU finds the leaf, as a page of the process. -/
theorem PageTree.tableWalk (h : PageTree mm pgd place N leaf) (hpgd : pgd ≠ 0) (va : Nat) :
    Walk.tableWalk mm.mem.physWord va 3 pgd =
      (leaf (tablePath va)).map fun d : Fin PAGING_PAGES => ⟨physAddr d + va % PAGE_SIZE, MMU_PTE_FLAGS⟩ := by
  have hindex : ∀ l shift, levelShift l = shift → (entryIndex va shift).val = levelIndex va l := by
    rintro l _ rfl
    exact tableIndex_eq va _
  obtain ⟨n₁, hn₁⟩ : ∃ n, n = [] ++ [entryIndex va PGD_SHIFT] := ⟨_, rfl⟩
  obtain ⟨n₂, hn₂⟩ : ∃ n, n = n₁ ++ [entryIndex va PUD_SHIFT] := ⟨_, rfl⟩
  obtain ⟨n₃, hn₃⟩ : ∃ n, n = n₂ ++ [entryIndex va PMD_SHIFT] := ⟨_, rfl⟩
  have hpath : tablePath va = n₃ ++ [entryIndex va PAGE_SHIFT] := by rw [hn₃, hn₂, hn₁]; rfl
  have hmissing : n₃ ∉ N → leaf (tablePath va) = none := by
    intro hn
    rw [hpath, h.bare n₃ hn]
  have h₂₃ : n₃ ∈ N → n₂ ∈ N := fun hn => h.stored.closed n₂ _ (hn₃ ▸ hn)
  have h₁₂ : n₂ ∈ N → n₁ ∈ N := fun hn => h.stored.closed n₁ _ (hn₂ ▸ hn)
  have hroot : [] ∈ N := by
    by_contra hno
    exact hpgd (h.root.trans (if_neg hno))
  rw [h.root, if_pos hroot, h.walk_next hroot (by simp) va 2 (hindex 3 PGD_SHIFT rfl), ← hn₁]
  by_cases hmem₁ : n₁ ∈ N
  swap
  · rw [if_neg hmem₁, hmissing fun hn => hmem₁ (h₁₂ (h₂₃ hn))]
    rfl
  rw [if_pos hmem₁, h.walk_next hmem₁ (by simp [hn₁]) va 1 (hindex 2 PUD_SHIFT rfl), ← hn₂]
  by_cases hmem₂ : n₂ ∈ N
  swap
  · rw [if_neg hmem₂, hmissing fun hn => hmem₂ (h₂₃ hn)]
    rfl
  rw [if_pos hmem₂, h.walk_next hmem₂ (by simp [hn₂, hn₁]) va 0 (hindex 1 PMD_SHIFT rfl), ← hn₃]
  by_cases hmem₃ : n₃ ∈ N
  swap
  · rw [if_neg hmem₃, hmissing hmem₃]
    rfl
  rw [if_pos hmem₃, h.walk_last hmem₃ (by simp [hn₃, hn₂, hn₁]) va (hindex 0 PAGE_SHIFT rfl), ← hpath]

end User

end ClbFilesystem
