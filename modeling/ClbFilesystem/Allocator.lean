import ClbFilesystem.Boot
import ClbFilesystem.Pages
/-!
# Pages handed out and given back

Runs of the page allocator, with `free_page`, which nothing in the kernel calls:
it takes a physical address, that of `allocate_kernel_page` without `VA_START`. A
page is taken in `mem_map` just when it was handed out and not given back since.
-/

namespace ClbFilesystem

open Lib

/-! ## The code -/

/-- `mem_map[(p - LOW_MEMORY) / PAGE_SIZE] = 0;` -/
def free_page (p : Nat) (mm : Mm) : Except Fault Mm :=
  let index := toUlong (p - LOW_MEMORY : Int) / PAGE_SIZE
  if h : index < PAGING_PAGES then .ok { mm with mem_map := Function.update mm.mem_map ⟨index, h⟩ 0 }
  else .error .outOfBounds

/-- The result of an `int` operation, if it is an `int`. -/
def asInt (n : Int) : Option Int := if -2 ^ 31 ≤ n ∧ n < 2 ^ 31 then some n else none

/-- The loop of `get_free_page` from page `i`, in the arithmetic of C: nothing if an `int` operation overflows. -/
def get_free_page.inInt (mm : Mm) (i : Nat) : Option (Nat × Mm) :=
  if h : i < PAGING_PAGES then
    if mm.mem_map ⟨i, h⟩ = 0 then do
      let offset ← asInt (i * PAGE_SIZE)
      let page ← asInt (LOW_MEMORY + offset)
      let page := toUlong page
      return (page, { mem := memzero mm.mem (toUlong (page + VA_START : Int)) PAGE_SIZE,
                      mem_map := Function.update mm.mem_map ⟨i, h⟩ 1 })
    else do
      let _ ← asInt (i + 1)
      inInt mm (i + 1)
  else some (0, mm)
termination_by PAGING_PAGES - i

/-! ## Runs -/

inductive PageEvent where
  | get_free_page (page : Nat)
  | allocate_kernel_page (addr : Nat)
  | free_page (p : Nat)
  /-- Whoever has a page writes to memory. -/
  | write

inductive PageNext : Mm → PageEvent → Mm → Prop
  | get_free_page {mm mm' : Mm} {page : Nat} : get_free_page mm = (page, mm') → PageNext mm (.get_free_page page) mm'
  | allocate_kernel_page {mm mm' : Mm} {addr : Nat} : allocate_kernel_page mm = (addr, mm') →
    PageNext mm (.allocate_kernel_page addr) mm'
  | free_page {mm mm' : Mm} {p : Nat} : free_page p mm = .ok mm' → PageNext mm (.free_page p) mm'
  | write {mm : Mm} {mem : Mem} : PageNext mm .write { mm with mem := mem }

/-- The pages allocated after an event, given those before. -/
def PageEvent.after (e : PageEvent) (A : Finset Nat) : Finset Nat :=
  match e with
  | .get_free_page page => if page = 0 then A else insert page A
  | .allocate_kernel_page addr => if addr = 0 then A else insert (addr - VA_START) A
  | .free_page p => A.erase p
  | .write => A

/-- The pages handed out and not given back since. -/
def allocated (tr : List (Step Mm PageEvent)) : Finset Nat := tr.foldl (fun A st => st.event.after A) ∅

/-- A run from an all-zero `mem_map`, in which `free_page` is given pages that are allocated. -/
def PageRuns (tr : List (Step Mm PageEvent)) (mm : Mm) : Prop :=
  (∃ mem, Run PageNext ⟨mem, fun _ => 0⟩ tr mm) ∧
    ∀ tr' st p, tr' ++ [st] <+: tr → st.event = .free_page p → p ∈ allocated tr'

/-! ## What the calls do -/

/-- What the next call does when the pages of `A` are allocated. -/
structure Mm.Exclusive (mm : Mm) (A : Finset Nat) : Prop where
  int : get_free_page.inInt mm 0 = some (get_free_page mm)
  fresh : ∀ page mm', get_free_page mm = (page, mm') → page ≠ 0 → page ∉ A ∧ PAGE_SIZE ∣ page ∧ LOW_MEMORY ≤ page ∧
    page + PAGE_SIZE ≤ HIGH_MEMORY ∧
    ∀ a, mm'.mem a = if page + VA_START ≤ a ∧ a < page + VA_START + PAGE_SIZE then 0 else mm.mem a
  full : (get_free_page mm).1 = 0 ↔ A.card = PAGING_PAGES
  kernel : allocate_kernel_page mm =
    if (get_free_page mm).1 = 0 then (0, mm) else ((get_free_page mm).1 + VA_START, (get_free_page mm).2)
  free : ∀ p ∈ A, ∃ mm', free_page p mm = .ok mm' ∧ mm'.mem = mm.mem ∧
    ∀ i : Fin PAGING_PAGES, mm'.mem_map i = if physAddr i = p then 0 else mm.mem_map i

/-- The data blocks are zeroed, in different pages, and none is null. -/
def State.OwnBlocks (s : State) : Prop :=
  ∀ i, (s.inode i).data_block ≠ 0 ∧ (∀ o < FILE_MAX_SIZE, s.mem ((s.inode i).data_block + o) = 0) ∧
    ∀ j, j ≠ i → ∀ o < FILE_MAX_SIZE, ∀ o' < FILE_MAX_SIZE, (s.inode i).data_block + o ≠ (s.inode j).data_block + o'

/-! ## Arithmetic -/

theorem asInt_eq {n : Int} (h : -2 ^ 31 ≤ n) (h' : n < 2 ^ 31) : asInt n = some n := if_pos ⟨h, h'⟩

/-- The address of a page that is in the map is an `int`, and so is the product it is computed from. -/
theorem page_inInt {i : Nat} (hi : i < PAGING_PAGES) :
    asInt ((i : Int) * PAGE_SIZE) = some ((i : Int) * PAGE_SIZE) ∧
    asInt ((LOW_MEMORY : Int) + (i : Int) * PAGE_SIZE) = some ((LOW_MEMORY : Int) + (i : Int) * PAGE_SIZE) ∧
    toUlong ((LOW_MEMORY : Int) + (i : Int) * PAGE_SIZE) = LOW_MEMORY + i * PAGE_SIZE ∧
    toUlong (((LOW_MEMORY + i * PAGE_SIZE : Nat) : Int) + VA_START) = LOW_MEMORY + i * PAGE_SIZE + VA_START := by
  have hva : VA_START = 0xffff000000000000 := rfl
  rw [PAGING_PAGES_eq] at hi
  rw [PAGE_SIZE_eq, LOW_MEMORY_eq, hva]
  refine ⟨asInt_eq (by omega) (by omega), asInt_eq (by omega) (by omega), ?_, ?_⟩
  · unfold toUlong
    omega
  · unfold toUlong
    omega

/-- No `int` operation of the loop overflows. -/
theorem get_free_page_inInt (mm : Mm) : get_free_page.inInt mm 0 = some (get_free_page mm) := by
  have hpages : PAGING_PAGES = 257024 := rfl
  have hloop : ∀ n i, i + n = PAGING_PAGES → get_free_page.inInt mm i = some (get_free_page.loop mm i) := by
    intro n
    induction n with
    | zero =>
      intro i hi
      rw [get_free_page.inInt, get_free_page.loop, dif_neg (by omega), dif_neg (by omega)]
    | succ n ih =>
      intro i hi
      have hlt : i < PAGING_PAGES := by omega
      rw [get_free_page.inInt, get_free_page.loop, dif_pos hlt, dif_pos hlt]
      by_cases hfree : mm.mem_map ⟨i, hlt⟩ = 0
      · obtain ⟨hoffset, hpage, hlong, hkernel⟩ := page_inInt hlt
        rw [if_pos hfree, if_pos hfree, hoffset, Option.bind_eq_bind, Option.bind_some, hpage, Option.bind_some, hlong]
        show some (_, _) = _
        rw [hkernel]
      · have hnext : asInt ((i : Int) + 1) = some ((i : Int) + 1) := asInt_eq (by omega) (by omega)
        rw [if_neg hfree, if_neg hfree, hnext, Option.bind_eq_bind, Option.bind_some]
        exact ih (i + 1) (by omega)
  exact hloop PAGING_PAGES 0 (by omega)

/-- The index `free_page` computes is that of the page. -/
theorem free_page_physAddr (i : Fin PAGING_PAGES) (mm : Mm) :
    free_page (physAddr i) mm = .ok { mm with mem_map := Function.update mm.mem_map i 0 } := by
  have hi := i.isLt
  have hindex : toUlong ((physAddr i : Int) - LOW_MEMORY) / PAGE_SIZE = i := by
    have hi : i.val < 257024 := i.isLt
    rw [physAddr_eq, LOW_MEMORY_eq, PAGE_SIZE_eq]
    unfold toUlong
    omega
  unfold free_page
  simp only [hindex, hi, dif_pos]

/-- A kernel address is no page to `free_page`. -/
theorem free_page_pageAddr (i : Fin PAGING_PAGES) (mm : Mm) : free_page (pageAddr i) mm = .error .outOfBounds := by
  have hindex : ¬ toUlong ((pageAddr i : Int) - LOW_MEMORY) / PAGE_SIZE < PAGING_PAGES := by
    have hi : i.val < 257024 := i.isLt
    have hpages : PAGING_PAGES = 257024 := rfl
    rw [pageAddr_eq, LOW_MEMORY_eq, PAGE_SIZE_eq]
    unfold toUlong
    omega
  exact dif_neg hindex

/-! ## The map and the history -/

/-- The pages taken are those of `A`. -/
structure Tracks (mm : Mm) (A : Finset Nat) : Prop where
  used : ∀ i : Fin PAGING_PAGES, mm.mem_map i ≠ 0 ↔ physAddr i ∈ A
  pages : ∀ p ∈ A, ∃ i : Fin PAGING_PAGES, p = physAddr i

section Tracks
variable {mm mm' : Mm} {A : Finset Nat}

theorem Tracks.take (h : Tracks mm A) (i : Fin PAGING_PAGES) : Tracks (mm.take i) (insert (physAddr i) A) := by
  refine ⟨fun j => ?_, fun p hp => ?_⟩
  · rw [Mm.take_mem_map, Finset.mem_insert]
    by_cases hj : j = i
    · subst hj
      rw [if_pos rfl]
      exact iff_of_true (by decide) (.inl rfl)
    · rw [if_neg hj, h.used]
      exact (or_iff_right (physAddr_ne hj)).symm
  · rcases Finset.mem_insert.1 hp with rfl | hp
    · exact ⟨i, rfl⟩
    · exact h.pages p hp

theorem Tracks.release (h : Tracks mm A) (i : Fin PAGING_PAGES) :
    Tracks { mm with mem_map := Function.update mm.mem_map i 0 } (A.erase (physAddr i)) := by
  refine ⟨fun j => ?_, fun p hp => h.pages p (Finset.mem_of_mem_erase hp)⟩
  rw [Finset.mem_erase]
  show Function.update mm.mem_map i 0 j ≠ 0 ↔ _
  rw [Function.update_apply]
  by_cases hj : j = i
  · subst hj
    simp
  · rw [if_neg hj, h.used]
    exact (and_iff_right (physAddr_ne hj)).symm

/-- An event keeps track of the pages. -/
theorem Tracks.next (h : Tracks mm A) {e : PageEvent} (hn : PageNext mm e mm') (hfree : ∀ p, e = .free_page p → p ∈ A) :
    Tracks mm' (e.after A) := by
  cases hn with
  | get_free_page hget =>
    rcases get_free_page_cases mm with ⟨i, -, heq⟩ | ⟨-, heq⟩
    · rw [heq] at hget
      cases hget
      simp only [PageEvent.after, if_neg (physAddr_pos i).ne']
      exact h.take i
    · rw [heq] at hget
      cases hget
      exact h
  | allocate_kernel_page hget =>
    rcases allocate_kernel_page_cases mm with ⟨i, -, heq⟩ | ⟨-, heq⟩
    · rw [heq] at hget
      cases hget
      rw [PageEvent.after, if_neg (pageAddr_ne_zero i), ← physAddr_add, Nat.add_sub_cancel]
      exact h.take i
    · rw [heq] at hget
      cases hget
      exact h
  | @free_page _ p hcall =>
    obtain ⟨i, rfl⟩ := h.pages p (hfree p rfl)
    rw [free_page_physAddr] at hcall
    cases hcall
    exact h.release i
  | write => exact ⟨h.used, h.pages⟩

/-- The pages allocated are as many as are taken. -/
theorem Tracks.card (h : Tracks mm A) : A.card = PAGING_PAGES ↔ ∀ i, mm.mem_map i ≠ 0 := by
  have himage : A = (Finset.univ.filter fun i => mm.mem_map i ≠ 0).image fun i : Fin PAGING_PAGES => physAddr i := by
    ext p
    simp only [Finset.mem_image, Finset.mem_filter, Finset.mem_univ, true_and]
    constructor
    · intro hp
      obtain ⟨i, rfl⟩ := h.pages p hp
      exact ⟨i, (h.used i).2 hp, rfl⟩
    · rintro ⟨i, hi, rfl⟩
      exact (h.used i).1 hi
  have hcard : (Finset.univ : Finset (Fin PAGING_PAGES)).card = PAGING_PAGES := Finset.card_fin _
  rw [himage, Finset.card_image_of_injective _ physAddr_injective]
  constructor
  · intro hall i
    have hfilter := Finset.filter_card_eq (s := Finset.univ) (hall.trans hcard.symm) i (Finset.mem_univ i)
    exact hfilter
  · intro hall
    rw [Finset.filter_true_of_mem fun i _ => hall i, hcard]

theorem Tracks.exclusive (h : Tracks mm A) : mm.Exclusive A := by
  have hpage : ∀ i : Fin PAGING_PAGES, PAGE_SIZE ∣ physAddr i ∧ LOW_MEMORY ≤ physAddr i ∧ physAddr i + PAGE_SIZE ≤ HIGH_MEMORY := by
    intro i
    have hi : i.val < 257024 := i.isLt
    have hhigh : HIGH_MEMORY = 0x3F000000 := rfl
    rw [physAddr_eq, PAGE_SIZE_eq, LOW_MEMORY_eq, hhigh]
    omega
  refine ⟨get_free_page_inInt mm, fun page mm' hget hne => ?_, ?_, ?_, fun p hp => ?_⟩
  · rcases get_free_page_cases mm with ⟨i, hi, heq⟩ | ⟨-, heq⟩
    · rw [heq] at hget
      cases hget
      obtain ⟨hdvd, hlow, hhigh⟩ := hpage i
      refine ⟨fun hA => (h.used i).2 hA hi, hdvd, hlow, hhigh, fun a => ?_⟩
      rw [physAddr_add]
      rfl
    · rw [heq] at hget
      cases hget
      exact absurd rfl hne
  · rw [h.card]
    rcases get_free_page_cases mm with ⟨i, hi, heq⟩ | ⟨hall, heq⟩
    · rw [heq]
      exact iff_of_false (physAddr_pos i).ne' fun hall => hall i hi
    · rw [heq]
      exact iff_of_true rfl hall
  · rcases get_free_page_cases mm with ⟨i, -, heq⟩ | ⟨-, heq⟩
    · rw [allocate_kernel_page, heq]
      simp only [if_neg (physAddr_pos i).ne']
    · rw [allocate_kernel_page, heq]
  · obtain ⟨i, rfl⟩ := h.pages p hp
    refine ⟨_, free_page_physAddr i mm, rfl, fun j => ?_⟩
    show Function.update mm.mem_map i 0 j = _
    rw [Function.update_apply]
    by_cases hj : j = i
    · subst hj
      simp
    · rw [if_neg hj, if_neg (physAddr_ne hj)]

end Tracks

theorem allocated_snoc (tr : List (Step Mm PageEvent)) (st : Step Mm PageEvent) :
    allocated (tr ++ [st]) = st.event.after (allocated tr) := by
  unfold allocated
  rw [List.foldl_append]
  rfl

theorem PageRuns.start (mem : Mem) : PageRuns [] ⟨mem, fun _ => 0⟩ :=
  ⟨⟨mem, .nil⟩, fun tr' st p hp => by simp at hp⟩

theorem PageRuns.snoc {tr : List (Step Mm PageEvent)} {mm mm' : Mm} {e : PageEvent} (h : PageRuns tr mm)
    (hn : PageNext mm e mm') (hfree : ∀ p, e = .free_page p → p ∈ allocated tr) : PageRuns (tr ++ [⟨mm, e, mm'⟩]) mm' := by
  obtain ⟨⟨mem, hrun⟩, hprev⟩ := h
  refine ⟨⟨mem, hrun.snoc hn⟩, fun tr' st p hp he => ?_⟩
  rcases List.prefix_concat_iff.1 hp with heq | hp
  · obtain ⟨rfl, hst⟩ := List.append_inj' heq rfl
    obtain rfl := (List.cons.inj hst).1
    exact hfree p he
  · exact hprev tr' st p hp he

/-- In every run, the pages taken are those allocated. -/
theorem PageRuns.tracks {tr : List (Step Mm PageEvent)} {mm : Mm} (h : PageRuns tr mm) : Tracks mm (allocated tr) := by
  obtain ⟨⟨mem, hrun⟩, hfree⟩ := h
  induction hrun with
  | nil => exact ⟨fun i => by simp [allocated], by simp [allocated]⟩
  | @snoc tr s e s' hrun hn ih =>
    have hprev := ih fun tr' st p hp => hfree tr' st p (hp.trans (List.prefix_append _ _))
    rw [allocated_snoc]
    exact hprev.next hn fun p he => hfree tr ⟨s, e, s'⟩ p (List.prefix_refl _) he

/-! ## The blocks of the inodes -/

theorem initial_ownBlocks (mem : Mem) : (initial mem).OwnBlocks := by
  intro i
  have hi := i.isLt
  have hblock : ∀ j : Fin FS_NPAGES, ((initial mem).inode j).data_block = pageAddr j := by
    intro j
    rw [initial_inode]
    rfl
  have hsize : FILE_MAX_SIZE = 4096 := rfl
  rw [hblock]
  refine ⟨pageAddr_ne_zero i, fun o ho => if_pos ?_, fun j hj o ho o' ho' => ?_⟩
  · rw [pageAddr_eq, pageAddr_eq, pageAddr_eq]
    omega
  · have hne : j.val ≠ i.val := fun heq => hj (Fin.ext heq)
    rw [hblock, pageAddr_eq, pageAddr_eq]
    omega

/-- In every run, what the next call hands out is no page allocated; the blocks of the inodes are among such pages. -/
theorem PageRuns.pages_exclusive {tr : List (Step Mm PageEvent)} {mm : Mm} (h : PageRuns tr mm) :
    mm.Exclusive (allocated tr) ∧ ∀ mem, ∃ s, init_fs (boot mem) = .ok s ∧ s.OwnBlocks :=
  ⟨h.tracks.exclusive, fun mem => ⟨initial mem, init_fs_boot mem, initial_ownBlocks mem⟩⟩

/-- The first page, and the map before and after it is taken. -/
def page0 : Fin PAGING_PAGES := ⟨0, by decide⟩
def freePages : Mm := ⟨fun _ => 0, fun _ => 0⟩

theorem pages_exclusive_freed : let mm := freePages.take page0
    allocate_kernel_page freePages = (pageAddr 0, mm) ∧ free_page (physAddr 0) mm = .ok { mm with mem_map := fun _ => 0 } ∧
    Mm.Exclusive { mm with mem_map := fun _ => 0 } ∅ := by
  have hget : allocate_kernel_page freePages = (pageAddr 0, freePages.take page0) :=
    allocate_kernel_page_eq freePages (by decide) rfl (by simp)
  have hmap : Function.update (freePages.take page0).mem_map page0 0 = fun _ => 0 := by
    simp [Mm.take, freePages]
  have hput : free_page (physAddr 0) (freePages.take page0) = .ok { freePages.take page0 with mem_map := fun _ => 0 } := by
    rw [← hmap]
    exact free_page_physAddr page0 _
  have halloc : allocated [⟨freePages, .allocate_kernel_page (pageAddr 0), freePages.take page0⟩] = {physAddr 0} := by
    decide
  have hrun : PageRuns [⟨freePages, .allocate_kernel_page (pageAddr 0), freePages.take page0⟩] (freePages.take page0) :=
    (PageRuns.start fun _ => 0).snoc (.allocate_kernel_page hget) fun p he => by cases he
  have hrun' := hrun.snoc (.free_page hput) fun p he => by
    cases he
    rw [halloc]
    exact Finset.mem_singleton_self _
  have hempty := hrun'.pages_exclusive.1
  rw [allocated_snoc, halloc] at hempty
  exact ⟨hget, hput, by simpa [PageEvent.after] using hempty⟩

end ClbFilesystem
