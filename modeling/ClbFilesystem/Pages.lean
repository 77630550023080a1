import ClbFilesystem.Memory
import Mathlib.Data.Finset.Card
import Mathlib.Data.Fintype.Card
/-!
# Pages taken and free

What one call of the allocator does, and the count of the pages it has left.
-/

namespace ClbFilesystem

/-- The physical address of page `i`. -/
def physAddr (i : Nat) : Nat := LOW_MEMORY + i * PAGE_SIZE

theorem physAddr_eq (i : Nat) : physAddr i = 0x400000 + i * 4096 := rfl

theorem physAddr_add (i : Nat) : physAddr i + VA_START = pageAddr i := by
  simp only [physAddr, pageAddr]
  omega

theorem physAddr_pos (i : Nat) : 0 < physAddr i := by
  rw [physAddr_eq]
  omega

theorem physAddr_inj {i j : Nat} (h : physAddr i = physAddr j) : i = j := by
  simp only [physAddr_eq] at h
  omega

theorem physAddr_injective : Function.Injective fun i : Fin PAGING_PAGES => physAddr i :=
  fun _ _ h => Fin.ext (physAddr_inj h)

theorem physAddr_ne {i j : Fin PAGING_PAGES} (h : j ≠ i) : physAddr j ≠ physAddr i := physAddr_injective.ne h

theorem pageAddr_inj {i j : Nat} (h : pageAddr i = pageAddr j) : i = j := by
  simp only [pageAddr_eq] at h
  omega

namespace Mm

/-- Page `i` is handed out, zeroed. -/
def take (mm : Mm) (i : Fin PAGING_PAGES) : Mm where
  mem a := if pageAddr i ≤ a ∧ a < pageAddr i + PAGE_SIZE then 0 else mm.mem a
  mem_map := Function.update mm.mem_map i 1

/-- The number of free pages. -/
def free (mm : Mm) : Nat := (Finset.univ.filter fun i => mm.mem_map i = 0).card

/-- Every page taken before is taken still. -/
def Le (mm mm' : Mm) : Prop := ∀ i, mm.mem_map i ≠ 0 → mm'.mem_map i ≠ 0

theorem Le.refl (mm : Mm) : mm.Le mm := fun _ h => h

theorem Le.trans {mm mm' mm'' : Mm} (h : mm.Le mm') (h' : mm'.Le mm'') : mm.Le mm'' := fun i hi => h' i (h i hi)

variable {mm mm' : Mm} {i j : Fin PAGING_PAGES}

theorem take_mem_map (mm : Mm) (i j : Fin PAGING_PAGES) : (mm.take i).mem_map j = if j = i then 1 else mm.mem_map j := by
  simp only [take, Function.update_apply]

theorem take_used (mm : Mm) (i : Fin PAGING_PAGES) : (mm.take i).mem_map i ≠ 0 := by
  rw [take_mem_map, if_pos rfl]
  decide

theorem le_take (mm : Mm) (i : Fin PAGING_PAGES) : mm.Le (mm.take i) := by
  intro j hj
  rw [take_mem_map]
  split
  · decide
  · exact hj

theorem free_take (h : mm.mem_map i = 0) : (mm.take i).free + 1 = mm.free := by
  have herase : (Finset.univ.filter fun j => (mm.take i).mem_map j = 0) = (Finset.univ.filter fun j => mm.mem_map j = 0).erase i := by
    ext j
    simp only [Finset.mem_filter, Finset.mem_univ, true_and, Finset.mem_erase, take_mem_map]
    by_cases hj : j = i <;> simp [hj]
  unfold free
  rw [herase]
  exact Finset.card_erase_add_one (by simp [h])

theorem free_congr (h : mm'.mem_map = mm.mem_map) : mm'.free = mm.free := by
  unfold free
  rw [h]

theorem free_eq_zero : mm.free = 0 ↔ ∀ i, mm.mem_map i ≠ 0 := by
  unfold free
  rw [Finset.card_eq_zero, Finset.filter_eq_empty_iff]
  simp

theorem free_none (m : Mem) : (⟨m, fun _ => 0⟩ : Mm).free = PAGING_PAGES := by
  unfold free
  rw [Finset.filter_true_of_mem fun _ _ => rfl, Finset.card_univ, Fintype.card_fin]

/-- Any number of pages can be taken. -/
theorem exists_taken (n : Nat) (hn : n ≤ PAGING_PAGES) :
    ∃ mm : Mm, (∀ i, mm.mem_map i ≠ 0 ↔ i.val < n) ∧ mm.free + n = PAGING_PAGES := by
  induction n with
  | zero => exact ⟨⟨fun _ => 0, fun _ => 0⟩, fun i => by simp, by rw [Nat.add_zero, free_none]⟩
  | succ n ih =>
    obtain ⟨mm, hmap, hfree⟩ := ih (by omega)
    have hzero : mm.mem_map ⟨n, hn⟩ = 0 := by
      by_contra hne
      exact Nat.lt_irrefl n ((hmap _).1 hne)
    refine ⟨mm.take ⟨n, hn⟩, fun i => ?_, ?_⟩
    · rw [take_mem_map]
      split
      · next hi => simp [hi]
      · next hi =>
        have hne : i.val ≠ n := fun heq => hi (Fin.ext heq)
        rw [hmap]
        omega
    · rw [Nat.add_comm n 1, ← Nat.add_assoc, free_take hzero, hfree]

end Mm

/-- The allocator hands out a free page, or has none. -/
theorem get_free_page_cases (mm : Mm) : (∃ i, mm.mem_map i = 0 ∧ get_free_page mm = (physAddr i, mm.take i)) ∨
    (∀ i, mm.mem_map i ≠ 0) ∧ get_free_page mm = (0, mm) := by
  have hloop : ∀ n i, i + n = PAGING_PAGES → (∀ j : Fin PAGING_PAGES, j.val < i → mm.mem_map j ≠ 0) →
      (∃ j, mm.mem_map j = 0 ∧ get_free_page.loop mm i = (physAddr j, mm.take j)) ∨
      (∀ j, mm.mem_map j ≠ 0) ∧ get_free_page.loop mm i = (0, mm) := by
    intro n
    induction n with
    | zero =>
      intro i hi hused
      refine .inr ⟨fun j => hused j (by have := j.isLt; omega), ?_⟩
      rw [get_free_page.loop, dif_neg (by omega)]
    | succ n ih =>
      intro i hi hused
      have hlt : i < PAGING_PAGES := by omega
      rw [get_free_page.loop, dif_pos hlt]
      by_cases hfree : mm.mem_map ⟨i, hlt⟩ = 0
      · refine .inl ⟨⟨i, hlt⟩, hfree, ?_⟩
        rw [if_pos hfree]
        have hpage : LOW_MEMORY + i * PAGE_SIZE + VA_START = pageAddr i := physAddr_add i
        have hwords : words PAGE_SIZE = PAGE_SIZE := rfl
        refine Prod.ext rfl (Mm.ext ?_ rfl)
        simp only [Mm.take, hpage, memzero_eq, hwords]
      · rw [if_neg hfree]
        refine ih (i + 1) (by omega) fun j hj => ?_
        rcases Nat.lt_succ_iff_lt_or_eq.1 hj with hj | hj
        · exact hused j hj
        · obtain rfl : j = ⟨i, hlt⟩ := Fin.ext hj
          exact hfree
  exact hloop PAGING_PAGES 0 (by omega) (by simp)

theorem allocate_kernel_page_cases (mm : Mm) :
    (∃ i, mm.mem_map i = 0 ∧ allocate_kernel_page mm = (pageAddr i, mm.take i)) ∨
    (∀ i, mm.mem_map i ≠ 0) ∧ allocate_kernel_page mm = (0, mm) := by
  rcases get_free_page_cases mm with ⟨i, hfree, hget⟩ | ⟨hused, hget⟩
  · refine .inl ⟨i, hfree, ?_⟩
    rw [allocate_kernel_page, hget]
    simp only [if_neg (physAddr_pos i).ne', physAddr_add]
  · refine .inr ⟨hused, ?_⟩
    rw [allocate_kernel_page, hget]
    rfl

theorem pageAddr_ne_zero (i : Nat) : pageAddr i ≠ 0 := by
  rw [pageAddr_eq]
  omega

end ClbFilesystem
