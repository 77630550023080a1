import ClbFilesystem.Pages
import ClbFilesystem.Paging
import Mathlib.Algebra.Order.Ring.Nat
/-!
# Entries of page tables

A table is a page of 512 words. An entry written is the address of a page, which
is a multiple of the page size, with flags in the bits below; what the kernel and
the MMU read of it is that address.
-/

namespace ClbFilesystem

/-! ## Words -/

namespace Mem

variable {m m' : Mem} {a b v : Nat}

theorem word_congr (h : ∀ k < 8, m (a + k) = m' (b + k)) : m.word a = m'.word b := by
  unfold word
  congr 1
  exact List.map_congr_left fun k hk => h k (List.mem_range.1 hk)

theorem word_zero (h : ∀ k < 8, m (a + k) = 0) : m.word a = 0 := by
  have hmap : (List.range 8).map (fun k => m (a + k)) = (List.range 8).map fun _ => 0 :=
    List.map_congr_left fun k hk => h k (List.mem_range.1 hk)
  unfold word
  rw [hmap]
  decide

theorem word_setWord (hv : v < 2 ^ 64) : (m.setWord a v).word a = v := by
  have hmap : (List.range 8).map (fun k => m.setWord a v (a + k)) = leBytes 8 v := by
    refine List.ext_getElem (by simp) fun k hk hk' => ?_
    have hk : k < 8 := by simpa using hk
    rw [List.getElem_map, List.getElem_range]
    unfold setWord
    rw [if_pos (by omega), Nat.add_sub_cancel_left, List.getD_eq_getElem?_getD, List.getElem?_eq_getElem hk']
    rfl
  unfold word
  rw [hmap, ofLeBytes_leBytes]
  exact Nat.mod_eq_of_lt hv

theorem setWord_outside (h : b < a ∨ a + 8 ≤ b) : m.setWord a v b = m b := if_neg (by omega)

theorem word_setWord_of_disjoint (h : a + 8 ≤ b ∨ b + 8 ≤ a) : (m.setWord a v).word b = m.word b :=
  word_congr fun k hk => setWord_outside (by omega)

end Mem

/-! ## Addresses in an entry -/

/-- Masking the flags away. -/
theorem and_high_bits {n a f : Nat} (hf : f < 2 ^ 12) (ha : a < 2 ^ n) : (2 ^ 12 * a + f) &&& (2 ^ 12 * (2 ^ n - 1)) = 2 ^ 12 * a := by
  refine Nat.eq_of_testBit_eq fun i => ?_
  rw [Nat.testBit_and, Nat.testBit_two_pow_mul_add a hf, Nat.testBit_two_pow_mul, Nat.testBit_two_pow_mul, Nat.testBit_two_pow_sub_one]
  by_cases hi : i < 12
  · simp [Nat.not_le.2 hi]
  · by_cases hn : i - 12 < n
    · simp [hi, hn, Nat.le_of_not_lt hi]
    · have hbit : a.testBit (i - 12) = false :=
        Nat.testBit_lt_two_pow (lt_of_lt_of_le ha (Nat.pow_le_pow_right (by decide) (Nat.le_of_not_lt hn)))
      simp [hi, hbit]

section Entry
variable (i : Fin PAGING_PAGES) {f : Nat} (hf : f < 2 ^ 12)

theorem physAddr_mul : physAddr i = 2 ^ 12 * (1024 + i) := by
  rw [physAddr_eq]
  omega

theorem physAddr_lt : 1024 + i.val < 2 ^ 18 := by
  have hi : i.val < 257024 := i.isLt
  omega

include hf

theorem entry_eq : physAddr i ||| f = 2 ^ 12 * (1024 + i) + f := by
  rw [physAddr_mul, Nat.two_pow_add_eq_or_of_lt hf]

theorem entry_ne_zero : physAddr i ||| f ≠ 0 := by
  rw [entry_eq i hf]
  omega

theorem entry_lt : physAddr i ||| f < 2 ^ 64 := by
  have := physAddr_lt i
  rw [entry_eq i hf]
  omega

theorem entry_page : (physAddr i ||| f) &&& PAGE_MASK = physAddr i := by
  have hmask : PAGE_MASK = 2 ^ 12 * (2 ^ 52 - 1) := by decide
  rw [entry_eq i hf, physAddr_mul, hmask]
  exact and_high_bits hf (lt_of_lt_of_le (physAddr_lt i) (by decide))

theorem entry_address : (physAddr i ||| f) &&& ADDRESS_MASK = physAddr i := by
  have hmask : ADDRESS_MASK = 2 ^ 12 * (2 ^ 36 - 1) := by decide
  rw [entry_eq i hf, physAddr_mul, hmask]
  exact and_high_bits hf (lt_of_lt_of_le (physAddr_lt i) (by decide))

theorem entry_type (h3 : f % 4 = 3) : (physAddr i ||| f) % 4 = 3 := by
  rw [entry_eq i hf]
  omega

end Entry

/-! ## Tables -/

theorem tableIndex_lt (va shift : Nat) : tableIndex va shift < 512 := by
  unfold tableIndex
  rw [show PTRS_PER_TABLE = 2 ^ 9 from rfl, Nat.and_two_pow_sub_one_eq_mod]
  exact Nat.mod_lt _ (by decide)

theorem tableIndex_eq (va shift : Nat) : tableIndex va shift = va / 2 ^ shift % 512 := by
  unfold tableIndex
  rw [show PTRS_PER_TABLE = 2 ^ 9 from rfl, Nat.and_two_pow_sub_one_eq_mod, Nat.shiftRight_eq_div_pow]

namespace Mm

/-- `table[x]`, for a table in page `i`. -/
def entry (mm : Mm) (i : Fin PAGING_PAGES) (x : Nat) : Nat := mm.mem.word (pageAddr i + 8 * x)

/-- Entry `x` of the table in page `i` written. -/
def setEntry (mm : Mm) (i : Fin PAGING_PAGES) (x v : Nat) : Mm := { mm with mem := mm.mem.setWord (pageAddr i + 8 * x) v }

/-- The byte of page `i` at an offset. -/
def byte (mm : Mm) (i : Fin PAGING_PAGES) (o : Nat) : UInt8 := mm.mem (pageAddr i + o)

variable {mm mm' : Mm} {i j : Fin PAGING_PAGES} {x y o v : Nat}

theorem entry_congr (h : ∀ o < 4096, mm'.byte i o = mm.byte i o) (hx : x < 512) : mm'.entry i x = mm.entry i x := by
  refine Mem.word_congr fun k hk => ?_
  have := h (8 * x + k) (by omega)
  simpa only [byte, Nat.add_assoc] using this

theorem entry_zero (h : ∀ o < 4096, mm.byte i o = 0) (hx : x < 512) : mm.entry i x = 0 := by
  refine Mem.word_zero fun k hk => ?_
  have := h (8 * x + k) (by omega)
  simpa only [byte, Nat.add_assoc] using this

theorem byte_take (ho : o < 4096) : (mm.take j).byte i o = if i = j then 0 else mm.byte i o := by
  have hsize : PAGE_SIZE = 4096 := rfl
  by_cases hij : i = j
  · subst hij
    rw [if_pos rfl]
    exact if_pos (by omega)
  · have hne : i.val ≠ j.val := fun h => hij (Fin.ext h)
    rw [if_neg hij]
    exact if_neg (by rw [pageAddr_eq, pageAddr_eq]; omega)

theorem entry_take (hx : x < 512) : (mm.take j).entry i x = if i = j then 0 else mm.entry i x := by
  by_cases hij : i = j
  · rw [if_pos hij]
    exact entry_zero (fun o ho => by rw [byte_take ho, if_pos hij]) hx
  · rw [if_neg hij]
    exact entry_congr (fun o ho => by rw [byte_take ho, if_neg hij]) hx

theorem byte_setEntry (hij : i ≠ j) (ho : o < 4096) (hx : x < 512) : (mm.setEntry j x v).byte i o = mm.byte i o := by
  have hne : i.val ≠ j.val := fun h => hij (Fin.ext h)
  refine Mem.setWord_outside ?_
  simp only [pageAddr_eq]
  omega

theorem entry_setEntry (hv : v < 2 ^ 64) (hx : x < 512) (hy : y < 512) :
    (mm.setEntry j x v).entry i y = if i = j ∧ y = x then v else mm.entry i y := by
  by_cases hij : i = j
  · subst hij
    by_cases hyx : y = x
    · subst hyx
      rw [if_pos ⟨rfl, rfl⟩]
      exact Mem.word_setWord hv
    · rw [if_neg fun h => hyx h.2]
      exact Mem.word_setWord_of_disjoint (by omega)
  · rw [if_neg fun h => hij h.1]
    exact entry_congr (fun o ho => byte_setEntry hij ho hx) hy

theorem readEntry_eq (mm : Mm) (i : Fin PAGING_PAGES) (x : Nat) : readEntry mm (pageAddr i) x = mm.entry i x := rfl

theorem writeEntry_eq (mm : Mm) (i : Fin PAGING_PAGES) (x v : Nat) : writeEntry mm (pageAddr i) x v = mm.setEntry i x v := rfl

end Mm

/-! ## Pages stay taken -/

section Le
variable {mm mm' : Mm}

theorem get_free_page_le {a : Nat} (h : get_free_page mm = (a, mm')) : mm.Le mm' := by
  rcases get_free_page_cases mm with ⟨i, -, hget⟩ | ⟨-, hget⟩ <;> rw [h] at hget <;> obtain ⟨-, rfl⟩ := Prod.mk.inj hget
  · exact Mm.le_take mm i
  · exact Mm.Le.refl _

theorem writeEntry_le (mm : Mm) (table index entry : Nat) : mm.Le (writeEntry mm table index entry) := fun _ hi => hi

theorem map_table_le (table shift va : Nat) (mm : Mm) : mm.Le (map_table table shift va mm).2 := by
  unfold map_table
  simp only
  split
  · generalize hget : get_free_page mm = x
    obtain ⟨next, mm₁⟩ := x
    exact (get_free_page_le hget).trans (writeEntry_le mm₁ table _ _)
  · exact Mm.Le.refl _

theorem mapRoot_le (t : MmStruct) (mm : Mm) : mm.Le (mapRoot t mm).2 := by
  unfold mapRoot
  split
  · exact get_free_page_le rfl
  · exact Mm.Le.refl _

theorem map_page_le {t t' : MmStruct} {va page : Nat} (h : map_page t va page mm = .ok (t', mm')) : mm.Le mm' := by
  rw [map_page_eq rfl rfl rfl] at h
  obtain ⟨t₁, -, h⟩ := bind_ok h
  cases h
  have h₁ := map_table_le (kernelAddr (mapRoot t mm).1.pgd) PGD_SHIFT va (mapRoot t mm).2
  generalize map_table (kernelAddr (mapRoot t mm).1.pgd) PGD_SHIFT va (mapRoot t mm).2 = r₁ at h₁ ⊢
  have h₂ := map_table_le (kernelAddr r₁.1.1) PUD_SHIFT va r₁.2
  generalize map_table (kernelAddr r₁.1.1) PUD_SHIFT va r₁.2 = r₂ at h₂ ⊢
  have h₃ := map_table_le (kernelAddr r₂.1.1) PMD_SHIFT va r₂.2
  exact (mapRoot_le t mm).trans (h₁.trans (h₂.trans (h₃.trans (writeEntry_le _ _ _ _))))

theorem allocate_user_page_le {t t' : MmStruct} {va a : Nat} (h : allocate_user_page t va mm = .ok (a, t', mm')) : mm.Le mm' := by
  unfold allocate_user_page at h
  generalize hget : get_free_page mm = x at h
  obtain ⟨page, mm₁⟩ := x
  simp only at h
  split at h
  · cases h
    exact get_free_page_le hget
  · obtain ⟨⟨t₁, mm₂⟩, hmap, h⟩ := bind_ok h
    cases h
    exact (get_free_page_le hget).trans (map_page_le hmap)

theorem copyLoop_le {src dst dst' : MmStruct} {n i : Nat} {r : Int} (h : copyLoop src n i dst mm = .ok (r, dst', mm')) :
    mm.Le mm' := by
  induction n generalizing i dst mm with
  | zero => cases h
  | succ n ih =>
    unfold copyLoop at h
    split at h
    · split at h
      · obtain ⟨⟨a, dst₁, mm₁⟩, halloc, h⟩ := bind_ok h
        simp only at h
        split at h
        · cases h
          exact allocate_user_page_le halloc
        · obtain ⟨mem, -, h⟩ := bind_ok h
          have hle : Mm.Le { mm₁ with mem := mem } mm' := ih h
          exact (allocate_user_page_le halloc).trans hle
      · cases h
    · cases h
      exact Mm.Le.refl _

end Le

end ClbFilesystem
