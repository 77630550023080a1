import Mathlib.Algebra.Order.Ring.Nat
/-!
# Translation tables

The walk that the MMU makes through up to four levels of tables: pages of 4 KB,
virtual addresses of 48 bits. A descriptor leads to the next table, or it ends the
walk: with a page at the last level, with a block at the two levels above. The
tables are words of a memory; any other descriptor is a fault.
-/

namespace Lib.Walk

/-- Where the walk ends, and the low bits of the descriptor there: its kind, the type of memory and the permissions. -/
structure Output where
  pa : Nat
  attributes : Nat
  deriving DecidableEq, Repr

/-- The bit of a virtual address where the index of a level begins, level 0 being that of pages. -/
def levelShift (n : Nat) : Nat := 12 + 9 * n

/-- The index of a level. -/
def levelIndex (va n : Nat) : Nat := va / 2 ^ levelShift n % 512

/-- The output address of a descriptor: the bits from that of its level up to bit 47. -/
def address (e n : Nat) : Nat := e % 2 ^ 48 / 2 ^ levelShift n * 2 ^ levelShift n

/-- What a descriptor that ends the walk says of `va`. -/
def leaf (e va n : Nat) : Output := ⟨address e n + va % 2 ^ levelShift n, e % 2 ^ 12⟩

/-- The walk for `va` from a table, with `n` levels below. -/
def tableWalk (word : Nat → Nat) (va : Nat) : Nat → Nat → Option Output
  | 0, table =>
    let e := word (table + 8 * levelIndex va 0)
    if e % 4 = 3 then some (leaf e va 0) else none
  | n + 1, table =>
    let e := word (table + 8 * levelIndex va (n + 1))
    if e % 4 = 3 then tableWalk word va n (address e 0)
    else if e % 4 = 1 ∧ n < 2 then some (leaf e va (n + 1))
    else none

section Rules
variable {word : Nat → Nat} {va n table next e a f : Nat}

theorem levelIndex_lt (va n : Nat) : levelIndex va n < 512 := Nat.mod_lt _ (by decide)

/-- The descriptor of a table. -/
theorem walk_table (h : word (table + 8 * levelIndex va (n + 1)) = next + 3) (hnext : next % 4096 = 0) (hlt : next < 2 ^ 48) :
    tableWalk word va (n + 1) table = tableWalk word va n next := by
  have haddress : address (next + 3) 0 = next := by
    unfold address levelShift
    rw [Nat.mod_eq_of_lt (by omega)]
    omega
  rw [tableWalk, h, if_pos (by omega), haddress]

theorem walk_block (h : word (table + 8 * levelIndex va (n + 1)) = e) (hkind : e % 4 = 1) (hn : n < 2) :
    tableWalk word va (n + 1) table = some (leaf e va (n + 1)) := by
  rw [tableWalk, h, if_neg (by omega), if_pos ⟨hkind, hn⟩]

theorem walk_page (h : word (table + 8 * levelIndex va 0) = e) (hkind : e % 4 = 3) : tableWalk word va 0 table = some (leaf e va 0) := by
  rw [tableWalk, h, if_pos hkind]

theorem walk_page_fault (h : word (table + 8 * levelIndex va 0) = 0) : tableWalk word va 0 table = none := by
  rw [tableWalk, h]
  rfl

theorem walk_fault (h : word (table + 8 * levelIndex va (n + 1)) = 0) : tableWalk word va (n + 1) table = none := by
  rw [tableWalk, h]
  rfl

/-- A descriptor is an address, and flags in the bits below 12. -/
theorem leaf_eq (ha : a * 2 ^ levelShift n + f < 2 ^ 48) (hf : f < 2 ^ 12) :
    leaf (a * 2 ^ levelShift n + f) va n = ⟨a * 2 ^ levelShift n + va % 2 ^ levelShift n, f⟩ := by
  have hpow : (2 : Nat) ^ levelShift n = 2 ^ 12 * 2 ^ (9 * n) := by rw [levelShift, Nat.pow_add]
  have hpos : 0 < 2 ^ (9 * n) := Nat.two_pow_pos _
  have hlt : f < 2 ^ levelShift n := by
    rw [hpow]
    exact hf.trans_le (Nat.le_mul_of_pos_right _ hpos)
  have hdiv : (a * 2 ^ levelShift n + f) / 2 ^ levelShift n = a := by
    rw [Nat.mul_comm, Nat.mul_add_div (Nat.two_pow_pos _), Nat.div_eq_of_lt hlt, Nat.add_zero]
  have hmod : (a * 2 ^ levelShift n + f) % 2 ^ 12 = f := by
    rw [hpow, Nat.mul_left_comm, Nat.mul_add_mod, Nat.mod_eq_of_lt hf]
  unfold leaf address
  rw [Nat.mod_eq_of_lt ha, hdiv, hmod]

end Rules

/-! ## Sections -/

/-- Three tables, with one entry in each of the two upper ones: the first gigabyte in sections of 2 MB, those for
which `flags` has any. -/
structure Sections (word : Nat → Nat) (pgd pud pmd : Nat) (flags : Nat → Option Nat) : Prop where
  pud_page : pud % 4096 = 0
  pud_lt : pud < 2 ^ 48
  pmd_page : pmd % 4096 = 0
  pmd_lt : pmd < 2 ^ 48
  upper : ∀ i < 512, word (pgd + 8 * i) = if i = 0 then pud + 3 else 0
  middle : ∀ i < 512, word (pud + 8 * i) = if i = 0 then pmd + 3 else 0
  lower : ∀ i < 512, word (pmd + 8 * i) = match flags i with
    | some f => i * 2 ^ 21 + f
    | none => 0
  block : ∀ i f, flags i = some f → f % 4 = 1 ∧ f < 2 ^ 12

theorem Sections.congr {word word' : Nat → Nat} {pgd pud pmd : Nat} {flags : Nat → Option Nat} (h : Sections word pgd pud pmd flags)
    (hword : ∀ table ∈ [pgd, pud, pmd], ∀ i < 512, word' (table + 8 * i) = word (table + 8 * i)) :
    Sections word' pgd pud pmd flags := by
  obtain ⟨hpud, hpud', hpmd, hpmd', hupper, hmiddle, hlower, hblock⟩ := h
  refine ⟨hpud, hpud', hpmd, hpmd', fun i hi => ?_, fun i hi => ?_, fun i hi => ?_, hblock⟩
  · rw [hword _ (by simp) i hi]
    exact hupper i hi
  · rw [hword _ (by simp) i hi]
    exact hmiddle i hi
  · rw [hword _ (by simp) i hi]
    exact hlower i hi

/-- The sections are mapped to the same place, and nothing else is. -/
theorem Sections.tableWalk {word : Nat → Nat} {pgd pud pmd : Nat} {flags : Nat → Option Nat} (h : Sections word pgd pud pmd flags)
    (va : Nat) : tableWalk word va 3 pgd = if va % 2 ^ 48 < 2 ^ 30
      then (flags (va % 2 ^ 48 / 2 ^ 21)).map fun f => ⟨va % 2 ^ 48, f⟩ else none := by
  have hupper := h.upper _ (levelIndex_lt va 3)
  have hmiddle := h.middle _ (levelIndex_lt va 2)
  have hlower := h.lower _ (levelIndex_lt va 1)
  have h3 : levelIndex va 3 = va / 2 ^ 39 % 512 := rfl
  have h2 : levelIndex va 2 = va / 2 ^ 30 % 512 := rfl
  have h1 : levelIndex va 1 = va / 2 ^ 21 % 512 := rfl
  by_cases hva : va % 2 ^ 48 < 2 ^ 30
  · have hi : va % 2 ^ 48 / 2 ^ 21 = levelIndex va 1 := by omega
    rw [if_pos hva, hi]
    rw [if_pos (by omega)] at hupper hmiddle
    rw [walk_table hupper h.pud_page h.pud_lt, walk_table hmiddle h.pmd_page h.pmd_lt]
    cases hf : flags (levelIndex va 1) with
    | none =>
      rw [hf] at hlower
      exact walk_fault hlower
    | some f =>
      rw [hf] at hlower
      simp only at hlower
      obtain ⟨hkind, hlt⟩ := h.block _ f hf
      have hpow : (2 : Nat) ^ 21 = 2 ^ levelShift 1 := rfl
      have hidx := levelIndex_lt va 1
      rw [walk_block hlower (by omega) (by decide), hpow, leaf_eq (by rw [← hpow]; omega) hlt, ← hpow]
      have hpa : levelIndex va 1 * 2 ^ 21 + va % 2 ^ 21 = va % 2 ^ 48 := by omega
      rw [hpa]
      rfl
  · rw [if_neg hva]
    by_cases hi : levelIndex va 3 = 0
    · rw [if_pos hi] at hupper
      rw [if_neg (by omega)] at hmiddle
      rw [walk_table hupper h.pud_page h.pud_lt, walk_fault hmiddle]
    · rw [if_neg hi] at hupper
      exact walk_fault hupper

end Lib.Walk
