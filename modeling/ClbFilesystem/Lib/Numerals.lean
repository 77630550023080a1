import Mathlib.Data.Nat.Digits.Lemmas
/-!
# Numerals

The digits of a number in the order in which they are written, and the two ways
through them: taken off from the top, with the power of the base that belongs to
the first digit, and read back from the first digit on.
-/

namespace Lib

/-- The digits of `n`, the most significant first; 0 has one digit too. -/
def numeral (b n : Nat) : List Nat := if n = 0 then [0] else (Nat.digits b n).reverse

/-- The `k + 1` digits of `n` below `b ^ (k + 1)`, divided off from the top. -/
def fromTop (b : Nat) : Nat → Nat → List Nat
  | 0, n => [n]
  | k + 1, n => n / b ^ (k + 1) :: fromTop b k (n % b ^ (k + 1))

section Numeral
variable {b k n : Nat}

theorem fromTop_length (b k n : Nat) : (fromTop b k n).length = k + 1 := by
  induction k generalizing n with
  | zero => rfl
  | succ k ih => rw [fromTop, List.length_cons, ih]

theorem fromTop_lt (hb : 1 < b) (h : n < b ^ (k + 1)) : ∀ d ∈ fromTop b k n, d < b := by
  induction k generalizing n with
  | zero =>
    intro d hd
    rw [fromTop, List.mem_singleton] at hd
    rw [hd]
    simpa using h
  | succ k ih =>
    intro d hd
    have hpos : 0 < b ^ (k + 1) := Nat.pow_pos (by omega)
    rcases List.mem_cons.1 hd with rfl | hd
    · apply Nat.div_lt_of_lt_mul
      rwa [← Nat.pow_succ]
    · exact ih (Nat.mod_lt _ hpos) d hd

theorem ofDigits_fromTop (b k n : Nat) : Nat.ofDigits b (fromTop b k n).reverse = n := by
  induction k generalizing n with
  | zero => simp [fromTop]
  | succ k ih =>
    rw [fromTop, List.reverse_cons, Nat.ofDigits_append, ih, Nat.ofDigits_singleton, List.length_reverse, fromTop_length]
    exact Nat.mod_add_div n _

/-- With the right number of digits this is the numeral. -/
theorem fromTop_eq (hb : 1 < b) (hlow : k = 0 ∨ b ^ k ≤ n) (h : n < b ^ (k + 1)) : fromTop b k n = numeral b n := by
  unfold numeral
  by_cases hn : n = 0
  · have hk : k = 0 := by
      apply hlow.resolve_right
      rw [hn]
      exact Nat.not_le.2 (Nat.pow_pos (by omega))
    rw [if_pos hn, hk, hn]
    rfl
  · rw [if_neg hn, ← List.reverse_reverse (fromTop b k n)]
    congr 1
    -- The first digit is not 0, so these are the digits of what they denote.
    have hfirst : ∃ d l, fromTop b k n = d :: l ∧ d ≠ 0 := by
      cases k with
      | zero => exact ⟨n, [], rfl, hn⟩
      | succ k =>
        refine ⟨_, _, rfl, ?_⟩
        have hle := hlow.resolve_left (Nat.succ_ne_zero k)
        exact (Nat.div_pos hle (Nat.pow_pos (by omega))).ne'
    obtain ⟨d, l, hcons, hd⟩ := hfirst
    have hdigits := Nat.digits_ofDigits b hb (fromTop b k n).reverse
      (fun e he => fromTop_lt hb h e (List.mem_reverse.1 he))
      (fun hne => by
        have hlast : (fromTop b k n).reverse.getLast hne = d := by
          simp only [hcons, List.reverse_cons, List.getLast_append_singleton]
        rw [hlast]
        exact hd)
    rw [ofDigits_fromTop] at hdigits
    exact hdigits.symm

theorem numeral_lt (hb : 1 < b) : ∀ d ∈ numeral b n, d < b := by
  unfold numeral
  split
  · simp
    omega
  · intro d hd
    exact Nat.digits_lt_base hb (List.mem_reverse.1 hd)

/-- Below `b ^ k` there are `k` digits at most. -/
theorem numeral_length_le (hb : 1 < b) (hk : 1 ≤ k) (h : n < b ^ k) : (numeral b n).length ≤ k := by
  unfold numeral
  split
  · exact hk
  · rw [List.length_reverse]
    exact (Nat.digits_length_le_iff hb n).2 h

/-- Read from the first digit on, a numeral is its number again. -/
theorem foldl_numeral (b n : Nat) : (numeral b n).foldl (fun a d => a * b + d) 0 = n := by
  unfold numeral
  split
  · next h =>
    rw [h]
    simp
  · have hfold : ∀ l : List Nat, l.reverse.foldl (fun a d => a * b + d) 0 = Nat.ofDigits b l := by
      intro l
      induction l with
      | nil => rfl
      | cons d l ih =>
        rw [List.reverse_cons, List.foldl_append, ih, Nat.ofDigits_cons, List.foldl_cons, List.foldl_nil, Nat.mul_comm]
        simp [Nat.add_comm]
    rw [hfold, Nat.ofDigits_digits]

/-- A number that is not 0 begins with another digit. -/
theorem numeral_head (hn : n ≠ 0) : ∃ d l, numeral b n = d :: l ∧ d ≠ 0 := by
  unfold numeral
  rw [if_neg hn]
  have hne : Nat.digits b n ≠ [] := Nat.digits_ne_nil_iff_ne_zero.2 hn
  have hsplit := List.dropLast_append_getLast hne
  refine ⟨(Nat.digits b n).getLast hne, (Nat.digits b n).dropLast.reverse, ?_, Nat.getLast_digit_ne_zero b hn⟩
  rw [← List.reverse_concat, hsplit]

end Numeral

end Lib
