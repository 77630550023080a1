import ClbFilesystem.Iteration
import ClbFilesystem.Printf
import ClbFilesystem.Lib.Numerals
/-!
# What the conversions print

A format is a list of pieces: characters that stand for themselves, and
conversions with a width. For every such format and all arguments `tfp_printf`
sends what the pieces say, one after the other. A conversion reads 32 bits of its
argument, and its digits fit the 12 bytes of `bf`.
-/

namespace ClbFilesystem

open Lib

/-! ## Numbers -/

section Numbers
variable {num base d k n : Nat} {uc : Bool}

/-- The scale is the power of the base that belongs to the first digit. -/
theorem scale_eq (hb : 2 ≤ base) (j : Nat) (hlow : j = 0 ∨ base ^ j ≤ num) :
    ∃ k, ui2a.scale num base (base ^ j) = base ^ k ∧ (k = 0 ∨ base ^ k ≤ num) ∧ num < base ^ (k + 1) := by
  have hpos : ∀ i, 0 < base ^ i := fun i => Nat.pow_pos (by omega)
  generalize hd : base ^ j = d
  induction d using ui2a.scale.induct num base generalizing j with
  | case1 d h ih =>
    obtain ⟨-, -, hle⟩ := h
    have hpow : d * base = base ^ (j + 1) := by rw [← hd, Nat.pow_succ]
    have hle' : base ^ (j + 1) ≤ num := by
      rw [← hpow, Nat.mul_comm]
      exact (Nat.le_div_iff_mul_le (hd ▸ hpos j)).1 hle
    rw [ui2a.scale, if_pos ⟨hb, hd ▸ hpos j, hle⟩]
    exact ih (j + 1) (.inr hle') hpow.symm
  | case2 d h =>
    rw [ui2a.scale, if_neg h]
    refine ⟨j, hd.symm, hlow, ?_⟩
    have hlt : num / d < base := by
      by_contra hge
      exact h ⟨hb, hd ▸ hpos j, Nat.not_lt.1 hge⟩
    rw [Nat.pow_succ, hd]
    rw [Nat.mul_comm]
    exact (Nat.div_lt_iff_lt_mul (hd ▸ hpos j)).1 hlt

/-- From a digit that is not suppressed on, all are written. -/
theorem digits_eq (hb : 2 ≤ base) (hwritten : n ≠ 0 ∨ k = 0 ∨ base ^ k ≤ num) :
    ui2a.digits base uc num (base ^ k) n = (fromTop base k num).map (ui2a.digit uc) := by
  have hpos : ∀ i, 0 < base ^ i := fun i => Nat.pow_pos (by omega)
  induction k generalizing num n with
  | zero =>
    have hlast : 1 / base = 0 := Nat.div_eq_of_lt (by omega)
    rw [ui2a.digits, Nat.pow_zero, if_pos ⟨hb, Nat.one_ne_zero⟩]
    simp only
    rw [if_pos (.inr (.inr hlast)), hlast, Nat.div_one, ui2a.digits, if_neg (by simp)]
    rfl
  | succ k ih =>
    have hdiv : base ^ (k + 1) / base = base ^ k := by
      rw [Nat.pow_succ]
      exact Nat.mul_div_cancel _ (by omega)
    have hout : n ≠ 0 ∨ 0 < num / base ^ (k + 1) ∨ base ^ (k + 1) / base = 0 := by
      rcases hwritten with hn | hk | hle
      · exact .inl hn
      · cases hk
      · exact .inr (.inl (Nat.div_pos hle (hpos _)))
    rw [ui2a.digits, if_pos ⟨hb, (hpos _).ne'⟩]
    simp only
    rw [if_pos hout, hdiv, ih (.inl (Nat.succ_ne_zero n))]
    rfl

/-- `ui2a` writes the numeral. -/
theorem ui2a_eq (hb : 2 ≤ base) (num : Nat) (uc : Bool) : ui2a num base uc = (numeral base num).map (ui2a.digit uc) := by
  obtain ⟨k, hscale, hlow, hlt⟩ := @scale_eq num base hb 0 (.inl rfl)
  rw [Nat.pow_zero] at hscale
  unfold ui2a
  rw [hscale, digits_eq hb (.inr hlow), fromTop_eq hb hlow hlt]

/-- The decimal or hexadecimal number of an `int`, with its sign. -/
def signed (n : Int) : List UInt8 :=
  if n < 0 then 45 :: (numeral 10 n.natAbs).map (ui2a.digit false) else (numeral 10 n.natAbs).map (ui2a.digit false)

/-- Of `INT_MIN` too, whose negative is no `int`. -/
theorem i2a_eq {n : Int} (hlow : -2 ^ 31 ≤ n) (hlt : n < 2 ^ 31) : i2a n = signed n := by
  unfold i2a signed toUnsigned
  split
  · have habs : (-n % 2 ^ 32).toNat = n.natAbs := by omega
    rw [habs, ui2a_eq (by decide)]
  · have habs : (n % 2 ^ 32).toNat = n.natAbs := by omega
    rw [habs, ui2a_eq (by decide)]

end Numbers

theorem toUnsigned_natCast (arg : Nat) : toUnsigned arg = arg % 2 ^ 32 := by
  unfold toUnsigned
  omega

theorem toInt_bounds (arg : Int) : -2 ^ 31 ≤ toInt arg ∧ toInt arg < 2 ^ 31 := by
  unfold toInt
  omega

theorem signed_length_le {n : Int} (hlow : -2 ^ 31 ≤ n) (hlt : n < 2 ^ 31) : (signed n).length ≤ 11 := by
  have hten : (numeral 10 n.natAbs).length ≤ 10 := by
    apply numeral_length_le (by decide) (by decide)
    omega
  unfold signed
  split
  · rw [List.length_cons, List.length_map]
    omega
  · rw [List.length_map]
    omega

/-- What `bf` holds of a conversion, with the NUL, takes its 12 bytes at most. -/
theorem conversions_fit (arg : Nat) (uc : Bool) :
    (∀ base, base = 10 ∨ base = 16 → ui2a (toUnsigned arg) base uc = (numeral base (arg % 2 ^ 32)).map (ui2a.digit uc) ∧
      (ui2a (toUnsigned arg) base uc).length + 1 ≤ 12) ∧
    i2a (toInt arg) = signed (toInt arg) ∧ (i2a (toInt arg)).length + 1 ≤ 12 := by
  obtain ⟨hlow, hlt⟩ := toInt_bounds arg
  refine ⟨fun base hbase => ?_, i2a_eq hlow hlt, ?_⟩
  · have hb : 2 ≤ base := by omega
    have hten : (numeral base (arg % 2 ^ 32)).length ≤ 10 := by
      apply numeral_length_le (by omega) (by decide)
      have hpow : 10 ^ 10 ≤ base ^ 10 := Nat.pow_le_pow_left (by omega) 10
      omega
    rw [toUnsigned_natCast, ui2a_eq hb, List.length_map]
    exact ⟨rfl, by omega⟩
  · rw [i2a_eq hlow hlt]
    exact Nat.succ_le_succ (signed_length_le hlow hlt)

/-! ## Formats -/

inductive Conversion where
  | u | d | x (uc : Bool) | c | s | percent
  deriving DecidableEq, Repr

def Conversion.char : Conversion → UInt8
  | u => 117
  | d => 100
  | x uc => if uc then 88 else 120
  | c => 99
  | s => 115
  | percent => 37

/-- A character that stands for itself, or a conversion with its flag and its width, 0 for none. -/
inductive Piece where
  | plain (ch : UInt8) (nul : ch ≠ 0) (other : ch ≠ percent)
  | conv (lz : Bool) (w : Nat) (short : w < 2 ^ 31) (k : Conversion)

/-- The width as it stands in a format. -/
def widthText (w : Nat) : List UInt8 := if w = 0 then [] else (numeral 10 w).map (ui2a.digit false)

def Piece.text : Piece → List UInt8
  | plain ch _ _ => [ch]
  | conv lz w _ k => percent :: ((if lz then [48] else []) ++ (widthText w ++ [k.char]))

/-- To the left of a string there are blanks, or zeros, up to the width. -/
def padded (w : Nat) (z : Bool) (l : List UInt8) : List UInt8 := l.leftpad w (if z then 48 else 32)

/-- What a piece prints of the argument `arg`, and how many arguments it takes. -/
inductive Piece.Shows (m : Mem) (arg : Nat) : Piece → List UInt8 → Nat → Prop
  | plain {ch nul other} : Shows m arg (.plain ch nul other) [ch] 0
  | u {lz w short} : Shows m arg (.conv lz w short .u) (padded w lz ((numeral 10 (arg % 2 ^ 32)).map (ui2a.digit false))) 1
  | d {lz w short} : Shows m arg (.conv lz w short .d) (padded w lz (signed (toInt arg))) 1
  | x {lz w short uc} : Shows m arg (.conv lz w short (.x uc)) (padded w lz ((numeral 16 (arg % 2 ^ 32)).map (ui2a.digit uc))) 1
  | c {lz w short} : Shows m arg (.conv lz w short .c) [UInt8.ofNat arg] 1
  | s {lz w short} {l : CStr} : m.HoldsString arg l.chars → arg + l.chars.length < 2 ^ 64 →
    Shows m arg (.conv lz w short .s) (padded w false l.chars) 1
  | percent {lz w short} : Shows m arg (.conv lz w short .percent) [ClbFilesystem.percent] 0

/-- What a format prints from argument `args` on, and the first argument it leaves. -/
inductive Prints (m : Mem) (va : Nat → Nat) : List Piece → Nat → List UInt8 → Nat → Prop
  | nil {args} : Prints m va [] args [] args
  | cons {p fmt args text taken out last} : p.Shows m (va args) text taken → Prints m va fmt (args + taken) out last →
    Prints m va (p :: fmt) args (text ++ out) last

/-! ## A conversion is read -/

theorem digit_spec : ∀ d < 10, 48 ≤ ui2a.digit false d ∧ ui2a.digit false d ≤ 57 ∧ a2d (ui2a.digit false d) = d ∧
    (d ≠ 0 → ui2a.digit false d ≠ 48) := by decide

theorem char_spec (k : Conversion) : k.char ≠ 0 ∧ ¬ (48 ≤ k.char ∧ k.char ≤ 57) ∧ k.char ≠ 48 ∧
    ¬ (0 ≤ a2d k.char ∧ a2d k.char ≤ 10) := by
  cases k with
  | x uc => cases uc <;> decide
  | _ => decide

theorem le_foldl (ds : List Nat) (num : Nat) : num ≤ ds.foldl (fun a d => a * 10 + d) num := by
  induction ds generalizing num with
  | nil => exact le_rfl
  | cons d ds ih => exact (by omega : num ≤ num * 10 + d).trans (ih _)

/-- `a2i` reads a numeral, up to the conversion behind it. -/
theorem a2i_eq (k : Conversion) (rest : List UInt8) {ds : List Nat} (hds : ∀ d ∈ ds, d < 10) {num : Nat}
    (hlt : ds.foldl (fun a d => a * 10 + d) num < 2 ^ 31) {ch : UInt8} {p : List UInt8}
    (hp : ds.map (ui2a.digit false) ++ k.char :: rest = ch :: p) :
    a2i 10 ch p num = .ok (k.char, rest, (ds.foldl (fun a d => a * 10 + d) num : Nat)) := by
  induction ds generalizing num ch p with
  | nil =>
    cases hp
    unfold a2i
    rw [if_neg (char_spec k).2.2.2]
    rfl
  | cons d ds ih =>
    cases hp
    obtain ⟨c, q, hq⟩ : ∃ c q, ds.map (ui2a.digit false) ++ k.char :: rest = c :: q := by
      cases ds with
      | nil => exact ⟨_, _, rfl⟩
      | cons e ds => exact ⟨_, _, rfl⟩
    have hd := hds d (by simp)
    have hvalue := (digit_spec d hd).2.2.1
    have hle := le_foldl ds (num * 10 + d)
    rw [List.foldl_cons] at hlt
    -- No digit takes the width out of an `int`.
    have hshort : toInt (num * 10 + a2d (ui2a.digit false d)) = ((num * 10 + d : Nat) : Int) := by
      rw [hvalue]
      unfold toInt
      omega
    have hih := ih (fun e he => hds e (by simp [he])) hlt hq
    unfold a2i
    rw [if_pos (by rw [hvalue]; omega)]
    simp only [List.append_eq, hq]
    rw [hshort, hih]
    rfl

theorem width_eq {w : Nat} (hw : w < 2 ^ 31) (k : Conversion) (rest : List UInt8) {ch : UInt8} {p : List UInt8}
    (hp : widthText w ++ k.char :: rest = ch :: p) : width ch p = .ok (k.char, rest, (w : Int)) := by
  unfold widthText at hp
  split at hp
  · next h =>
    cases hp
    unfold width
    rw [if_neg (char_spec k).2.1, h]
    rfl
  · next h =>
    obtain ⟨d, l, hcons, -⟩ := numeral_head (b := 10) h
    have hlt : ∀ e ∈ numeral 10 w, e < 10 := numeral_lt (by decide)
    have hint : (numeral 10 w).foldl (fun a d => a * 10 + d) 0 < 2 ^ 31 := by
      rw [foldl_numeral]
      exact hw
    have hread := a2i_eq k rest hlt hint hp
    rw [foldl_numeral] at hread
    have hch : 48 ≤ ch ∧ ch ≤ 57 := by
      have hd := digit_spec d (hlt d (by rw [hcons]; simp))
      rw [hcons] at hp
      cases hp
      exact ⟨hd.1, hd.2.1⟩
    unfold width
    rw [if_pos hch]
    exact hread

/-- A width does not begin with the flag. -/
theorem widthText_head (w : Nat) (k : Conversion) (rest : List UInt8) :
    ∃ ch p, widthText w ++ k.char :: rest = ch :: p ∧ ch ≠ 48 := by
  unfold widthText
  split
  · exact ⟨_, _, rfl, (char_spec k).2.2.1⟩
  · next h =>
    obtain ⟨d, l, hcons, hd⟩ := numeral_head (b := 10) h
    have hlt : d < 10 := numeral_lt (n := w) (by decide) d (by rw [hcons]; simp)
    rw [hcons]
    exact ⟨_, _, rfl, (digit_spec d hlt).2.2.2 hd⟩

theorem conversion_eq (lz : Bool) {w : Nat} (hw : w < 2 ^ 31) (k : Conversion) (rest : List UInt8) :
    conversion ((if lz then [48] else []) ++ (widthText w ++ k.char :: rest)) = .ok (lz, k.char, rest, (w : Int)) := by
  obtain ⟨ch, p, hp, hch⟩ := widthText_head w k rest
  have hwidth := width_eq hw k rest hp
  rw [hp]
  cases lz with
  | false =>
    have hzero : leadingZero ch p = .ok (false, ch, p) := if_neg hch
    show (leadingZero ch p).bind _ = _
    rw [hzero, ok_bind]
    show (width ch p).bind _ = _
    rw [hwidth]
    rfl
  | true =>
    show (width ch p).bind _ = _
    rw [hwidth]
    rfl

/-! ## A conversion is printed -/

theorem room_toNat (bf : List UInt8) (n : Int) : (putchw.room bf n).toNat = n.toNat - bf.length := by
  induction bf generalizing n with
  | nil => rfl
  | cons c bf ih =>
    unfold putchw.room
    split
    · rw [ih, List.length_cons]
      omega
    · rw [List.length_cons]
      omega

theorem putchw_eq (w : Nat) (z : Bool) (bf : List UInt8) : putchw w z bf = padded w z bf := by
  unfold putchw padded List.leftpad
  rw [room_toNat]
  rfl

theorem stringAt_eq {m : Mem} {a n : Nat} {l : List UInt8} (h : m.HoldsString a l) (hnul : 0 ∉ l) (hlt : a + l.length < 2 ^ 64)
    (hn : l.length < n) : stringAt m n a = .ok l := by
  induction l generalizing a n with
  | nil =>
    cases n with
    | zero => cases hn
    | succ n => exact if_pos h
  | cons c l ih =>
    obtain ⟨hbyte, hrest⟩ := h
    rw [List.mem_cons, not_or] at hnul
    rw [List.length_cons] at hlt
    cases n with
    | zero => cases hn
    | succ n =>
      have hnext : toUlong (a + 1) = a + 1 := by
        unfold toUlong
        omega
      have hih : stringAt m n (a + 1) = .ok l := ih hrest hnul.2 (by omega) (Nat.lt_of_succ_lt_succ hn)
      unfold stringAt
      rw [if_neg (by rw [hbyte]; exact Ne.symm hnul.1), hnext, hih, hbyte]
      rfl

theorem convert_eq {m : Mem} {arg taken : Nat} {lz : Bool} {w : Nat} {short : w < 2 ^ 31} {k : Conversion} {text : List UInt8}
    (h : (Piece.conv lz w short k).Shows m arg text taken) : convert m arg lz w k.char = .ok (text, taken) := by
  have hunsigned := toUnsigned_natCast arg
  obtain ⟨hlow, hlt⟩ := toInt_bounds arg
  cases h with
  | u =>
    show Except.ok (putchw w lz (ui2a (toUnsigned arg) 10 false), 1) = _
    rw [putchw_eq, hunsigned, ui2a_eq (by decide)]
  | d =>
    show Except.ok (putchw w lz (i2a (toInt arg)), 1) = _
    rw [putchw_eq, i2a_eq hlow hlt]
  | @x _ _ _ uc =>
    cases uc with
    | false =>
      show Except.ok (putchw w lz (ui2a (toUnsigned arg) 16 false), 1) = _
      rw [putchw_eq, hunsigned, ui2a_eq (by decide)]
    | true =>
      show Except.ok (putchw w lz (ui2a (toUnsigned arg) 16 true), 1) = _
      rw [putchw_eq, hunsigned, ui2a_eq (by decide)]
  | c => rfl
  | @s _ _ _ l hstring hlt =>
    show (stringAt m (2 ^ 64) arg).map _ = _
    rw [stringAt_eq hstring l.no_nul hlt (by omega)]
    show Except.ok (putchw w false l.chars, 1) = _
    rw [putchw_eq]
  | percent => rfl

/-! ## A format is printed -/

def textOf (fmt : List Piece) : List UInt8 := fmt.flatMap Piece.text

theorem tfp_format_percent (m : Mem) (va : Nat → Nat) (n : Nat) (fmt : List UInt8) (args : Nat) :
    tfp_format m va (n + 1) (percent :: fmt) args = (conversion fmt).bind fun x =>
      if x.2.1 = 0 then .ok ([], args)
      else (convert m (va args) x.1 x.2.2.2 x.2.1).bind fun y =>
        (tfp_format m va n x.2.2.1 (args + y.2)).map fun z => (y.1 ++ z.1, z.2) := by
  have hunfold : tfp_format m va (n + 1) (percent :: fmt) args = if percent = 0 then .ok ([], args)
      else if percent ≠ percent then (tfp_format m va n fmt args).map fun x => (percent :: x.1, x.2)
      else (conversion fmt).bind fun x =>
        if x.2.1 = 0 then .ok ([], args)
        else (convert m (va args) x.1 x.2.2.2 x.2.1).bind fun y =>
          (tfp_format m va n x.2.2.1 (args + y.2)).map fun z => (y.1 ++ z.1, z.2) := rfl
  rw [hunfold, if_neg (by decide), if_neg (not_not.2 rfl)]

theorem tfp_format_prints {m : Mem} {va : Nat → Nat} {fmt : List Piece} {args last : Nat} {out : List UInt8}
    (h : Prints m va fmt args out last) {n : Nat} (hn : fmt.length < n) :
    tfp_format m va n (textOf fmt ++ [0]) args = .ok (out, last) := by
  induction h generalizing n with
  | nil =>
    cases n with
    | zero => cases hn
    | succ n => rfl
  | @cons p fmt args text taken out last hshow hrest ih =>
    cases n with
    | zero => cases hn
    | succ n =>
      have hih := ih (Nat.lt_of_succ_lt_succ hn)
      cases p with
      | plain ch nul other =>
        cases hshow
        rw [Nat.add_zero] at hih
        have heq : tfp_format m va (n + 1) (ch :: (textOf fmt ++ [0])) args = (tfp_format m va n (textOf fmt ++ [0]) args).map _ :=
          (if_neg nul).trans (if_pos other)
        apply heq.trans
        rw [hih]
        rfl
      | conv lz w short k =>
        have htext : textOf (.conv lz w short k :: fmt) ++ [0] =
            percent :: ((if lz then [48] else []) ++ (widthText w ++ k.char :: (textOf fmt ++ [0]))) := by
          simp [textOf, Piece.text]
        rw [htext, tfp_format_percent, conversion_eq lz short k, ok_bind]
        simp only
        rw [if_neg (char_spec k).1, convert_eq hshow, ok_bind, hih]
        rfl

theorem textOf_no_nul (fmt : List Piece) : 0 ∉ textOf fmt := by
  intro h
  obtain ⟨p, -, hp⟩ := List.mem_flatMap.1 h
  cases p with
  | plain ch nul other => exact nul (List.mem_singleton.1 hp).symm
  | conv lz w short k =>
    have hwidth : 0 ∉ widthText w := by
      unfold widthText
      split
      · simp
      · intro hmem
        obtain ⟨d, hd, hzero⟩ := List.mem_map.1 hmem
        have hspec := digit_spec d (numeral_lt (by decide) d hd)
        rw [hzero] at hspec
        exact absurd hspec.1 (by decide)
    simp only [Piece.text, List.mem_cons, List.mem_append, List.not_mem_nil, or_false] at hp
    rcases hp with hp | hp | hp | hp
    · exact absurd hp (by decide)
    · cases lz <;> simp at hp
    · exact hwidth hp
    · exact (char_spec k).1 hp.symm

/-- The format as a string. -/
def formatOf (fmt : List Piece) : CStr := ⟨textOf fmt, textOf_no_nul fmt⟩

theorem length_lt_formatOf (fmt : List Piece) : fmt.length < (formatOf fmt).bytes.length := by
  have hle : fmt.length ≤ (textOf fmt).length := by
    induction fmt with
    | nil => exact le_rfl
    | cons p fmt ih =>
      have hpos : 1 ≤ p.text.length := by cases p <;> simp [Piece.text]
      unfold textOf at ih ⊢
      rw [List.flatMap_cons, List.length_append, List.length_cons]
      omega
  show fmt.length < (textOf fmt ++ [0]).length
  rw [List.length_append, List.length_singleton]
  omega

/-- `tfp_printf` prints what the pieces of its format say, and takes the arguments they need. -/
theorem tfp_printf_prints {m : Mem} {va : Nat → Nat} {fmt : List Piece} {out : List UInt8} {last : Nat}
    (h : Prints m va fmt 0 out last) : tfp_printf m va (formatOf fmt) = .ok (out, last) :=
  tfp_format_prints h (length_lt_formatOf fmt)

/-- `"%5s=%04X%%"` of `"hi"` and of 2^32 + 255. -/
theorem tfp_printf_prints_padded :
    tfp_printf (fun a => if a = 4096 then 104 else if a = 4097 then 105 else 0) (fun | 0 => 4096 | _ => 2 ^ 32 + 255)
      (formatOf [.conv false 5 (by decide) .s, .plain 61 (by decide) (by decide), .conv true 4 (by decide) (.x true),
        .conv false 0 (by decide) .percent]) = .ok ([32, 32, 32, 104, 105, 61, 48, 48, 70, 70, 37], 2) := by
  have hnumeral : numeral 16 ((2 ^ 32 + 255) % 2 ^ 32) = [15, 15] := by norm_num [numeral]
  have hff : [48, 48, 70, 70] = padded 4 true ((numeral 16 ((2 ^ 32 + 255) % 2 ^ 32)).map (ui2a.digit true)) := by
    rw [hnumeral]
    rfl
  have hx : Piece.Shows (fun a => if a = 4096 then 104 else if a = 4097 then 105 else 0) (2 ^ 32 + 255)
      (.conv true 4 (by decide) (.x true)) [48, 48, 70, 70] 1 := by
    rw [hff]
    exact .x
  have hstring : Mem.HoldsString (fun a => if a = 4096 then 104 else if a = 4097 then 105 else 0) 4096 [104, 105] :=
    ⟨rfl, rfl, rfl⟩
  have hpieces : Prints (fun a => if a = 4096 then 104 else if a = 4097 then 105 else 0) (fun | 0 => 4096 | _ => 2 ^ 32 + 255)
      [.conv false 5 (by decide) .s, .plain 61 (by decide) (by decide), .conv true 4 (by decide) (.x true),
        .conv false 0 (by decide) .percent] 0
      ([32, 32, 32, 104, 105] ++ ([61] ++ ([48, 48, 70, 70] ++ ([percent] ++ [])))) (0 + 1 + 0 + 1 + 0) :=
    .cons (.s (l := ⟨[104, 105], by decide⟩) hstring (by decide)) (.cons .plain (.cons hx (.cons .percent .nil)))
  exact tfp_printf_prints hpieces

/-! ## What the kernel reports (`irq.c`) -/

def literal (l : List UInt8) : List Piece :=
  l.filterMap fun ch => if h : ch ≠ 0 ∧ ch ≠ percent then some (.plain ch h.1 h.2) else none

theorem prints_literal {m : Mem} {va : Nat → Nat} {l : List UInt8} (hl : ∀ ch ∈ l, ch ≠ 0 ∧ ch ≠ percent) {fmt : List Piece}
    {args last : Nat} {out : List UInt8} (h : Prints m va fmt args out last) : Prints m va (literal l ++ fmt) args (l ++ out) last := by
  induction l with
  | nil => exact h
  | cons ch l ih =>
    have hch := hl ch (by simp)
    have hcons : literal (ch :: l) = .plain ch hch.1 hch.2 :: literal l := by
      unfold literal
      rw [List.filterMap_cons, dif_pos hch]
    have hrest := ih fun c hc => hl c (by simp [hc])
    rw [hcons]
    show Prints m va (.plain ch hch.1 hch.2 :: (literal l ++ fmt)) args ([ch] ++ (l ++ out)) last
    exact .cons .plain hrest

/-- `", ESR: "` -/
def esrText : List UInt8 := [44, 32, 69, 83, 82, 58, 32]

/-- `", address: "` -/
def addressText : List UInt8 := [44, 32, 97, 100, 100, 114, 101, 115, 115, 58, 32]

/-- `"%s, ESR: %x, address: %x\r\n"` -/
def invalidEntry : List Piece :=
  .conv false 0 (by decide) .s :: (literal esrText ++ .conv false 0 (by decide) (.x false) ::
    (literal addressText ++ .conv false 0 (by decide) (.x false) :: (literal [13, 10] ++ [])))

/-- `messages` are the addresses in `entry_error_messages`. -/
def show_invalid_entry_message (m : Mem) (messages : Nat → Nat) (type esr address : Nat) : Except Fault (List UInt8 × Nat) :=
  tfp_printf m (fun | 0 => messages type | 1 => esr | _ => address) (formatOf invalidEntry)

theorem padded_zero (z : Bool) (l : List UInt8) : padded 0 z l = l := by
  simp [padded, List.leftpad]

/-- Of `esr` and of `address` the low 32 bits are reported. -/
theorem show_invalid_entry_message_prints {m : Mem} {messages : Nat → Nat} {type : Nat} {name : CStr} (esr address : Nat)
    (h : m.HoldsString (messages type) name.chars) (hlt : messages type + name.chars.length < 2 ^ 64) :
    show_invalid_entry_message m messages type esr address = .ok (name.chars ++ (esrText ++
      ((numeral 16 (esr % 2 ^ 32)).map (ui2a.digit false) ++ (addressText ++
        ((numeral 16 (address % 2 ^ 32)).map (ui2a.digit false) ++ [13, 10])))), 3) := by
  have hname := padded_zero false name.chars
  have hesr := padded_zero false ((numeral 16 (esr % 2 ^ 32)).map (ui2a.digit false))
  have haddress := padded_zero false ((numeral 16 (address % 2 ^ 32)).map (ui2a.digit false))
  apply tfp_format_prints ?_ (length_lt_formatOf invalidEntry)
  rw [← hname, ← hesr, ← haddress]
  generalize hva : (fun | 0 => messages type | 1 => esr | _ => address : Nat → Nat) = va
  have h₀ : va 0 = messages type := (congrFun hva 0).symm
  have h₁ : va 1 = esr := (congrFun hva 1).symm
  have h₂ : va 2 = address := (congrFun hva 2).symm
  rw [← h₀] at h hlt
  rw [← h₁, ← h₂]
  apply Prints.cons (.s h hlt)
  apply prints_literal (by simp [esrText, percent])
  apply Prints.cons .x
  apply prints_literal (by simp [addressText, percent])
  apply Prints.cons .x
  exact prints_literal (l := [13, 10]) (by simp [percent]) .nil

end ClbFilesystem
