import ClbFilesystem.Memory
import ClbFilesystem.Strings
/-!
# Printing (`printf.c`, `sys.c`)

`sys_write` hands the string of the user to `tfp_printf` as its format. What a
call does is the characters it sends to the console and the number of variadic
arguments it takes: `va` is what the argument registers and the stack hold, and a
string argument is an address in the memory `m`. `char` is unsigned on this
machine.
-/

namespace ClbFilesystem

/-- `'%'`. -/
def percent : UInt8 := 37

/-! ## Numbers -/

/-- The first loop of `ui2a`: the scale of the leading digit. The bases are 10 and 16. -/
def ui2a.scale (num base d : Nat) : Nat :=
  if 2 ≤ base ∧ 0 < d ∧ base ≤ num / d then ui2a.scale num base (d * base) else d
termination_by num - d
decreasing_by
  rename_i h
  obtain ⟨hb, hd, hle⟩ := h
  have hmul : d * 2 ≤ d * base := Nat.mul_le_mul_left d hb
  have hnum : base * d ≤ num := (Nat.le_div_iff_mul_le hd).1 hle
  rw [Nat.mul_comm] at hnum
  omega

/-- The character of a digit. -/
def ui2a.digit (uc : Bool) (dgt : Nat) : UInt8 :=
  UInt8.ofNat (dgt + if dgt < 10 then 48 else (if uc then 65 else 97) - 10)

/-- The second loop of `ui2a`. -/
def ui2a.digits (base : Nat) (uc : Bool) (num d n : Nat) : List UInt8 :=
  if 2 ≤ base ∧ d ≠ 0 then
    let dgt := num / d
    if n ≠ 0 ∨ 0 < dgt ∨ d / base = 0 then ui2a.digit uc dgt :: ui2a.digits base uc (num % d) (d / base) (n + 1)
    else ui2a.digits base uc (num % d) (d / base) n
  else []
termination_by d
decreasing_by all_goals exact Nat.div_lt_self (by omega) (by omega)

def ui2a (num base : Nat) (uc : Bool) : List UInt8 := ui2a.digits base uc num (ui2a.scale num base 1) 0

def i2a (num : Int) : List UInt8 :=
  if num < 0 then 45 :: ui2a (toUnsigned (-num)) 10 false else ui2a (toUnsigned num) 10 false

def a2d (ch : UInt8) : Int :=
  if 48 ≤ ch ∧ ch ≤ 57 then ch.toNat - 48
  else if 97 ≤ ch ∧ ch ≤ 102 then ch.toNat - 97 + 10
  else if 65 ≤ ch ∧ ch ≤ 70 then ch.toNat - 65 + 10
  else -1

/-- `*p++`. -/
def fetch : List UInt8 → Except Fault (UInt8 × List UInt8)
  | ch :: p => .ok (ch, p)
  | [] => .error .outOfBounds

/-- The loop of `a2i`: the first character behind the number, the pointer and the number. A digit equal to the base passes. -/
def a2i (base : Int) : UInt8 → List UInt8 → Int → Except Fault (UInt8 × List UInt8 × Int)
  | ch, p, num =>
    if 0 ≤ a2d ch ∧ a2d ch ≤ base then
      match p with
      | c :: p => a2i base c p (toInt (num * base + a2d ch))
      | [] => .error .outOfBounds
    else .ok (ch, p, num)

/-! ## `tfp_format` -/

/-- The first loop of `putchw`: what is left of the width. -/
def putchw.room : List UInt8 → Int → Int
  | _ :: p, n => if 0 < n then putchw.room p (n - 1) else n
  | [], n => n

/-- What `putchw` sends for the string `bf`. -/
def putchw (n : Int) (z : Bool) (bf : List UInt8) : List UInt8 :=
  List.replicate (putchw.room bf n).toNat (if z then 48 else 32) ++ bf

/-- The string at an address; an address space without a NUL is read for ever. -/
def stringAt (m : Mem) : Nat → Nat → Except Fault (List UInt8)
  | 0, _ => .error .diverges
  | n + 1, a => if m a = 0 then .ok [] else (stringAt m n (toUlong (a + 1))).map (m a :: ·)

/-- `if (ch=='0')`: `lz`, the next character and the rest of the format. -/
def leadingZero (ch : UInt8) (fmt : List UInt8) : Except Fault (Bool × UInt8 × List UInt8) :=
  if ch = 48 then (fetch fmt).map fun x => (true, x) else .ok (false, ch, fmt)

/-- `if (ch>='0' && ch<='9')`: the next character, the rest of the format and `w`. -/
def width (ch : UInt8) (fmt : List UInt8) : Except Fault (UInt8 × List UInt8 × Int) :=
  if 48 ≤ ch ∧ ch ≤ 57 then a2i 10 ch fmt 0 else .ok (ch, fmt, 0)

/-- What stands behind a `'%'`: `lz`, the conversion character, the rest of the format and `w`. -/
def conversion (fmt : List UInt8) : Except Fault (Bool × UInt8 × List UInt8 × Int) := do
  let (ch, fmt) ← fetch fmt
  let (lz, ch, fmt) ← leadingZero ch fmt
  return (lz, ← width ch fmt)

/-- The `switch`, but for `case 0`: the characters sent and the number of arguments taken; `arg` is the next one. -/
def convert (m : Mem) (arg : Nat) (lz : Bool) (w : Int) (ch : UInt8) : Except Fault (List UInt8 × Nat) :=
  if ch = 117 then .ok (putchw w lz (ui2a (toUnsigned arg) 10 false), 1)
  else if ch = 100 then .ok (putchw w lz (i2a (toInt arg)), 1)
  else if ch = 120 ∨ ch = 88 then .ok (putchw w lz (ui2a (toUnsigned arg) 16 (ch = 88)), 1)
  else if ch = 99 then .ok ([UInt8.ofNat arg], 1)
  else if ch = 115 then (stringAt m (2 ^ 64) arg).map fun bf => (putchw w false bf, 1)
  else if ch = percent then .ok ([ch], 0)
  else .ok ([], 0)

/-- The loop of `tfp_format`, with the number of arguments taken so far. A turn takes at least a character of the format. -/
def tfp_format (m : Mem) (va : Nat → Nat) : Nat → List UInt8 → Nat → Except Fault (List UInt8 × Nat)
  | 0, _, _ => .error .diverges
  | n + 1, fmt, args => do
    let (ch, fmt) ← fetch fmt
    if ch = 0 then return ([], args)
    else if ch ≠ percent then (tfp_format m va n fmt args).map fun x => (ch :: x.1, x.2)
    else
      let (lz, ch, fmt, w) ← conversion fmt
      if ch = 0 then return ([], args)
      else
        let (out, taken) ← convert m (va args) lz w ch
        (tfp_format m va n fmt (args + taken)).map fun x => (out ++ x.1, x.2)

def tfp_printf (m : Mem) (va : Nat → Nat) (fmt : CStr) : Except Fault (List UInt8 × Nat) :=
  tfp_format m va fmt.bytes.length fmt.bytes 0

def sys_write (m : Mem) (va : Nat → Nat) (buf : CStr) : Except Fault (List UInt8 × Nat) := tfp_printf m va buf

/-! ## What is printed -/

theorem fetch_ok {fmt : List UInt8} {ch : UInt8} {p : List UInt8} (h : fetch fmt = .ok (ch, p)) : fmt = ch :: p := by
  cases fmt with
  | nil => cases h
  | cons c l =>
    cases h
    rfl

theorem length_cstr_cons {ch : UInt8} (h : ch ≠ 0) (p : List UInt8) : (cstr (ch :: p)).length = (cstr p).length + 1 := by
  rw [cstr, if_neg h, List.length_cons]

/-- A number ends inside the string. -/
theorem a2i_ok {base : Int} {ch : UInt8} {p : List UInt8} {num : Int} {c : UInt8} {r : List UInt8} {w : Int}
    (h : a2i base ch p num = .ok (c, r, w)) (hc : c ≠ 0) : (cstr r).length ≤ (cstr p).length := by
  induction p generalizing ch num with
  | nil =>
    unfold a2i at h
    split_ifs at h
    cases h
    exact le_rfl
  | cons d p ih =>
    unfold a2i at h
    split_ifs at h
    · by_cases hd : d = 0
      · -- the NUL is no digit: the number ends there
        subst hd
        dsimp only at h
        unfold a2i at h
        rw [if_neg fun hdigit => absurd hdigit.1 (by decide)] at h
        cases h
        exact absurd rfl hc
      · rw [length_cstr_cons hd]
        exact (ih h).trans (Nat.le_succ _)
    · cases h
      exact le_rfl

theorem width_ok {ch : UInt8} {p : List UInt8} {c : UInt8} {r : List UInt8} {w : Int} (h : width ch p = .ok (c, r, w))
    (hc : c ≠ 0) : ch ≠ 0 ∧ (cstr r).length ≤ (cstr p).length := by
  unfold width at h
  split_ifs at h with hdigit
  · refine ⟨?_, a2i_ok h hc⟩
    rintro rfl
    exact absurd hdigit.1 (by decide)
  · cases h
    exact ⟨hc, le_rfl⟩

theorem leadingZero_ok {ch : UInt8} {p : List UInt8} {lz : Bool} {c : UInt8} {r : List UInt8}
    (h : leadingZero ch p = .ok (lz, c, r)) (hc : c ≠ 0) : ch ≠ 0 ∧ (cstr r).length ≤ (cstr p).length := by
  unfold leadingZero at h
  split_ifs at h with hzero
  · obtain ⟨x, hx, he⟩ := map_ok h
    cases he
    rw [fetch_ok hx, length_cstr_cons hc, hzero]
    exact ⟨by decide, Nat.le_succ _⟩
  · cases h
    exact ⟨hc, le_rfl⟩

/-- A conversion that the NUL does not cut off takes at least a character. -/
theorem conversion_ok {fmt : List UInt8} {lz : Bool} {ch : UInt8} {r : List UInt8} {w : Int}
    (h : conversion fmt = .ok (lz, ch, r, w)) (hch : ch ≠ 0) : (cstr r).length < (cstr fmt).length := by
  obtain ⟨⟨c₁, p₁⟩, h₁, h⟩ := bind_ok h
  obtain ⟨⟨z, c₂, p₂⟩, h₂, h⟩ := bind_ok h
  obtain ⟨⟨c₃, p₃, w₃⟩, h₃, h⟩ := bind_ok h
  cases h
  obtain ⟨hc₂, hle₃⟩ := width_ok h₃ hch
  obtain ⟨hc₁, hle₂⟩ := leadingZero_ok h₂ hc₂
  rw [fetch_ok h₁, length_cstr_cons hc₁]
  omega

/-- A conversion that takes no argument sends one character at most. -/
theorem convert_ok {m : Mem} {arg : Nat} {lz : Bool} {w : Int} {ch : UInt8} {out : List UInt8} {n : Nat}
    (h : convert m arg lz w ch = .ok (out, n)) (hn : n = 0) : out.length ≤ 1 := by
  have htakes : ∀ l : List UInt8, (Except.ok (l, 1) : Except Fault (List UInt8 × Nat)) ≠ .ok (out, n) := by
    intro l he
    exact Nat.one_ne_zero ((Prod.mk.inj (Except.ok.inj he)).2.trans hn)
  unfold convert at h
  split_ifs at h
  · exact absurd h (htakes _)
  · exact absurd h (htakes _)
  · exact absurd h (htakes _)
  · exact absurd h (htakes _)
  · obtain ⟨bf, -, he⟩ := map_ok h
    exact absurd (congrArg Except.ok he.symm) (htakes _)
  · rw [← (Prod.mk.inj (Except.ok.inj h)).1]
    exact le_rfl
  · rw [← (Prod.mk.inj (Except.ok.inj h)).1]
    exact Nat.zero_le 1

/-- A call that takes no argument sends no more than the format has, and less if there is a `'%'` in it. -/
theorem tfp_format_ok {m : Mem} {va : Nat → Nat} {n : Nat} {fmt : List UInt8} {args : Nat} {sent : List UInt8} {taken : Nat}
    (h : tfp_format m va n fmt args = .ok (sent, taken)) :
    args ≤ taken ∧ (taken = args → sent.length ≤ (cstr fmt).length ∧ (percent ∈ cstr fmt → sent.length < (cstr fmt).length)) := by
  induction n generalizing fmt args sent with
  | zero => cases h
  | succ n ih =>
    obtain ⟨⟨ch, p⟩, hfetch, h⟩ := bind_ok h
    rw [fetch_ok hfetch]
    dsimp only at h
    split_ifs at h with hnul hplain
    · cases h
      rw [hnul]
      exact ⟨le_rfl, fun _ => by simp [cstr]⟩
    · obtain ⟨x, hrest, he⟩ := map_ok h
      cases he
      obtain ⟨hle, hlen⟩ := ih hrest
      refine ⟨hle, fun htaken => ?_⟩
      obtain ⟨hle', hlt⟩ := hlen htaken
      rw [length_cstr_cons hnul, List.length_cons]
      refine ⟨by omega, fun hmem => ?_⟩
      rw [cstr, if_neg hnul, List.mem_cons] at hmem
      have := hlt (hmem.resolve_left (Ne.symm hplain))
      omega
    · obtain ⟨⟨lz, c, r, w⟩, hconv, h⟩ := bind_ok h
      dsimp only at h
      rw [length_cstr_cons hnul]
      split_ifs at h with hcut
      · cases h
        exact ⟨le_rfl, fun _ => by simp⟩
      · obtain ⟨⟨out, k⟩, hout, h⟩ := bind_ok h
        dsimp only at h
        obtain ⟨x, hrest, he⟩ := map_ok h
        cases he
        obtain ⟨hle, hlen⟩ := ih hrest
        refine ⟨by omega, fun htaken => ?_⟩
        have hone := convert_ok hout (by omega)
        have hlt := conversion_ok hconv hcut
        have hrest' := (hlen (by omega)).1
        rw [List.length_append]
        exact ⟨by omega, fun _ => by omega⟩

/-- A string without a `'%'` is sent as it is. -/
theorem tfp_format_plain (m : Mem) (va : Nat → Nat) {l : List UInt8} (hnul : 0 ∉ l) (hplain : percent ∉ l) :
    tfp_format m va (l ++ [0]).length (l ++ [0]) 0 = .ok (l, 0) := by
  induction l with
  | nil => rfl
  | cons c l ih =>
    rw [List.mem_cons, not_or] at hnul hplain
    have hrest := ih hnul.2 hplain.2
    simp only [List.cons_append, List.length_cons, tfp_format, fetch]
    show (if c = 0 then _ else _) = _
    rw [if_neg (Ne.symm hnul.1), if_pos (Ne.symm hplain.1), hrest]
    rfl

/-- The call sends the characters of its string to the console, and takes no argument. -/
def PrintsExactly (m : Mem) (va : Nat → Nat) (buf : CStr) : Prop := sys_write m va buf = .ok (buf.chars, 0)

/-- `sys_write` prints what it is given if and only if there is no `'%'` in it. -/
theorem printsExactly_iff (m : Mem) (va : Nat → Nat) (buf : CStr) : PrintsExactly m va buf ↔ percent ∉ buf.chars := by
  constructor
  · intro h hmem
    have hcstr : cstr buf.bytes = buf.chars := cstr_append_nul buf.no_nul []
    obtain ⟨-, hlen⟩ := tfp_format_ok h
    rw [hcstr] at hlen
    exact absurd ((hlen rfl).2 hmem) (lt_irrefl _)
  · exact tfp_format_plain m va buf.no_nul

/-- The string `"%x"`. -/
def hexFormat : CStr := ⟨[percent, 120], by decide⟩

/-- The string `"%x"` prints an argument register. -/
theorem printsExactly_fails : ¬ ∀ m va buf, PrintsExactly m va buf := by
  intro hall
  have h : (some 1 : Option Nat) = some 0 :=
    congrArg (fun x => x.toOption.map Prod.snd) (hall (fun _ => 0) (fun _ => 0) hexFormat)
  exact absurd h (by decide)

end ClbFilesystem
