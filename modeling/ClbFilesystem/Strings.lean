import Mathlib.Data.List.Basic
import Mathlib.Data.Vector.Basic
/-!
# Strings

C strings and the loops of `string.c`. A pointer into an object is the list of
the bytes from there to the end of the object; a loop that runs off the end of
the list would leave the object, which is a fault.
-/

namespace ClbFilesystem

/-- Why a call does not return. -/
inductive Fault where
  /-- A null pointer is followed. -/
  | nullPointer
  /-- An access outside its object. -/
  | outOfBounds
  /-- A loop or a recursion that does not end. -/
  | diverges
  deriving DecidableEq, Repr

theorem ok_bind {α β : Type} (a : α) (f : α → Except Fault β) : (Except.ok a).bind f = f a := rfl

theorem error_bind {α β : Type} (e : Fault) (f : α → Except Fault β) : (Except.error e).bind f = .error e := rfl

theorem bind_ok {α β : Type} {x : Except Fault α} {f : α → Except Fault β} {b : β} (h : x.bind f = .ok b) :
    ∃ a, x = .ok a ∧ f a = .ok b := by
  cases x with
  | error e => cases h
  | ok a => exact ⟨a, rfl, h⟩

theorem map_ok {α β : Type} {f : α → β} {x : Except Fault α} {y : β} (h : x.map f = .ok y) : ∃ a, x = .ok a ∧ y = f a := by
  cases x with
  | error e => cases h
  | ok a => cases h; exact ⟨a, rfl, rfl⟩

/-- A string argument: its characters before the NUL. -/
structure CStr where
  chars : List UInt8
  no_nul : 0 ∉ chars
  deriving DecidableEq

/-- The bytes of the string, NUL included. -/
def CStr.bytes (s : CStr) : List UInt8 := s.chars ++ [0]

def strcpy : List UInt8 → List UInt8 → Except Fault (List UInt8)
  | _ :: dst, c :: src => if c ≠ 0 then (strcpy dst src).map (c :: ·) else .ok (0 :: dst)
  | _, _ => .error .outOfBounds

def strcmp : List UInt8 → List UInt8 → Except Fault Int
  | d :: dst, c :: src =>
    if d ≠ 0 ∧ c ≠ 0 then
      if d ≠ c then .ok (d.toNat - c.toNat) else strcmp dst src
    else .ok (d.toNat - c.toNat)
  | _, _ => .error .outOfBounds

def strlen : List UInt8 → Except Fault Nat
  | c :: src => if c ≠ 0 then (strlen src).map (· + 1) else .ok 0
  | [] => .error .outOfBounds

/-! ## What the loops compute -/

/-- The string a pointer designates: the bytes before the first NUL. -/
def cstr : List UInt8 → List UInt8
  | [] => []
  | c :: l => if c = 0 then [] else c :: cstr l

theorem zero_not_mem_cstr (l : List UInt8) : 0 ∉ cstr l := by
  induction l with
  | nil => simp [cstr]
  | cons c l ih =>
    by_cases hc : c = 0
    · simp [cstr, hc]
    · simp [cstr, hc, Ne.symm hc, ih]

theorem cstr_append_nul {s : List UInt8} (hs : 0 ∉ s) (l : List UInt8) : cstr (s ++ 0 :: l) = s := by
  induction s with
  | nil => simp [cstr]
  | cons c s ih =>
    simp only [List.mem_cons, not_or] at hs
    simp [cstr, Ne.symm hs.1, ih hs.2]

/-- An object with a NUL in it is a string, the NUL and the rest. -/
theorem exists_append_nul {l : List UInt8} (h : 0 ∈ l) : ∃ r, l = cstr l ++ 0 :: r := by
  induction l with
  | nil => simp at h
  | cons c l ih =>
    by_cases hc : c = 0
    · exact ⟨l, by simp [cstr, hc]⟩
    · obtain ⟨r, hr⟩ := ih ((List.mem_cons.1 h).resolve_left (Ne.symm hc))
      exact ⟨r, by simp only [cstr, hc, if_false, List.cons_append, ← hr]⟩

theorem strlen_bytes (s : CStr) : strlen s.bytes = .ok s.chars.length := by
  obtain ⟨l, hl⟩ := s
  simp only [CStr.bytes]
  induction l with
  | nil => rfl
  | cons c l ih =>
    simp only [List.mem_cons, not_or] at hl
    simp [strlen, Ne.symm hl.1, ih hl.2, Except.map]

/-- `strcpy` into a large enough object writes the string and its NUL, and keeps the rest. -/
theorem strcpy_eq (s : CStr) (dst : List UInt8) (h : s.chars.length < dst.length) :
    strcpy dst s.bytes = .ok (s.chars ++ 0 :: dst.drop (s.chars.length + 1)) := by
  obtain ⟨l, hl⟩ := s
  simp only [CStr.bytes] at h ⊢
  induction l generalizing dst with
  | nil => cases dst with
    | nil => simp at h
    | cons d dst => simp [strcpy]
  | cons c l ih => cases dst with
    | nil => simp at h
    | cons d dst =>
      simp only [List.mem_cons, not_or] at hl
      simp [strcpy, Ne.symm hl.1, ih dst hl.2 (by simpa using h), Except.map]

/-- `strcmp` of two strings is 0 exactly when they are equal. -/
theorem strcmp_eq {s t : List UInt8} (hs : 0 ∉ s) (ht : 0 ∉ t) (r r' : List UInt8) :
    ∃ d, strcmp (s ++ 0 :: r) (t ++ 0 :: r') = .ok d ∧ (d = 0 ↔ s = t) := by
  have sub_eq_zero_iff : ∀ a b : UInt8, ((a.toNat : Int) - b.toNat = 0 ↔ a = b) := fun a b => by
    rw [UInt8.toNat_inj.symm]; omega
  induction s generalizing t with
  | nil => cases t with
    | nil => exact ⟨0, by simp [strcmp], by simp⟩
    | cons c t =>
      simp only [List.mem_cons, not_or] at ht
      exact ⟨_, by simp [strcmp]; rfl, by simpa using fun h => ht.1 ((sub_eq_zero_iff 0 c).1 (by simpa using h))⟩
  | cons d s ih =>
    simp only [List.mem_cons, not_or] at hs
    cases t with
    | nil => exact ⟨_, by simp [strcmp]; rfl, by simpa using fun h => hs.1 ((sub_eq_zero_iff d 0).1 (by simpa using h)).symm⟩
    | cons c t =>
      simp only [List.mem_cons, not_or] at ht
      by_cases hdc : d = c
      · subst hdc
        obtain ⟨k, hk, hiff⟩ := ih hs.2 ht.2
        exact ⟨k, by simp [strcmp, Ne.symm hs.1, hk], by simpa using hiff⟩
      · refine ⟨(d.toNat : Int) - c.toNat, by simp [strcmp, Ne.symm hs.1, Ne.symm ht.1, hdc], ?_⟩
        rw [sub_eq_zero_iff]
        simp [hdc]

end ClbFilesystem
