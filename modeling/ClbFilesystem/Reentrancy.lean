import ClbFilesystem.Lib.Handover
import ClbFilesystem.Paths
/-!
# Two activations of `parse_path`

System calls run with interrupts enabled, so the timer can switch tasks in the
middle of `parse_path`, and the next task can call it too. Their variables are
on their own stacks, but `token` is one buffer: each turn of the loop puts a
component of the path there and gets it back for the lookup. A switch between
the two hands the component of one path to the lookup of the other.
-/

namespace ClbFilesystem

open Lib

/-- An activation of `parse_path`: in front of one of the two steps of a turn, with its local variables, or back with
its result. -/
inductive Activation where
  | first_token (current_inode : Fin FS_NPAGES) (local_path : List UInt8)
  | son (current_inode : Fin FS_NPAGES) (local_path : List UInt8) (token_size : Int)
  | returned (r : Except Fault InodePtr)

namespace Activation

def start (path : List UInt8) : Activation :=
  if charAt path 0 ≠ slash then .returned (.ok none) else .first_token ROOT_INODE (path.drop 1)

/-- One step: the call of `get_path_first_token`, or the lookup with the checks after it. -/
def turn : Activation → State → Activation × State
  | .first_token current_inode local_path, s =>
    let (token_size, s) := get_path_first_token local_path s
    if token_size < 0 then (.returned (.ok none), s) else (.son current_inode local_path token_size, s)
  | .son current_inode local_path token_size, s =>
    let son := if token_size > 0 then get_son_inode current_inode s.token s else .ok (some current_inode)
    let after := match son with
      | .error e => .returned (.error e)
      | .ok none => .returned (.ok none)
      | .ok (some i) =>
        let next := charAt local_path token_size.toNat
        match (s.inode i).type with
        | .FILE => if next ≠ 0 then .returned (.ok none) else .returned (.ok (some i))
        | .EMPTY => .returned (.ok none)
        | .FOLDER =>
          if next = 0 then .returned (.ok (some i))
          else .first_token i (local_path.drop (token_size.toNat + 1))
    (after, s)
  | .returned r, s => (.returned r, s)

end Activation

/-- Two activations, each on a path of its own, run in the order of the schedule. -/
def interleave (paths : Side → CStr) (σ : List Side) (s : State) : Shared Activation State :=
  Shared.run Activation.turn ⟨fun x => .start (paths x).chars, s⟩ σ

theorem interleave_snoc (paths : Side → CStr) (σ : List Side) (x : Side) (s : State) :
    interleave paths (σ ++ [x]) s = (interleave paths σ s).step Activation.turn x := Shared.run_snoc ..

/-! ## One turn of the loop -/

/-- What follows the NUL does not count in a comparison. -/
theorem strcmp_nul {c : List UInt8} (h0 : 0 ∉ c) (t t' src : List UInt8) : strcmp (c ++ 0 :: t) src = strcmp (c ++ 0 :: t') src := by
  induction c generalizing src with
  | nil => cases src <;> simp [strcmp]
  | cons d c ih =>
    simp only [List.mem_cons, not_or] at h0
    cases src with
    | nil => rfl
    | cons b src => simp only [List.cons_append, strcmp, ih h0.2 src]

theorem get_son_inode_congr {s s' : State} (htable : s'.RAM_inodes_table = s.RAM_inodes_table) {c : List UInt8} (h0 : 0 ∉ c)
    (t t' : List UInt8) (father : Fin FS_NPAGES) :
    get_son_inode father (c ++ 0 :: t) s' = get_son_inode father (c ++ 0 :: t') s := by
  have hi : ∀ i, s'.inode i = s.inode i := fun i => congrFun htable i
  have hloop : ∀ k i, sonLoop (c ++ 0 :: t) s' k i = sonLoop (c ++ 0 :: t') s k i := by
    intro k
    induction k with
    | zero => intro i; cases i <;> rfl
    | succ k ih =>
      intro i
      cases i with
      | none => rfl
      | some i => simp only [sonLoop, hi, strcmp_nul h0 t t', ih]
  unfold get_son_inode
  rw [hi, hloop]

/-- The result from here on, if the activation goes on alone with `k` turns left. -/
def Activation.rest (k : Nat) : Activation → State → Except Fault InodePtr
  | .first_token i local_path, s => (parseLoop k i local_path s).map (·.1)
  | .son i local_path token_size, s =>
    match turn (.son i local_path token_size) s with
    | (.first_token j local_path, s) => (parseLoop k j local_path s).map (·.1)
    | (.son .., _) => .error .diverges
    | (.returned r, _) => r
  | .returned r, _ => r

theorem parseLoop_succ (k : Nat) (cur : Fin FS_NPAGES) (path : List UInt8) (s : State) :
    (parseLoop (k + 1) cur path s).map (·.1) =
      ((Activation.first_token cur path).turn s).1.rest k ((Activation.first_token cur path).turn s).2 := by
  simp only [parseLoop, Activation.turn]
  generalize get_path_first_token path s = x
  obtain ⟨size, s₁⟩ := x
  by_cases hsize : size < 0
  · simp only [hsize, if_true]
    rfl
  · simp only [hsize, if_false, Activation.rest, Activation.turn]
    cases (if size > 0 then get_son_inode cur s₁.token s₁ else .ok (some cur)) with
    | error e => rfl
    | ok son => cases son with
      | none => rfl
      | some i =>
        simp only [bind, Except.bind, pure, Except.pure]
        cases (s₁.inode i).type with
        | EMPTY => rfl
        | FILE =>
          by_cases hn : charAt path size.toNat = 0
          · simp only [hn, ne_eq, not_true_eq_false, if_false]
            rfl
          · simp only [hn, ne_eq, not_false_eq_true, if_true]
            rfl
        | FOLDER =>
          by_cases hn : charAt path size.toNat = 0
          · simp only [hn, if_true]
            rfl
          · simp only [hn, if_false]

section Turn
variable {s : State} (ht : s.token.length = MAX_SIZE_NAME + 1) {c r : List UInt8} (hs : slash ∉ c) (h0 : 0 ∉ c)
  (hr : AtEnd r) (cur : Fin FS_NPAGES)
include ht hs h0 hr

/-- The component goes into the token. -/
theorem Activation.turn_first (hc : c.length ≤ MAX_SIZE_NAME) : Activation.turn (.first_token cur (c ++ r)) s =
    (.son cur (c ++ r) c.length, { s with token := c ++ 0 :: s.token.drop (c.length + 1) }) := by
  simp only [Activation.turn, get_path_first_token_eq ht hs h0 hr hc, if_neg (show ¬ (c.length : Int) < 0 by omega)]

omit ht hs in
/-- The lookup of a component and the checks after it, with the component in the token. -/
theorem Activation.turn_son {t : List UInt8} (htoken : s.token = c ++ 0 :: t) :
    Activation.turn (.son cur (c ++ r) c.length) s =
      (match (if c = [] then .ok (some cur) else get_son_inode cur (c ++ [0]) s) with
        | .error e => .returned (.error e)
        | .ok none => .returned (.ok none)
        | .ok (some i) =>
          if r = [] then .returned (.ok (if s.kind i = .EMPTY then none else some i))
          else if s.kind i = .FOLDER then .first_token i (r.drop 1) else .returned (.ok none), s) := by
  have hnext : charAt (c ++ r) c.length = charAt r 0 := by
    simp only [charAt, List.getD_eq_getElem?_getD]
    rw [List.getElem?_append_right (le_refl _), Nat.sub_self]
  have hdrop : (c ++ r).drop (c.length + 1) = r.drop 1 := by
    rw [List.drop_append, List.drop_of_length_le (by omega)]; simp
  have hson : (if (c.length : Int) > 0 then get_son_inode cur s.token s else .ok (some cur)) =
      if c = [] then .ok (some cur) else get_son_inode cur (c ++ [0]) s := by
    by_cases hce : c = []
    · simp [hce]
    · have hpos : (c.length : Int) > 0 := by have := List.length_pos_iff.2 hce; omega
      rw [if_pos hpos, if_neg hce, htoken, get_son_inode_congr rfl h0 t []]
  have hkind : ∀ i, (s.inode i).type = s.kind i := fun _ => rfl
  simp only [Activation.turn, hson, Int.toNat_natCast, hnext, hdrop, hkind]
  cases (if c = [] then .ok (some cur) else get_son_inode cur (c ++ [0]) s) with
  | error e => rfl
  | ok son => cases son with
    | none => rfl
    | some i =>
      rcases hr with rfl | ⟨r', rfl⟩
      · have hend : charAt [] 0 = 0 := rfl
        simp only [hend, if_true]
        cases s.kind i <;> rfl
      · have hslash : charAt (slash :: r') 0 ≠ 0 := show slash ≠ 0 by decide
        simp only [hslash, ne_eq, not_false_eq_true, if_true, if_false, reduceCtorEq]
        cases s.kind i <;> rfl

/-- A turn of `parse_path` on a component is its two steps, and the rest of the loop. -/
theorem parseLoop_turn (hc : c.length ≤ MAX_SIZE_NAME) (k : Nat) :
    ∃ tk, tk.length = MAX_SIZE_NAME + 1 ∧ (parseLoop (k + 1) cur (c ++ r) s).map (·.1) =
      match (if c = [] then .ok (some cur) else get_son_inode cur (c ++ [0]) s) with
      | .error e => .error e
      | .ok none => .ok none
      | .ok (some i) =>
        if r = [] then .ok (if s.kind i = .EMPTY then none else some i)
        else if s.kind i = .FOLDER then (parseLoop k i (r.drop 1) { s with token := tk }).map (·.1) else .ok none := by
  refine ⟨c ++ 0 :: s.token.drop (c.length + 1), ?_, ?_⟩
  · simp only [List.length_append, List.length_cons, List.length_drop, ht]; omega
  rw [parseLoop_succ, Activation.turn_first ht hs h0 hr cur hc]
  simp only [Activation.rest]
  rw [Activation.turn_son (t := s.token.drop (c.length + 1)) h0 hr cur rfl]
  have hlook := @get_son_inode_congr s { s with token := c ++ 0 :: s.token.drop (c.length + 1) } rfl c h0 [] [] cur
  rw [hlook]
  cases (if c = [] then .ok (some cur) else get_son_inode cur (c ++ [0]) s) with
  | error e => rfl
  | ok son => cases son with
    | none => rfl
    | some i =>
      have hkind : ({ s with token := c ++ 0 :: s.token.drop (c.length + 1) } : State).kind i = s.kind i := rfl
      simp only [hkind]
      by_cases hre : r = []
      · simp only [hre, if_true]
      · by_cases hi : s.kind i = .FOLDER <;> simp only [hre, hi, if_true, if_false]

end Turn

/-- The token and spare turns do not count for the result of the loop. -/
theorem parseLoop_congr {s s' : State} (htable : s'.RAM_inodes_table = s.RAM_inodes_table)
    (ht : s.token.length = MAX_SIZE_NAME + 1) (ht' : s'.token.length = MAX_SIZE_NAME + 1) {path : List UInt8} (h0 : 0 ∉ path)
    (cur : Fin FS_NPAGES) {k k' : Nat} (hk : path.length < k) (hk' : path.length < k') :
    (parseLoop k' cur path s').map (·.1) = (parseLoop k cur path s).map (·.1) := by
  induction k generalizing path cur s s' k' with
  | zero => omega
  | succ k ih =>
    obtain ⟨k', rfl⟩ : ∃ j, k' = j + 1 := ⟨k' - 1, by omega⟩
    obtain ⟨c, r, rfl, hs, hr⟩ := exists_component path
    simp only [List.mem_append, not_or] at h0
    by_cases hc : c.length ≤ MAX_SIZE_NAME
    · obtain ⟨tk, htk, hturn⟩ := parseLoop_turn ht hs h0.1 hr cur hc k
      obtain ⟨tk', htk', hturn'⟩ := parseLoop_turn ht' hs h0.1 hr cur hc k'
      have hlook := get_son_inode_congr htable h0.1 [] [] cur
      rw [hturn, hturn', hlook, State.kind_congr htable]
      cases (if c = [] then .ok (some cur) else get_son_inode cur (c ++ [0]) s) with
      | error e => rfl
      | ok son => cases son with
        | none => rfl
        | some i =>
          simp only
          split
          · rfl
          · next hre =>
            split
            · have hpos := List.length_pos_iff.2 hre
              simp only [List.length_append] at hk hk'
              have hshort : ∀ n, c.length + r.length < n + 1 → (r.drop 1).length < n := by
                intro n hn
                simp only [List.length_drop]
                omega
              exact @ih { s with token := tk } { s' with token := tk' } htable htk htk' _
                (fun hm => h0.2 (List.mem_of_mem_drop hm)) i _ (hshort k hk) (hshort k' hk')
            · rfl
    · have hlong : ∀ {s : State} (k : Nat), (parseLoop (k + 1) cur (c ++ r) s).map (·.1) = .ok none := by
        intro s k
        obtain ⟨tk, -, hp⟩ := get_path_first_token_long s hs h0.1 r (by omega)
        simp only [parseLoop, hp, bind, Except.bind, pure, Except.pure]
        rw [if_pos (by omega)]
        rfl
      rw [hlong, hlong]

/-! ## Without a switch between the two steps -/

section Hold
variable (s₀ : State) (R : Except Fault InodePtr)

/-- The table is the one of the beginning. -/
def SameTable (s : State) : Prop := s.RAM_inodes_table = s₀.RAM_inodes_table ∧ s.token.length = MAX_SIZE_NAME + 1

/-- The activation is in front of a turn, or back, and the result is to be `R`. -/
inductive Ready : Activation → Prop
  | first_token {cur path} : 0 ∉ path → (parseLoop (path.length + 1) cur path s₀).map (·.1) = R →
    Ready (.first_token cur path)
  | returned : Ready (.returned R)

/-- The activation has its component in the token, or is back, and the result is to be `R`. -/
inductive Tokenized : Activation → State → Prop
  | son {cur c r t s} : slash ∉ c → 0 ∉ c → 0 ∉ r → AtEnd r → c.length ≤ MAX_SIZE_NAME → s.token = c ++ 0 :: t →
    (parseLoop ((c ++ r).length + 1) cur (c ++ r) s₀).map (·.1) = R → Tokenized (.son cur (c ++ r) c.length) s
  | returned {s} : Tokenized (.returned R) s

variable {s₀ R} (h₀ : s₀.token.length = MAX_SIZE_NAME + 1) {a : Activation} {s : State}
include h₀

omit h₀ in
theorem Ready.turn (hs : SameTable s₀ s) (h : Ready s₀ R a) : Tokenized s₀ R (a.turn s).1 (a.turn s).2 ∧ SameTable s₀ (a.turn s).2 := by
  cases h with
  | returned => exact ⟨.returned, hs⟩
  | @first_token cur path h0 hR =>
    obtain ⟨c, r, rfl, hslash, hr⟩ := exists_component path
    simp only [List.mem_append, not_or] at h0
    by_cases hc : c.length ≤ MAX_SIZE_NAME
    · rw [Activation.turn_first hs.2 hslash h0.1 hr cur hc]
      refine ⟨.son hslash h0.1 h0.2 hr hc rfl hR, hs.1, ?_⟩
      have hlen := hs.2
      simp only [List.length_append, List.length_cons, List.length_drop, hlen]
      omega
    · obtain ⟨tk, htk, hp⟩ := get_path_first_token_long s hslash h0.1 r (by omega)
      have hnone : R = .ok none := by
        obtain ⟨tk, -, hp⟩ := get_path_first_token_long s₀ hslash h0.1 r (by omega)
        rw [← hR, parseLoop_succ, Activation.turn]
        simp only [hp]
        rfl
      simp only [Activation.turn, hp]
      rw [if_pos (by omega), hnone]
      exact ⟨.returned, hs.1, htk.trans hs.2⟩

theorem Tokenized.turn (hs : SameTable s₀ s) (h : Tokenized s₀ R a s) : Ready s₀ R (a.turn s).1 ∧ SameTable s₀ (a.turn s).2 := by
  cases h with
  | returned => exact ⟨.returned, hs⟩
  | @son cur c r t _ hslash hc0 hr0 hr hc htoken hR =>
    rw [Activation.turn_son hc0 hr cur htoken]
    refine ⟨?_, hs⟩
    obtain ⟨tk, htk, hturn⟩ := parseLoop_turn h₀ hslash hc0 hr cur hc (c ++ r).length
    rw [hturn] at hR
    have hlook := get_son_inode_congr hs.1 hc0 [] [] cur
    rw [hlook, State.kind_congr hs.1]
    cases hson : (if c = [] then .ok (some cur) else get_son_inode cur (c ++ [0]) s₀) with
    | error e => simp only [hson] at hR; exact hR ▸ .returned
    | ok son => cases son with
      | none => simp only [hson] at hR; exact hR ▸ .returned
      | some i =>
        simp only [hson] at hR ⊢
        by_cases hre : r = []
        · rw [if_pos hre] at hR ⊢
          exact hR ▸ .returned
        · rw [if_neg hre] at hR ⊢
          by_cases hi : s₀.kind i = .FOLDER
          · rw [if_pos hi] at hR ⊢
            have hd0 : 0 ∉ r.drop 1 := fun hm => hr0 (List.mem_of_mem_drop hm)
            have hpos := List.length_pos_iff.2 hre
            refine .first_token hd0 ?_
            rw [← hR]
            have hshort : (r.drop 1).length < (c ++ r).length := by
              simp only [List.length_drop, List.length_append]
              omega
            exact @parseLoop_congr { s₀ with token := tk } s₀ rfl htk h₀ _ hd0 i _ _ hshort (by omega)
          · rw [if_neg hi] at hR ⊢
            exact hR ▸ .returned

end Hold

theorem Ready.start {s₀ : State} (h₀ : s₀.token.length = MAX_SIZE_NAME + 1) (p : CStr) :
    Ready s₀ ((parse_path p.chars s₀).map (·.1)) (.start p.chars) := by
  unfold Activation.start parse_path
  split
  · exact .returned
  · have h0 : 0 ∉ p.chars.drop 1 := fun hm => p.no_nul (List.mem_of_mem_drop hm)
    have hshort : (p.chars.drop 1).length < p.chars.length + 1 := by
      simp only [List.length_drop]
      omega
    exact .first_token h0 (parseLoop_congr rfl h₀ h₀ h0 ROOT_INODE hshort (by omega))

/-- Each activation that is back has the result it has alone. -/
def SameResults (paths : Side → CStr) (σ : List Side) (s : State) : Prop :=
  ∀ x r, (interleave paths σ s).acts x = .returned r → r = (parse_path (paths x).chars s).map (·.1)

theorem sameResults_of_clean {σ : List Side} (hσ : Board.start.Clean σ) {s : State} (hs : s.token.length = MAX_SIZE_NAME + 1)
    (paths : Side → CStr) : SameResults paths σ s := by
  let R : Side → Except Fault InodePtr := fun x => (parse_path (paths x).chars s).map (·.1)
  have hstart : Shared.Held (SameTable s) (fun x => Ready s (R x)) (fun x => Tokenized s (R x)) Board.start
      ⟨fun x => .start (paths x).chars, s⟩ :=
    ⟨⟨rfl, hs⟩, fun x _ => Ready.start hs (paths x), fun x hx => (by cases hx), fun x hx => (by cases hx)⟩
  have hput : ∀ x a k, SameTable s k → Ready s (R x) a →
      Tokenized s (R x) (Activation.turn a k).1 (Activation.turn a k).2 ∧ SameTable s (Activation.turn a k).2 :=
    fun x a k hk h => h.turn hk
  have hget : ∀ x a k, SameTable s k → Tokenized s (R x) a k →
      Ready s (R x) (Activation.turn a k).1 ∧ SameTable s (Activation.turn a k).2 := fun x a k hk h => h.turn hs hk
  have hend := hstart.run hput hget hσ
  intro x r hr
  cases hhalf : (Board.start.run σ).half x with
  | false =>
    have hready : Ready s (R x) ((interleave paths σ s).acts x) := hend.ready x hhalf
    rw [hr] at hready
    cases hready
    rfl
  | true =>
    obtain ⟨k, hk⟩ : ∃ k, Tokenized s (R x) ((interleave paths σ s).acts x) k := hend.spoilt x hhalf
    rw [hr] at hk
    cases hk
    rfl

/-! ## Every activation comes back -/

/-- The steps an activation can still make. -/
def Activation.left : Activation → Nat
  | .first_token _ local_path => 2 * local_path.length + 2
  | .son _ local_path _ => 2 * local_path.length + 1
  | .returned _ => 0

theorem Activation.left_turn (a : Activation) (s : State) : (a.turn s).1.left ≤ a.left - 1 := by
  cases a with
  | first_token cur path =>
    simp only [turn]
    generalize get_path_first_token path s = x
    obtain ⟨size, s₁⟩ := x
    by_cases hsize : size < 0 <;> simp [hsize, left]
  | son cur path size =>
    have hshort : charAt path size.toNat ≠ 0 → size.toNat < path.length := by
      intro hne
      by_contra hlen
      exact hne (by simp [charAt, List.getD_eq_getElem?_getD, List.getElem?_eq_none (Nat.le_of_not_lt hlen)])
    simp only [turn]
    generalize (if size > 0 then get_son_inode cur s.token s else .ok (some cur)) = son
    cases son with
    | error e => simp [left]
    | ok son => cases son with
      | none => simp [left]
      | some i =>
        by_cases hn : charAt path size.toNat = 0
        · cases hi : (s.inode i).type <;> simp [hi, hn, left]
        · have := hshort hn
          cases hi : (s.inode i).type <;> simp [hi, hn, left]
          omega
  | returned r => simp [turn, left]

theorem left_interleave (paths : Side → CStr) (σ : List Side) (s : State) (x : Side) :
    ((interleave paths σ s).acts x).left ≤ 2 * (paths x).chars.length + 2 - σ.count x := by
  induction σ using List.reverseRecOn with
  | nil =>
    show (Activation.start (paths x).chars).left ≤ _
    unfold Activation.start
    split
    · simp [Activation.left]
    · simp only [Activation.left, List.length_drop, List.count_nil]
      omega
  | append_singleton σ y ih =>
    rw [interleave_snoc, List.count_append, List.count_singleton]
    by_cases hy : x = y
    · subst hy
      rw [Shared.step_acts_self]
      have := Activation.left_turn ((interleave paths σ s).acts x) (interleave paths σ s).cell
      simp only [beq_self_eq_true, if_true]
      omega
    · have hyx : (y == x) = false := by simpa using Ne.symm hy
      rw [Shared.step_acts_of_ne _ _ hy, hyx]
      exact ih

/-- After enough steps of its own an activation is back. -/
theorem interleave_returned (paths : Side → CStr) {σ : List Side} (s : State) {x : Side}
    (hx : 2 * (paths x).chars.length + 2 ≤ σ.count x) : ∃ r, (interleave paths σ s).acts x = .returned r := by
  have hleft := left_interleave paths σ s x
  cases h : (interleave paths σ s).acts x with
  | returned r => exact ⟨r, rfl⟩
  | first_token cur path => rw [h] at hleft; simp only [Activation.left] at hleft; omega
  | son cur path size => rw [h] at hleft; simp only [Activation.left] at hleft; omega

/-! ## A put between the put and the get of the other -/

section Spoilt
variable (k : Side → Nat) (name : Side → UInt8)

/-- What is left of a path of `k x` spare slashes and a name, after `i` turns. -/
def tail (x : Side) (i : Nat) : List UInt8 := List.replicate (k x - i) slash ++ [name x]

/-- Its component. -/
def comp (x : Side) (i : Nat) : List UInt8 := if i < k x then [] else [name x]

/-- Where the activation is after `j` steps. -/
def place (x : Side) (j : Nat) : Activation :=
  if j % 2 = 0 then .first_token ROOT_INODE (tail k name x (j / 2))
  else .son ROOT_INODE (tail k name x (j / 2)) (comp k name x (j / 2)).length

variable {k name} (hname : ∀ x, name x ≠ slash ∧ name x ≠ 0) {x : Side} {i : Nat} {s : State}

theorem tail_of_lt (h : i < k x) : tail k name x i = slash :: tail k name x (i + 1) := by
  unfold tail
  obtain ⟨n, hn⟩ : ∃ n, k x - i = n + 1 := ⟨k x - i - 1, by omega⟩
  rw [hn, show k x - (i + 1) = n by omega]
  rfl

theorem tail_eq (h : k x ≤ i) : tail k name x i = [name x] := by
  unfold tail
  rw [Nat.sub_eq_zero_of_le h]
  rfl

include hname

/-- The tokenizer puts the component of the turn into the token. -/
theorem turn_place_even (hs : s.token.length = MAX_SIZE_NAME + 1) : ∃ t, (place k name x (2 * i)).turn s =
    (place k name x (2 * i + 1), { s with token := comp k name x i ++ 0 :: t }) ∧
      (comp k name x i ++ 0 :: t).length = MAX_SIZE_NAME + 1 := by
  obtain ⟨hslash, h0⟩ := hname x
  have hend : ∃ r, tail k name x i = comp k name x i ++ r ∧ AtEnd r := by
    by_cases h : i < k x
    · exact ⟨_, by rw [tail_of_lt h, comp, if_pos h]; rfl, .inr ⟨_, rfl⟩⟩
    · exact ⟨[], by rw [tail_eq (by omega), comp, if_neg h]; rfl, .inl rfl⟩
  have hc : slash ∉ comp k name x i ∧ 0 ∉ comp k name x i ∧ (comp k name x i).length ≤ MAX_SIZE_NAME := by
    unfold comp
    split
    · simp
    · exact ⟨by simpa using hslash.symm, by simpa using h0.symm, by simp [MAX_SIZE_NAME]⟩
  obtain ⟨r, htail, hr⟩ := hend
  refine ⟨s.token.drop ((comp k name x i).length + 1), ?_, ?_⟩
  · have heven : (2 * i) % 2 = 0 := by omega
    have hodd : ¬ (2 * i + 1) % 2 = 0 := by omega
    unfold place
    rw [if_pos heven, if_neg hodd, show 2 * i / 2 = i by omega, show (2 * i + 1) / 2 = i by omega, htail]
    exact Activation.turn_first hs hc.1 hc.2.1 hr ROOT_INODE hc.2.2
  · simp only [List.length_append, List.length_cons, List.length_drop, hs]
    have := hc.2.2
    omega

omit hname in
/-- A spare slash stays at the root. -/
theorem turn_place_odd (hroot : s.kind ROOT_INODE = .FOLDER) (h : i < k x) :
    (place k name x (2 * i + 1)).turn s = (place k name x (2 * i + 2), s) := by
  have hodd : ¬ (2 * i + 1) % 2 = 0 := by omega
  have heven : (2 * i + 2) % 2 = 0 := by omega
  have htype : (s.inode ROOT_INODE).type = .FOLDER := hroot
  unfold place
  rw [if_neg hodd, if_pos heven, show (2 * i + 1) / 2 = i by omega, show (2 * i + 2) / 2 = i + 1 by omega, tail_of_lt h, comp,
    if_pos h]
  have hslash : charAt (slash :: tail k name x (i + 1)) 0 ≠ 0 := show slash ≠ 0 by decide
  simp [Activation.turn, htype, hslash]

/-- Where the activations are, and whose component the token holds, as long as none has made all its steps. -/
structure Placed (k : Side → Nat) (name : Side → UInt8) (s₀ : State) (τ : List Side) (c : Shared Activation State) : Prop where
  table : SameTable s₀ c.cell
  place : ∀ x, τ.count x ≤ 2 * k x + 1 → c.acts x = place k name x (τ.count x)
  token : ∀ x, (Board.start.run τ).owner = some x → ∃ t, c.cell.token = comp k name x ((τ.count x - 1) / 2) ++ 0 :: t

theorem Placed.step (hroot : s.kind ROOT_INODE = .FOLDER) {τ : List Side} {c : Shared Activation State}
    (h : Placed k name s τ c) (x : Side) (hx : τ.count x ≤ 2 * k x + 1) :
    Placed k name s (τ ++ [x]) (c.step Activation.turn x) := by
  have hact := h.place x hx
  have hroot' : c.cell.kind ROOT_INODE = .FOLDER := by rw [State.kind_congr h.table.1]; exact hroot
  have hself : (τ ++ [x]).count x = τ.count x + 1 := by simp
  have hother : ∀ {y}, y ≠ x → (τ ++ [x]).count y = τ.count y := by
    intro y hy
    simp [hy.symm]
  obtain ⟨i, hi | hi⟩ : ∃ i, τ.count x = 2 * i ∨ τ.count x = 2 * i + 1 := ⟨τ.count x / 2, by omega⟩
  · -- A put: the token is the own component from here on.
    obtain ⟨t, hturn, hlen⟩ := turn_place_even (i := i) hname h.table.2
    rw [← hi, ← hact] at hturn
    have hcell : (c.step Activation.turn x).cell = { c.cell with token := comp k name x i ++ 0 :: t } := by
      rw [Shared.step_cell, hturn]
    have howner : (Board.start.run (τ ++ [x])).owner = some x := by
      rw [Board.run_snoc, Board.owner_step, Board.half_run_start, if_neg]
      simp [hi]
    refine ⟨?_, fun y hy => ?_, fun y hy => ?_⟩
    · rw [hcell]
      exact ⟨h.table.1, hlen⟩
    · by_cases hyx : y = x
      · subst hyx
        rw [Shared.step_acts_self, hturn, hself, hi]
      · rw [Shared.step_acts_of_ne _ _ hyx]
        rw [hother hyx] at hy ⊢
        exact h.place y hy
    · obtain rfl := Option.some.inj (howner.symm.trans hy)
      exact ⟨t, by rw [hcell, hself, hi, show (2 * i + 1 - 1) / 2 = i by omega]⟩
  · -- A get: the token stays.
    have hcell : (c.step Activation.turn x).cell = c.cell := by
      rw [Shared.step_cell, hact, hi]
      unfold ClbFilesystem.place
      rw [if_neg (by omega)]
      rfl
    have howner : (Board.start.run (τ ++ [x])).owner = (Board.start.run τ).owner := by
      rw [Board.run_snoc, Board.owner_step, Board.half_run_start, if_pos]
      simp only [decide_eq_true_eq]
      omega
    refine ⟨?_, fun y hy => ?_, fun y hy => ?_⟩
    · rw [hcell]
      exact h.table
    · by_cases hyx : y = x
      · subst hyx
        rw [hself] at hy ⊢
        rw [Shared.step_acts_self, hact, hi, turn_place_odd hroot' (by omega)]
      · rw [Shared.step_acts_of_ne _ _ hyx]
        rw [hother hyx] at hy ⊢
        exact h.place y hy
    · rw [howner] at hy
      obtain ⟨t, ht⟩ := h.token y hy
      rw [hcell]
      by_cases hyx : y = x
      · subst hyx
        exact ⟨t, by rw [ht, hself, hi, show (2 * i + 1 + 1 - 1) / 2 = (2 * i + 1 - 1) / 2 by omega]⟩
      · exact ⟨t, by rw [hother hyx, ht]⟩

/-- The path to a file in the root, with spare slashes. -/
def slashedPath (k : Nat) (n : UInt8) (h : n ≠ 0) : CStr :=
  ⟨slash :: (List.replicate k slash ++ [n]), by simp [slash, h.symm]⟩

theorem placed_interleave (hs : s.token.length = MAX_SIZE_NAME + 1) (hroot : s.kind ROOT_INODE = .FOLDER) {τ : List Side}
    (hτ : ∀ x, τ.count x ≤ 2 * k x + 2) :
    Placed k name s τ (interleave (fun x => slashedPath (k x) (name x) (hname x).2) τ s) := by
  induction τ using List.reverseRecOn with
  | nil =>
    refine ⟨⟨rfl, hs⟩, fun x _ => ?_, fun x hx => (by cases hx)⟩
    show Activation.start (slash :: _) = _
    unfold Activation.start
    rw [if_neg (by simp [charAt])]
    simp [place, tail]
  | append_singleton τ x ih =>
    have hle : ∀ y, τ.count y ≤ 2 * k y + 2 := fun y => le_trans (by simp) (hτ y)
    have hx := hτ x
    rw [List.count_append, List.count_singleton_self] at hx
    rw [interleave_snoc]
    exact (ih hle).step hname hroot x (by omega)

end Spoilt

/-- Spare slashes lead nowhere else. -/
theorem State.resolve_slashes {s : State} (hroot : s.kind ROOT_INODE = .FOLDER) (k : Nat) (path : List UInt8) :
    s.resolve (slash :: (List.replicate k slash ++ path)) = s.resolve (slash :: path) := by
  induction k with
  | zero => rfl
  | succ k ih =>
    rw [← ih]
    have hsplit : (slash :: (List.replicate k slash ++ path)).splitOn slash =
        [] :: (List.replicate k slash ++ path).splitOn slash :=
      List.splitOn_append_cons_self_of_not_mem (List.not_mem_nil (a := slash)) (List.replicate k slash ++ path)
    have hchar : ∀ l : List UInt8, charAt (slash :: l) 0 = slash := fun _ => rfl
    unfold State.resolve
    rw [if_pos (hchar _), if_pos (hchar _)]
    show walk _ _ _ ((slash :: (List.replicate k slash ++ path)).splitOn slash) = _
    rw [hsplit]
    simp [walk, hroot, State.components]

/-- An activation that is back makes empty steps. -/
theorem Shared.run_returned {c : Shared Activation State} {x : Side} {r : Except Fault InodePtr} (h : c.acts x = .returned r)
    (ρ : List Side) : (c.run Activation.turn ρ).acts x = .returned r := by
  induction ρ generalizing c with
  | nil => exact h
  | cons y ρ ih =>
    apply ih
    by_cases hy : x = y
    · subst hy
      rw [Shared.step_acts_self, h]
      rfl
    · rw [Shared.step_acts_of_ne _ _ hy]
      exact h

/-- The files `a` and `b` in the root. -/
def twoFiles : State := afterCalls [.create_file (some rootName) (some nameA), .create_file (some rootName) (some nameB)]

/-- Their names and their entries, one for each activation. -/
def fileName : Side → UInt8
  | .left => 97
  | .right => 98

def fileEntry : Side → Fin FS_NPAGES
  | .left => entry1
  | .right => entry2

theorem fileName_ne (x : Side) : fileName x ≠ slash ∧ fileName x ≠ 0 := by cases x <;> decide

theorem twoFiles_son (x : Side) : get_son_inode ROOT_INODE ([fileName x] ++ 0 :: []) twoFiles = .ok (some (fileEntry x)) := by
  obtain ⟨T, ht⟩ := (reachable_afterCalls [.create_file (some rootName) (some nameA),
    .create_file (some rootName) (some nameB)]).invariant.tree
  have hlookup : twoFiles.lookup ROOT_INODE [fileName x] = some (fileEntry x) := by cases x <;> decide +kernel
  rw [← hlookup]
  exact get_son_inode_eq ht ROOT_INODE (by simpa using (fileName_ne x).2.symm) []

theorem twoFiles_path (k : Nat) (x : Side) :
    (parse_path (slashedPath k (fileName x) (fileName_ne x).2).chars twoFiles).map (·.1) = .ok (some (fileEntry x)) := by
  have hi := (reachable_afterCalls [.create_file (some rootName) (some nameA),
    .create_file (some rootName) (some nameB)]).invariant
  obtain ⟨T, ht⟩ := hi.tree
  have hone : twoFiles.resolve [slash, fileName x] = some (fileEntry x) := by cases x <;> decide +kernel
  have hroot : twoFiles.kind ROOT_INODE = .FOLDER := by decide +kernel
  rw [parse_path_eq (s := twoFiles) ht hi.token]
  have hpath : twoFiles.resolve (slashedPath k (fileName x) (fileName_ne x).2).chars = some (fileEntry x) := by
    rw [slashedPath, State.resolve_slashes hroot k [fileName x], hone]
  simp only [Except.map, hpath]

/-- With a put between the put and the get of the other, two paths to two files both lead to the same one. -/
theorem exists_of_not_clean {σ : List Side} (hσ : ¬ Board.start.Clean σ) :
    ∃ k : Side → Nat, ¬ SameResults (fun x => slashedPath (k x) (fileName x) (fileName_ne x).2) σ twoFiles := by
  obtain ⟨τ, x, ρ, rfl, hhalf, hne⟩ := Board.exists_of_not_clean hσ
  rw [Board.half_run_start, decide_eq_true_eq] at hhalf
  have hx : x ∈ τ := List.count_pos_iff.1 (by omega)
  obtain ⟨y, hy⟩ := Option.ne_none_iff_exists'.1 (Board.owner_ne_none hx)
  have hyx : y ≠ x := by
    rintro rfl
    exact hne hy
  refine ⟨fun z => (τ.count z - 1) / 2, fun hsame => ?_⟩
  have hi := (reachable_afterCalls [.create_file (some rootName) (some nameA),
    .create_file (some rootName) (some nameB)]).invariant
  have hroot : twoFiles.kind ROOT_INODE = .FOLDER := by decide +kernel
  have hplaced := placed_interleave (k := fun z => (τ.count z - 1) / 2) fileName_ne (s := twoFiles) hi.token hroot
    (τ := τ) (by intro z; omega)
  -- `x` is about to look up its name, and the token holds the other one.
  have hact := hplaced.place x (by omega)
  obtain ⟨t, htoken⟩ := hplaced.token y hy
  have hcomp : comp (fun z => (τ.count z - 1) / 2) fileName y ((τ.count y - 1) / 2) = [fileName y] := if_neg (lt_irrefl _)
  have htail : tail (fun z => (τ.count z - 1) / 2) fileName x (τ.count x / 2) = [fileName x] := tail_eq (by omega)
  have hcompx : comp (fun z => (τ.count z - 1) / 2) fileName x (τ.count x / 2) = [fileName x] := by
    refine if_neg ?_
    show ¬ τ.count x / 2 < (τ.count x - 1) / 2
    omega
  unfold place at hact
  rw [if_neg (by omega), htail, hcompx] at hact
  rw [hcomp] at htoken
  have hback : ((interleave (fun z => slashedPath ((τ.count z - 1) / 2) (fileName z) (fileName_ne z).2) τ twoFiles).step
      Activation.turn x).acts x = .returned (.ok (some (fileEntry y))) := by
    have hfile : twoFiles.kind (fileEntry y) = .FILE := by cases y <;> decide +kernel
    have h0 : 0 ∉ [fileName y] := by simpa using (fileName_ne y).2.symm
    rw [Shared.step_acts_self, hact]
    have hson := get_son_inode_congr hplaced.table.1 h0 t [] ROOT_INODE
    rw [twoFiles_son, ← htoken] at hson
    have htype : ((interleave (fun z => slashedPath ((τ.count z - 1) / 2) (fileName z) (fileName_ne z).2) τ twoFiles).cell.inode
        (fileEntry y)).type = .FILE := (congrFun (State.kind_congr hplaced.table.1) _).trans hfile
    simp [Activation.turn, hson, htype, charAt]
  have hend := Shared.run_returned hback ρ
  have hresult := hsame x _ (by
    unfold interleave
    rw [Shared.run_append_cons]
    exact hend)
  rw [twoFiles_path, Except.ok.injEq, Option.some.injEq] at hresult
  revert hresult
  cases x <;> cases y <;> first | exact absurd rfl hyx | decide

/-- Two activations interleaved come back with the results they have alone, whatever the table and the paths, if
and only if no `get_path_first_token` of one falls between the `get_path_first_token` and the `get_son_inode` of a
turn of the other. They do come back. -/
theorem reentrant_iff (σ : List Side) :
    ((∀ s : State, s.token.length = MAX_SIZE_NAME + 1 → ∀ paths, SameResults paths σ s) ↔ Board.start.Clean σ) ∧
    ∀ (paths : Side → CStr) s x, 2 * (paths x).chars.length + 2 ≤ σ.count x →
      ∃ r, (interleave paths σ s).acts x = .returned r := by
  refine ⟨⟨fun hall => ?_, fun hσ s hs paths => sameResults_of_clean hσ hs paths⟩,
    fun paths s x hx => interleave_returned paths s hx⟩
  by_contra hσ
  obtain ⟨k, hno⟩ := exists_of_not_clean hσ
  exact hno (hall twoFiles (reachable_afterCalls _).invariant.token _)

/-- `"/a"` and `"/b"`, with a switch after the first component was taken: both come back with `b`. -/
theorem reentrant_fails : ¬ ∀ s, Reachable s → ∀ paths σ, SameResults paths σ s := by
  intro hall
  have hσ : ¬ Board.start.Clean [.left, .right, .left, .right] := fun hc => nomatch hc.2.2.1 rfl
  obtain ⟨k, hno⟩ := exists_of_not_clean hσ
  exact hno (hall twoFiles (reachable_afterCalls _) _ _)

end ClbFilesystem
