import ClbFilesystem.Paths
/-!
# The specification of path resolution

What a path means, said without the loops of `parse_path`: its components are
its runs of characters other than `/`, each leads to the first son of that name,
and a file may only come last, with nothing behind it. `parse_path` meets this
on every path in every reachable state.
-/

namespace ClbFilesystem

open Lib

/-! ## Components -/

/-- The components of a path: its longest runs of characters other than `/`. -/
def names (path : List UInt8) : List (List UInt8) := (path.splitOn slash).filter (· ≠ [])

theorem names_append (path rest : List UInt8) : names (path ++ slash :: rest) = names path ++ names rest := by
  unfold names
  rw [List.splitOn_append_cons_self, List.filter_append]

theorem names_of_not_mem {c : List UInt8} (hc : slash ∉ c) : names c = if c = [] then [] else [c] := by
  unfold names
  rw [List.splitOn_eq_singleton hc, List.filter_singleton]
  by_cases h : c = [] <;> simp [h]

theorem names_cons_slash (path : List UInt8) : names (slash :: path) = names path := names_append [] path

/-- A `/` of a text is the one behind its first component, or comes after that. -/
theorem append_slash_cases {c l p rest : List UInt8} (hc : slash ∉ c) (h : c ++ slash :: l = p ++ slash :: rest) :
    p = c ∧ rest = l ∨ ∃ p', p = c ++ slash :: p' ∧ l = p' ++ slash :: rest := by
  induction c generalizing p with
  | nil => cases p with
    | nil => exact .inl ⟨rfl, (List.cons.inj h).2.symm⟩
    | cons x p =>
      obtain ⟨rfl, rfl⟩ := List.cons.inj h
      exact .inr ⟨p, rfl, rfl⟩
  | cons y c ih =>
    simp only [List.mem_cons, not_or] at hc
    cases p with
    | nil => exact absurd (List.cons.inj h).1.symm hc.1
    | cons x p =>
      obtain ⟨rfl, htail⟩ := List.cons.inj h
      rcases ih hc.2 htail with ⟨rfl, rfl⟩ | ⟨p', rfl, rfl⟩
      · exact .inl ⟨rfl, rfl⟩
      · exact .inr ⟨p', rfl, rfl⟩

/-! ## Walks -/

/-- Inode `j` is the first son of `i`, along its chain, that has that name. -/
def State.FirstSon (s : State) (i : Fin FS_NPAGES) (name : List UInt8) (j : Fin FS_NPAGES) : Prop :=
  ∃ before after, s.sons i = before ++ j :: after ∧ (s.inode j).nameOf = name ∧
    ∀ k ∈ before, (s.inode k).nameOf ≠ name

/-- From `i` the components lead to `k`, each to the first son of that name. -/
inductive Leads (s : State) : Fin FS_NPAGES → List (List UInt8) → Fin FS_NPAGES → Prop
  | nil {i} : Leads s i [] i
  | cons {i c j cs k} : s.FirstSon i c j → Leads s j cs k → Leads s i (c :: cs) k

/-- What it is for a path to mean inode `i`. -/
structure Meaning (s : State) (path : List UInt8) (i : Fin FS_NPAGES) : Prop where
  absolute : path.head? = some slash
  short : ∀ c ∈ names path, c.length ≤ MAX_SIZE_NAME
  leads : Leads s ROOT_INODE (names path) i
  /-- A file is reached at the end of the path only, not even a `/` follows. -/
  file : ∀ p rest j, path = p ++ slash :: rest → Leads s ROOT_INODE (names p) j → (s.inode j).type ≠ .FILE

variable {s : State} {i j k : Fin FS_NPAGES} {c : List UInt8} {cs ds : List (List UInt8)}

theorem lookup_eq_some : s.lookup i c = some j ↔ s.FirstSon i c j := by
  unfold State.lookup State.FirstSon
  rw [List.find?_eq_some_iff_append]
  constructor
  · rintro ⟨hname, before, after, hsons, hbefore⟩
    exact ⟨before, after, hsons, by simpa using hname, fun k hk => by simpa using hbefore k hk⟩
  · rintro ⟨before, after, hsons, hname, hbefore⟩
    exact ⟨by simpa using hname, before, after, hsons, fun k hk => by simpa using hbefore k hk⟩

theorem leads_cons : Leads s i (c :: cs) k ↔ ∃ j, s.lookup i c = some j ∧ Leads s j cs k := by
  constructor
  · rintro ⟨⟩
    next j hj hk => exact ⟨j, lookup_eq_some.2 hj, hk⟩
  · rintro ⟨j, hj, hk⟩
    exact .cons (lookup_eq_some.1 hj) hk

theorem leads_append : Leads s i (cs ++ ds) k ↔ ∃ j, Leads s i cs j ∧ Leads s j ds k := by
  induction cs generalizing i with
  | nil =>
    constructor
    · exact fun h => ⟨i, .nil, h⟩
    · rintro ⟨j, ⟨⟩, h⟩
      exact h
  | cons c cs ih =>
    rw [List.cons_append, leads_cons]
    simp only [ih, leads_cons]
    constructor
    · rintro ⟨m, hm, j, hj, hk⟩
      exact ⟨j, ⟨m, hm, hj⟩, hk⟩
    · rintro ⟨j, ⟨m, hm, hj⟩, hk⟩
      exact ⟨m, hm, j, hj, hk⟩

/-- A text without `/` leads to where the loop of `parse_path` goes on one of its turns. -/
theorem leads_of_not_mem (hc : slash ∉ c) : Leads s i (names c) k ↔ (if c = [] then some i else s.lookup i c) = some k := by
  rw [names_of_not_mem hc]
  by_cases h : c = []
  · rw [if_pos h, if_pos h, Option.some.injEq]
    constructor
    · rintro ⟨⟩
      rfl
    · rintro rfl
      exact .nil
  · rw [if_neg h, if_neg h, leads_cons]
    constructor
    · rintro ⟨j, hj, ⟨⟩⟩
      exact hj
    · exact fun hk => ⟨k, hk, .nil⟩

/-- Behind the first `/` of a text, the files on the way are those on the way from where the first component leads. -/
theorem file_ahead_iff {m : Fin FS_NPAGES} {l : List UInt8} (hs : slash ∉ c) (hto : ∀ {j}, Leads s i (names c) j ↔ m = j) :
    (∀ p rest j, c ++ slash :: l = p ++ slash :: rest → Leads s i (names p) j → s.kind j ≠ .FILE) ↔
      s.kind m ≠ .FILE ∧ ∀ p rest j, l = p ++ slash :: rest → Leads s m (names p) j → s.kind j ≠ .FILE := by
  constructor
  · intro hfile
    refine ⟨hfile c l m rfl (hto.2 rfl), fun p rest j hp hj => ?_⟩
    refine hfile (c ++ slash :: p) rest j (by rw [hp, List.append_assoc, List.cons_append]) ?_
    rw [names_append, leads_append]
    exact ⟨m, hto.2 rfl, hj⟩
  · rintro ⟨hm, hfile⟩ p rest j hp hj
    rcases append_slash_cases hs hp with ⟨rfl, -⟩ | ⟨p', rfl, hl⟩
    · obtain rfl := hto.1 hj
      exact hm
    · rw [names_append, leads_append] at hj
      obtain ⟨m', hm', hj⟩ := hj
      obtain rfl := hto.1 hm'
      exact hfile p' rest j hl hj

/-! ## `parse_path` meets it -/

section Tree
variable {T : Tree} (h : TreeInv s T)
include h

/-- A turn leads to a node in use. -/
theorem TreeInv.kind_of_turn (hi : s.kind i = .FOLDER) (hk : (if c = [] then some i else s.lookup i c) = some k) :
    s.kind k ≠ .EMPTY := by
  split at hk
  · cases hk
    rw [hi]
    decide
  · intro he
    have hf := (h.of_lookup hk).1
    rw [(h.free k he).1] at hf
    cases hf

/-- The walk along the last component of a text. -/
theorem TreeInv.walk_last_iff (hi : s.kind i = .FOLDER) (hs : slash ∉ c) :
    walk s.kind s.lookup i [c] = some k ↔ c.length ≤ MAX_SIZE_NAME ∧ Leads s i (names c) k := by
  rw [leads_of_not_mem hs]
  simp only [walk, if_true]
  by_cases hc : c.length > MAX_SIZE_NAME
  · simp [hc]
  · have hc' : c.length ≤ MAX_SIZE_NAME := by omega
    rw [if_neg hc]
    cases hm : (if c = [] then some i else s.lookup i c) with
    | none => simp
    | some m =>
      have hne := h.kind_of_turn hi hm
      simp [hne, hc']

/-- The walk along the pieces of a text, by its components: on the first `/` of the text, if it has one. -/
theorem TreeInv.walk_splitOn_iff (hi : s.kind i = .FOLDER) (l : List UInt8) :
    walk s.kind s.lookup i (l.splitOn slash) = some k ↔ (∀ c ∈ names l, c.length ≤ MAX_SIZE_NAME) ∧
      Leads s i (names l) k ∧ ∀ p rest j, l = p ++ slash :: rest → Leads s i (names p) j → s.kind j ≠ .FILE := by
  induction hn : l.length using Nat.strong_induction_on generalizing i l with
  | _ n ih =>
    obtain ⟨c, r, rfl, hs, hr⟩ := exists_component l
    have hshort : (∀ d ∈ names c, d.length ≤ MAX_SIZE_NAME) ↔ c.length ≤ MAX_SIZE_NAME := by
      rw [names_of_not_mem hs]
      by_cases hc : c = [] <;> simp [hc]
    rcases hr with rfl | ⟨l, rfl⟩
    · have hnone : ∀ p rest j, c = p ++ slash :: rest → Leads s i (names p) j → s.kind j ≠ .FILE := by
        rintro p rest j rfl
        simp at hs
      rw [List.append_nil, List.splitOn_eq_singleton hs, h.walk_last_iff hi hs, hshort]
      exact and_congr_right fun _ => (and_iff_left hnone).symm
    · have hlen : l.length < n := by
        rw [← hn, List.length_append, List.length_cons]
        omega
      have hturn := fun {k} => leads_of_not_mem (s := s) (i := i) (k := k) hs
      rw [List.splitOn_append_cons_self_of_not_mem hs, names_append, leads_append]
      simp only [walk, List.splitOn_ne_nil, if_false, List.forall_mem_append, hshort]
      by_cases hc : c.length > MAX_SIZE_NAME
      · rw [if_pos hc]
        exact iff_of_false (by simp) fun hall => absurd hall.1.1 (by omega)
      rw [if_neg hc]
      cases hm : (if c = [] then some i else s.lookup i c) with
      | none =>
        refine iff_of_false (by simp) ?_
        rintro ⟨-, ⟨m, hm', -⟩, -⟩
        rw [hturn, hm] at hm'
        cases hm'
      | some m =>
        have hne := h.kind_of_turn hi hm
        have hto : ∀ {j}, Leads s i (names c) j ↔ m = j := fun {j} => by rw [hturn, hm, Option.some.injEq]
        rw [file_ahead_iff hs hto]
        simp only
        constructor
        · intro hw
          split at hw
          · next hk =>
            obtain ⟨hshorts, hleads, hfile⟩ := (ih _ hlen hk l rfl).1 hw
            exact ⟨⟨by omega, hshorts⟩, ⟨m, hto.2 rfl, hleads⟩, by rw [hk]; decide, hfile⟩
          · cases hw
        · rintro ⟨⟨-, hshorts⟩, ⟨m', hm', hleads⟩, hfile', hfile⟩
          obtain rfl := hto.1 hm'
          have hk : s.kind m = .FOLDER := by
            cases hkm : s.kind m with
            | FILE => exact absurd hkm hfile'
            | FOLDER => rfl
            | EMPTY => exact absurd hkm hne
          rw [if_pos hk]
          exact (ih _ hlen hk l rfl).2 ⟨hshorts, hleads, hfile⟩

theorem TreeInv.resolve_iff (path : List UInt8) : s.resolve path = some i ↔ Meaning s path i := by
  unfold State.resolve
  cases path with
  | nil => exact iff_of_false (by simp [charAt, slash]) fun hm => by simpa using hm.absolute
  | cons x l =>
    by_cases hx : x = slash
    · subst hx
      have hslash : charAt (slash :: l) 0 = slash := rfl
      rw [if_pos hslash, State.components, List.drop_one, List.tail_cons, h.walk_splitOn_iff h.root]
      constructor
      · rintro ⟨hshort, hleads, hfile⟩
        refine ⟨rfl, by rwa [names_cons_slash], by rwa [names_cons_slash], fun p rest j hp hj => ?_⟩
        cases p with
        | nil =>
          cases hj
          rw [h.root]
          decide
        | cons y p =>
          obtain ⟨rfl, rfl⟩ := List.cons.inj hp
          rw [names_cons_slash] at hj
          exact hfile p rest j rfl hj
      · intro hm
        have hshort := hm.short
        have hleads := hm.leads
        rw [names_cons_slash] at hshort hleads
        refine ⟨hshort, hleads, fun p rest j hp hj => ?_⟩
        refine hm.file (slash :: p) rest j (by rw [hp, List.cons_append]) ?_
        rwa [names_cons_slash]
    · have hslash : charAt (x :: l) 0 ≠ slash := hx
      rw [if_neg hslash]
      exact iff_of_false (by simp) fun hm => hx (by simpa using hm.absolute)

end Tree

/-- On every path in every reachable state `parse_path` returns, changes the token only, and its result is
the inode the path means, or null when it means none. The root is meant by the runs of slashes. -/
theorem Reachable.parse_path_spec (h : Reachable s) (path : CStr) :
    ∃ r tk, parse_path path.chars s = .ok (r, { s with token := tk }) ∧ (∀ i, r = some i ↔ Meaning s path.chars i) ∧
      (r = some ROOT_INODE ↔ SlashRun path.chars) := by
  have hi := h.invariant
  obtain ⟨T, ht⟩ := hi.tree
  exact ⟨_, _, parse_path_eq ht hi.token path, fun i => ht.resolve_iff path.chars, ht.resolve_root_iff path.chars⟩

/-- The path `//a` after the file `a` was created. -/
theorem parse_path_spec_named : ∃ r tk,
    parse_path (rootName.join nameA).chars (afterCalls [.create_file (some rootName) (some nameA)]) =
      .ok (r, { afterCalls [.create_file (some rootName) (some nameA)] with token := tk }) ∧
    ∀ i, r = some i ↔ Meaning (afterCalls [.create_file (some rootName) (some nameA)]) (rootName.join nameA).chars i := by
  obtain ⟨r, tk, hp, hr, -⟩ := Reachable.parse_path_spec (reachable_afterCalls [.create_file (some rootName) (some nameA)])
    (rootName.join nameA)
  exact ⟨r, tk, hp, hr⟩

end ClbFilesystem
