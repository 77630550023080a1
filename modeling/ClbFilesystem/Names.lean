import ClbFilesystem.Paths
/-!
# Names in a folder

Nothing compares a new name with those in the folder. A lookup takes the first
son of the name, and a new entry comes last, so an entry under a name that is
taken can be neither opened nor deleted while the first one is there. The names
in a folder differ all along a run if and only if no creation takes a taken one.
-/

namespace ClbFilesystem

open Lib

/-- No two entries in use with the same father have the same name. -/
def UniqueNames (s : State) : Prop :=
  ∀ i j, (s.inode i).type ≠ .EMPTY → (s.inode j).type ≠ .EMPTY → (s.inode i).father = (s.inode j).father →
    (s.inode i).nameOf = (s.inode j).nameOf → i = j

/-- The folder has an entry of that name. -/
def State.Taken (s : State) (d : Fin FS_NPAGES) (name : List UInt8) : Prop :=
  ∃ k, (s.inode k).father = some d ∧ (s.inode k).nameOf = name

/-- The step creates an entry under a name that is taken. -/
def Duplicates (st : Step State Event) : Prop :=
  ∃ c r name d i, st.event = .call c r ∧ c.CreatesAt st.pre name d i ∧ st.pre.Taken d name.chars

section OneStep
variable {s s' : State} {c : Call} {r : Reply}

theorem State.created_father (s : State) (name : CStr) (type : TypeFile) (d i j : Fin FS_NPAGES) :
    ((s.created name type d i).inode j).father = if j = i then some d else (s.inode j).father := by
  rw [created_inode]
  rfl

/-- Entries that stay in use keep their fathers and names. -/
theorem UniqueNames.keep (hu : UniqueNames s) (h : ∀ i, (s'.inode i).type ≠ .EMPTY → (s.inode i).type ≠ .EMPTY ∧
    (s'.inode i).father = (s.inode i).father ∧ (s'.inode i).nameOf = (s.inode i).nameOf) : UniqueNames s' := by
  intro i j hi hj hf hn
  obtain ⟨hi', hfi, hni⟩ := h i hi
  obtain ⟨hj', hfj, hnj⟩ := h j hj
  rw [hfi, hfj] at hf
  rw [hni, hnj] at hn
  exact hu i j hi' hj' hf hn

theorem TreeInv.created_unique {T : Tree} (h : TreeInv s T) (hu : UniqueNames s) {name : CStr} {type : TypeFile}
    {d i : Fin FS_NPAGES} (hl : name.chars.length ≤ MAX_SIZE_NAME) (hnew : ¬ s.Taken d name.chars) :
    UniqueNames (s.created name type d i) := by
  have hold : ∀ j, j ≠ i → ((s.created name type d i).inode j).type ≠ .EMPTY → (s.inode j).type ≠ .EMPTY := by
    intro j hj ht
    rwa [State.created_type, if_neg hj] at ht
  intro j k hj hk hf hn
  rw [State.created_father, State.created_father] at hf
  rw [h.created_nameOf hl, h.created_nameOf hl] at hn
  by_cases hji : j = i <;> by_cases hki : k = i
  · rw [hji, hki]
  · rw [if_pos hji, if_neg hki] at hf hn
    exact absurd ⟨k, hf.symm, hn.symm⟩ hnew
  · rw [if_neg hji, if_pos hki] at hf hn
    exact absurd ⟨j, hf, hn⟩ hnew
  · rw [if_neg hji, if_neg hki] at hf hn
    exact hu j k (hold j hji hj) (hold k hki hk) hf hn

theorem Effect.uniqueNames (hi : Inv s) (h : Effect s c r s') (hu : UniqueNames s) (hno : ¬ Duplicates ⟨s, .call c r, s'⟩) :
    UniqueNames s' := by
  obtain ⟨T, ht⟩ := hi.tree
  cases h.treeStep with
  | @created path name type d i hc hn hd hk hf =>
    exact ht.created_unique hu hn.2
      fun htaken => hno ⟨c, _, name, d, i, rfl, ⟨path, type, hc, hn, hd, hk, hf⟩, htaken⟩
  | @removed path i hc hp hr =>
    apply hu.keep
    intro j hj
    rw [State.removed_type] at hj
    split at hj
    · exact absurd rfl hj
    · next hin =>
      rw [State.removed_inode, if_neg hin]
      exact ⟨hj, rfl, rfl⟩
  | kept hlinks hsame =>
    apply hu.keep
    intro j hj
    obtain ⟨hkind, hname⟩ := hsame j
    unfold State.kind at hkind
    rw [hkind] at hj
    exact ⟨hj, congrFun (congrArg Links.father hlinks) j, hname⟩

/-- A step keeps the names apart unless it creates an entry under a name that is taken. -/
theorem Next.uniqueNames_step {e : Event} (hi : Inv s) (hu : UniqueNames s) (h : Next s e s') :
    UniqueNames s' ↔ ¬ Duplicates ⟨s, e, s'⟩ := by
  obtain ⟨T, ht⟩ := hi.tree
  cases h with
  | user =>
    apply iff_of_true (hu.keep fun j hj => ⟨hj, rfl, rfl⟩)
    rintro ⟨c, r, name, d, i, he, -⟩
    cases he
  | @call c r s' hc =>
    constructor
    · rintro hu' ⟨c, r, name, d, i, he, hcr, k, hkf, hkn⟩
      cases he
      obtain ⟨tk, type, htype, heq⟩ := exec_creates hi hcr
      obtain ⟨path, _, -, hn, -, -, hf⟩ := hcr
      rw [heq, Except.ok.injEq, Prod.mk.injEq] at hc
      obtain ⟨-, rfl⟩ := hc
      have hempty := (State.freeEntry_eq_some.1 hf).1
      have hki : k ≠ i := by
        rintro rfl
        dsimp only at hkf
        rw [(ht.free k hempty).1] at hkf
        cases hkf
      have ht' := ht.setToken tk
      refine hki (hu' k i ?_ ?_ ?_ ?_)
      · rw [State.created_type, if_neg hki]
        intro he
        dsimp only at hkf
        rw [(ht.free k he).1] at hkf
        cases hkf
      · rw [State.created_type, if_pos rfl]
        exact htype
      · rw [State.created_father, State.created_father, if_neg hki, if_pos rfl]
        exact hkf
      · rw [ht'.created_nameOf hn.2, ht'.created_nameOf hn.2, if_neg hki, if_pos rfl]
        exact hkn
    · intro hno
      obtain ⟨tk, htk, he⟩ := exec_effect hi hc
      exact he.uniqueNames (hi.congr htk) hu hno

end OneStep

/-! ## What a path finds -/

section Lookup
variable {s : State} {T : Tree} (h : TreeInv s T)
include h

theorem TreeInv.taken_iff (d : Fin FS_NPAGES) (name : List UInt8) : s.Taken d name ↔ s.lookup d name ≠ none := by
  constructor
  · rintro ⟨k, hf, hn⟩ hnone
    unfold State.lookup at hnone
    have := List.find?_eq_none.1 hnone k ((h.mem_sons d k).2 hf)
    simp [hn] at this
  · intro hne
    obtain ⟨k, hk⟩ := Option.ne_none_iff_exists'.1 hne
    exact ⟨k, h.of_lookup hk⟩

/-- Where names are unique, a name in a folder designates its only entry of that name. -/
theorem TreeInv.lookup_iff (hu : UniqueNames s) (d : Fin FS_NPAGES) (name : List UInt8) (j : Fin FS_NPAGES) :
    s.lookup d name = some j ↔ (s.inode j).father = some d ∧ (s.inode j).nameOf = name := by
  refine ⟨h.of_lookup, fun ⟨hf, hn⟩ => ?_⟩
  obtain ⟨k, hk⟩ := Option.ne_none_iff_exists'.1 ((h.taken_iff d name).1 ⟨j, hf, hn⟩)
  obtain ⟨hkf, hkn⟩ := h.of_lookup hk
  have inUse : ∀ {i}, (s.inode i).father = some d → (s.inode i).type ≠ .EMPTY := by
    intro i hi he
    rw [(h.free i he).1] at hi
    cases hi
  rw [hk, hu k j (inUse hkf) (inUse hf) (hkf.trans hf.symm) (hkn.trans hn.symm)]

end Lookup

/-! ## What openings and deletions act on -/

/-- The path leads to inode `j`: deletions through it remove `j`, openings of its type open it in the first free slot. -/
structure ActsThrough (s : State) (path : CStr) (j : Fin FS_NPAGES) : Prop where
  designates : ∀ k, Designates s path k ↔ k = j
  deletes : ∀ c, Call.Deletes c path →
    ∃ tk, exec c s = .ok ({ ret := .error .VFS_OK }, ({ s with token := tk } : State).removed j)
  opens : ∀ c set slot, Call.Opens c path (s.inode j).type set → s.freeSlot = some slot →
    ∃ tk, exec c s = .ok ({ ret := .error .VFS_OK, fd := some (slot.val : Int) }, ({ s with token := tk } : State).opened set slot j)

theorem Inv.actsThrough {s : State} (hi : Inv s) {path : CStr} {j : Fin FS_NPAGES} (hp : s.resolve path.chars = some j)
    (hr : j ≠ ROOT_INODE) : ActsThrough s path j where
  designates k := by
    rw [hi.designates_iff, hp, Option.some.injEq]
    exact eq_comm
  deletes c hc := ⟨_, (exec_deletes hi hc hp).trans (if_neg hr)⟩
  opens c set slot hc hd := ⟨_, exec_opens hi hc hd hp rfl⟩

/-- Where names are unique, the path of a folder and a name without `/` lead to the only entry of that name. -/
theorem Reachable.actsThrough {s : State} (h : Reachable s) (hu : UniqueNames s) {path name : CStr} {d j : Fin FS_NPAGES}
    (hd : Designates s path d) (hs : slash ∉ name.chars) (hf : (s.inode j).father = some d)
    (hn : (s.inode j).nameOf = name.chars) : ActsThrough s (path.join name) j := by
  have hi := h.invariant
  obtain ⟨T, ht⟩ := hi.tree
  have hj : s.kind j ≠ .EMPTY := by
    intro he
    rw [(ht.free j he).1] at hf
    cases hf
  have hd' : s.kind d = .FOLDER := ht.folder_of_father hf
  have hlong : ¬ name.chars.length > MAX_SIZE_NAME := by
    have := ht.length_nameOf j
    rw [hn] at this
    omega
  have hne : name.chars ≠ [] := hn ▸ h.nameOf_ne_nil hj
  apply hi.actsThrough
  · have hres : s.resolve path.chars = some d := (hi.designates_iff path d).1 hd
    show s.resolve (path.chars ++ slash :: name.chars) = some j
    rw [State.resolve_join hres hd', List.splitOn_eq_singleton hs]
    simp [walk, hlong, hne, (ht.lookup_iff hu d name.chars j).2 ⟨hf, hn⟩, hj]
  · rintro rfl
    rw [ht.root_father] at hf
    cases hf

/-- A creation under a taken name goes through; the entry comes last in the folder, and every lookup finds what it found. -/
theorem exec_shadowed {s : State} (hi : Inv s) {c : Call} {name : CStr} {d i : Fin FS_NPAGES} (hc : c.CreatesAt s name d i)
    (htaken : s.Taken d name.chars) : ∃ s', exec c s = .ok ({ ret := .error .VFS_OK }, s') ∧
      s'.sons d = s.sons d ++ [i] ∧ (s'.inode i).father = some d ∧ (s'.inode i).nameOf = name.chars ∧
      ∀ e n, s'.lookup e n = s.lookup e n := by
  obtain ⟨T, ht⟩ := hi.tree
  obtain ⟨tk, type, htype, hex⟩ := exec_creates hi hc
  obtain ⟨path, _, -, hn, -, hk, hf⟩ := hc
  have ht' := ht.setToken tk
  have hempty := (State.freeEntry_eq_some.1 hf).1
  refine ⟨_, hex, ?_, ?_, ?_, fun e n => ?_⟩
  · rw [ht'.created_sons hk hempty htype, if_pos rfl]
    rfl
  · rw [State.created_father, if_pos rfl]
  · rw [ht'.created_nameOf hn.2, if_pos rfl]
  · rw [ht'.created_lookup hn.2 hk hempty htype]
    have hsame : ({ s with token := tk } : State).lookup e n = s.lookup e n := congrFun (congrFun (State.lookup_congr rfl) e) n
    rw [hsame]
    by_cases hen : e = d ∧ name.chars = n
    · obtain ⟨rfl, rfl⟩ := hen
      obtain ⟨k, hk⟩ := Option.ne_none_iff_exists'.1 ((ht.taken_iff e name.chars).1 htaken)
      rw [hk]
      rfl
    · rw [if_neg hen, Option.or_none]

/-- In every run sibling names are unique in all states if and only if no creation takes a name that is taken.
Where they are, a name in a folder designates its only entry of that name, and openings and deletions through the
folder's path and that name act on it; a creation under a taken name goes through in any case, its entry comes last,
and every lookup is as it was. -/
theorem Runs.uniqueNames_iff {tr : List (Step State Event)} {s : State} (h : Runs tr s) :
    ((∀ tr' s', tr' <+: tr → Runs tr' s' → UniqueNames s') ↔ ∀ st ∈ tr, ¬ Duplicates st) ∧
    (UniqueNames s → (∀ d name j, s.lookup d name = some j ↔ (s.inode j).father = some d ∧ (s.inode j).nameOf = name) ∧
      ∀ path name d j, Designates s path d → slash ∉ name.chars → (s.inode j).father = some d →
        (s.inode j).nameOf = name.chars → ActsThrough s (path.join name) j) ∧
    ∀ c name d i, Call.CreatesAt c s name d i → s.Taken d name.chars →
      ∃ s', exec c s = .ok ({ ret := .error .VFS_OK }, s') ∧ s'.sons d = s.sons d ++ [i] ∧ (s'.inode i).father = some d ∧
        (s'.inode i).nameOf = name.chars ∧ ∀ e n, s'.lookup e n = s.lookup e n := by
  have hr : Reachable s := ⟨tr, h⟩
  have hi := hr.invariant
  obtain ⟨T, ht⟩ := hi.tree
  refine ⟨?_, fun hu => ⟨ht.lookup_iff hu, fun _ _ _ _ => hr.actsThrough hu⟩, fun c name d i hc htaken => exec_shadowed hi hc htaken⟩
  refine h.forall_states_iff UniqueNames (fun st => ¬ Duplicates st) (fun mem => ?_)
    fun s e s' hr hu hn => hn.uniqueNames_step hr.invariant hu
  -- At boot only the root is in use.
  have root : ∀ k, ((initial mem).inode k).type ≠ .EMPTY → k = ROOT_INODE := by
    intro k hk
    by_contra hne
    exact hk (by simp [initial_inode, initialInode, hne])
  intro i j hi hj _ _
  rw [root i hi, root j hj]

/-- The file `a` is created in the root, opened, and `b` is deleted. -/
def oneName : List Call := [.create_file (some rootName) (some nameA),
  .open_file (some pathA) (some 0), .delete_file (some pathB)]

/-- The event is a creation. -/
def Event.creates : Event → Bool
  | .call (.create_file ..) _ | .call (.create_dir ..) _ => true
  | _ => false

theorem uniqueNames_oneName : UniqueNames (afterCalls oneName) ∧ ActsThrough (afterCalls oneName) (rootName.join nameA) entry1 := by
  have hiff := Runs.uniqueNames_iff (runs_calls oneName).1
  have hu : UniqueNames (afterCalls oneName) := by
    refine hiff.1.2 ?_ _ _ (List.prefix_refl _) (runs_calls oneName).1
    rintro st hst ⟨c, r, name, d, i, he, ⟨path, type, hc, hn, hd, hk, hf⟩, k, hkf, hkn⟩
    -- Only the first step creates, and no entry has a father before it.
    have hfirst : ∀ st ∈ (runCalls oneName).1, st.event.creates = true → ∀ k, (st.pre.inode k).father = none := by
      decide +kernel
    rw [hfirst st hst (by rw [he]; cases hc <;> rfl) k] at hkf
    cases hkf
  refine ⟨hu, (hiff.2.1 hu).2 rootName nameA ROOT_INODE entry1 ?_ (by decide) (by decide +kernel) (by decide +kernel)⟩
  exact ((reachable_afterCalls oneName).invariant.designates_iff _ _).2 (by decide +kernel)

/-- A file and a directory of the same name in the root. -/
theorem uniqueNames_fails : ¬ ∀ s, Reachable s → UniqueNames s := by
  intro hall
  have hu := hall _ (reachable_afterCalls [.create_file (some rootName) (some nameA),
    .create_dir (some rootName) (some nameA)])
  exact absurd (hu entry1 entry2 (by decide +kernel) (by decide +kernel) (by decide +kernel)
    (by decide +kernel)) (by decide)

end ClbFilesystem
