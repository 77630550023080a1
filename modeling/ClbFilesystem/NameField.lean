import ClbFilesystem.Effect
/-!
# The field of a name

The length check of a creation counts the characters of a name, the field holds
its NUL as well, and `strcpy` stores all of it. So a name of `MAX_SIZE_NAME`
characters is accepted and its NUL goes to `data_block`; from then on the field
has no NUL of its own. Every shorter name stays inside.
-/

namespace ClbFilesystem

open Lib

/-! ## What `strcpy` stores -/

/-- The stores of `strcpy`, as offsets from `dst`, from the `k`-th byte on. -/
def strcpyStores : List UInt8 → Nat → List (Nat × UInt8)
  | [], _ => []
  | c :: src, k => if c ≠ 0 then (k, c) :: strcpyStores src (k + 1) else [(k, 0)]

/-- An object after stores to it. -/
def storeAll (l : List UInt8) (stores : List (Nat × UInt8)) : List UInt8 := stores.foldl (fun l x => l.set x.1 x.2) l

/-- `strcpy` is these stores. -/
theorem strcpy_stores (pre : List UInt8) {dst src r : List UInt8} (h : strcpy dst src = .ok r) :
    pre ++ r = storeAll (pre ++ dst) (strcpyStores src pre.length) := by
  induction src generalizing pre dst r with
  | nil => cases dst <;> cases h
  | cons c src ih => cases dst with
    | nil => cases h
    | cons d dst =>
      have hset : ∀ x, (pre ++ d :: dst).set pre.length x = pre ++ [x] ++ dst := fun x => by simp
      by_cases hc : c = 0
      · simp only [strcpy, hc, ne_eq, not_true_eq_false, if_false, Except.ok.injEq] at h
        subst h
        simp [strcpyStores, storeAll, hc]
      · simp only [strcpy, ne_eq, hc, not_false_eq_true, if_true] at h
        obtain ⟨r', hr', rfl⟩ := map_ok h
        have := ih (pre ++ [c]) hr'
        rw [List.length_append, List.length_singleton, List.append_assoc, List.singleton_append] at this
        rw [this, strcpyStores, if_pos hc]
        simp only [storeAll, List.foldl_cons, hset]

/-- The last store is that of the NUL. -/
theorem strcpyStores_lt_iff {l : List UInt8} (h0 : 0 ∉ l) (k n : Nat) :
    (∀ x ∈ strcpyStores (l ++ [0]) k, x.1 < n) ↔ k + l.length < n := by
  induction l generalizing k with
  | nil => simp [strcpyStores]
  | cons c l ih =>
    simp only [List.mem_cons, not_or] at h0
    simp only [List.cons_append, strcpyStores, ne_eq, Ne.symm h0.1, not_false_eq_true, if_true, List.forall_mem_cons,
      ih h0.2, List.length_cons]
    omega

theorem leBytes_ofLeBytes (l : List UInt8) : leBytes l.length (ofLeBytes l) = l := by
  induction l with
  | nil => rfl
  | cons b l ih =>
    have hb := b.toNat_lt
    have hlow : (b.toNat + 256 * ofLeBytes l) % 256 = b.toNat := by omega
    have hhigh : (b.toNat + 256 * ofLeBytes l) / 256 = ofLeBytes l := by omega
    simp only [ofLeBytes, List.length_cons, leBytes, hlow, hhigh, ih, UInt8.ofNat_toNat]

namespace Inode

variable {n n' : Inode} {name : CStr}

theorem nameRegion_withRegion {l : List UInt8} (hl : l.length = MAX_SIZE_NAME + 8) : (n.withRegion l).nameRegion = l := by
  have hlen : (l.drop MAX_SIZE_NAME).length = 8 := by rw [List.length_drop, hl]; rfl
  have hblock : leBytes 8 (n.withRegion l).data_block = l.drop MAX_SIZE_NAME := by
    rw [← hlen]
    exact leBytes_ofLeBytes _
  rw [nameRegion, n.toList_name_withRegion l hl, hblock, List.take_append_drop]

/-- Setting a name stores it at `name`; offsets from `MAX_SIZE_NAME` on are bytes of `data_block`. -/
theorem setName_stores (h : n.setName name = .ok n') : n'.nameRegion = storeAll n.nameRegion (strcpyStores name.bytes 0) := by
  obtain ⟨r, hr, rfl⟩ := map_ok h
  have hstores := strcpy_stores [] hr
  simp only [List.nil_append, List.length_nil] at hstores
  have hlen : r.length = MAX_SIZE_NAME + 8 := by
    have hkeep : ∀ (stores : List (Nat × UInt8)) (l : List UInt8), (storeAll l stores).length = l.length := by
      intro stores
      induction stores with
      | nil => exact fun _ => rfl
      | cons x stores ih => exact fun l => (ih (l.set x.1 x.2)).trans List.length_set
    rw [hstores, hkeep, length_nameRegion]
  rw [nameRegion_withRegion hlen, hstores]

/-- The field after a name was set, by the length of the name. -/
theorem zero_mem_named (hl : name.chars.length ≤ MAX_SIZE_NAME) (hlow : n.data_block % 256 = 0) :
    0 ∈ (n.named name).name.toList ↔ name.chars.length < MAX_SIZE_NAME := by
  have hfield : (n.named name).name.toList = (n.newRegion name).take MAX_SIZE_NAME :=
    n.toList_name_withRegion _ (length_newRegion hl hlow)
  rw [hfield, newRegion]
  constructor
  · intro h0
    by_contra hge
    rw [List.take_append_of_le_length (by omega)] at h0
    exact name.no_nul (List.mem_of_mem_take h0)
  · intro hlt
    rw [List.take_append, List.mem_append]
    obtain ⟨k, hk⟩ : ∃ k, MAX_SIZE_NAME - name.chars.length = k + 1 := ⟨MAX_SIZE_NAME - name.chars.length - 1, by omega⟩
    exact .inr (by simp [hk])

end Inode

/-! ## One call -/

/-- What `strcpy` stores when the call creates an entry lies in its `name`. -/
def Call.StoresInside (c : Call) (s : State) : Prop :=
  ∀ name d i, c.CreatesAt s name d i → ∀ x ∈ strcpyStores name.bytes 0, x.1 < MAX_SIZE_NAME

/-- Every name ends inside its field. -/
def NamesInside (s : State) : Prop := ∀ i, 0 ∈ (s.inode i).name.toList

/-- The call creates an entry with a name of `MAX_SIZE_NAME` characters. -/
def Call.FillsName (c : Call) (s : State) : Prop := ∃ name d i, c.CreatesAt s name d i ∧ name.chars.length = MAX_SIZE_NAME

theorem Call.storesInside_iff (c : Call) (s : State) : c.StoresInside s ↔ ¬ c.FillsName s := by
  constructor
  · rintro h ⟨name, d, i, hc, hlen⟩
    have := (strcpyStores_lt_iff name.no_nul 0 MAX_SIZE_NAME).1 (h name d i hc)
    omega
  · intro hno name d i hc
    obtain ⟨path, type, -, hn, -⟩ := id hc
    refine (strcpyStores_lt_iff name.no_nul 0 MAX_SIZE_NAME).2 ?_
    have hle := hn.2
    have hne : name.chars.length ≠ MAX_SIZE_NAME := fun hlen => hno ⟨name, d, i, hc, hlen⟩
    omega

section OneStep
variable {s s' : State} {c : Call} {r : Reply}

theorem State.created_name (s : State) (name : CStr) (type : TypeFile) (d i j : Fin FS_NPAGES) :
    ((s.created name type d i).inode j).name = if j = i then ((s.inode j).named name).name else (s.inode j).name := by
  rw [created_inode]
  split <;> rfl

theorem State.removed_name (s : State) (i j : Fin FS_NPAGES) : ((s.removed i).inode j).name = (s.inode j).name := by
  rw [removed_inode]
  split <;> rfl

/-- The names that a call leaves: one new, or all as they were. -/
theorem Effect.name (h : Effect s c r s') : (∃ name d i, c.CreatesAt s name d i ∧ ∀ j, (s'.inode j).name =
    if j = i then ((s.inode j).named name).name else (s.inode j).name) ∨ ∀ j, (s'.inode j).name = (s.inode j).name := by
  cases h with
  | @created c path name type d i hc hn hd hk hf =>
    exact .inl ⟨name, d, i, ⟨path, type, hc, hn, hd, hk, hf⟩, s.created_name name type d i⟩
  | @removed c path i hc hp hr => exact .inr (s.removed_name i)
  | @opened c path type set d i hc hd hp hk => exact .inr fun j => by rw [State.opened_inode]
  | @closed c d clear i hc hd => exact .inr fun j => by rw [State.closed_inode]
  | @wrote c d str len base i hc hstr hf =>
    refine .inr fun j => ?_
    rw [State.written_inode]
    split <;> rfl
  | _ => exact .inr fun _ => rfl

/-- A call keeps the names inside their fields exactly when it does not fill one. -/
theorem Next.namesInside_step {e : Event} (hi : Inv s) (hs : NamesInside s) (h : Next s e s') :
    NamesInside s' ↔ ∀ c r, e = .call c r → ¬ c.FillsName s := by
  obtain ⟨T, ht⟩ := hi.tree
  have hlow : ∀ i, (s.inode i).data_block % 256 = 0 := fun i => by rw [ht.block, pageAddr_eq]; omega
  cases h with
  | user => exact iff_of_true hs fun c r he => by cases he
  | @call c r _ hc =>
    constructor
    · rintro hs' _ _ ⟨⟩ ⟨name, d, i, hcr, hlen⟩
      obtain ⟨tk, type, -, heq⟩ := exec_creates hi hcr
      rw [heq, Except.ok.injEq, Prod.mk.injEq] at hc
      obtain ⟨-, rfl⟩ := hc
      have h0 := hs' i
      rw [State.created_name, if_pos rfl] at h0
      have := (Inode.zero_mem_named (by omega) (hlow i)).1 h0
      omega
    · intro hno
      obtain ⟨tk, -, he⟩ := exec_effect hi hc
      rcases he.name with ⟨name, d, i, hcr, hname⟩ | hname
      · obtain ⟨path, type, hcreates, hn, hp, hk, hf⟩ := hcr
        rw [State.resolve_setToken] at hp
        have hne : name.chars.length ≠ MAX_SIZE_NAME :=
          fun hlen => hno c r rfl ⟨name, d, i, ⟨path, type, hcreates, hn, hp, hk, hf⟩, hlen⟩
        intro j
        rw [hname]
        split
        · have hle := hn.2
          exact (Inode.zero_mem_named hn.2 (hlow j)).2 (by omega)
        · exact hs j
      · intro j
        rw [hname]
        exact hs j

end OneStep

/-! ## Whole runs -/

theorem initial_namesInside (mem : Mem) : NamesInside (initial mem) := by
  intro i
  rw [initial_inode]
  simp only [initialInode]
  split
  · decide
  · decide

/-- In every run the stores of every creation lie in the name of the new entry, and all names end inside their
fields in all states, if and only if no creation fills the field. -/
theorem Runs.namesInside_iff {tr : List (Step State Event)} {s : State} (h : Runs tr s) :
    ((∀ st ∈ tr, ∀ c r, st.event = .call c r → c.StoresInside st.pre) ∧
      ∀ tr' s', tr' <+: tr → Runs tr' s' → NamesInside s') ↔
    ∀ st ∈ tr, ∀ c r, st.event = .call c r → ¬ c.FillsName st.pre := by
  have hnames := h.forall_states_iff NamesInside (fun st => ∀ c r, st.event = .call c r → ¬ c.FillsName st.pre)
    initial_namesInside fun s e s' hr hs hn => hn.namesInside_step hr.invariant hs
  rw [hnames]
  simp only [Call.storesInside_iff, and_self]

/-- `"aaaaaaaaaaaaaaa"`, 15 characters. -/
def longName : CStr := ⟨List.replicate 15 97, by decide⟩

/-- `"aaaaaaaaaaaaaaaa"`, 16 characters. -/
def fullName : CStr := ⟨List.replicate 16 97, by decide⟩

theorem namesInside_long : NamesInside (afterCalls [.create_file (some rootName) (some longName)]) := by
  refine ((Runs.namesInside_iff (runs_calls [.create_file (some rootName) (some longName)]).1).2 ?_).2 _ _
    (List.prefix_refl _) (runs_calls _).1
  rintro st hst c r he ⟨name, d, i, ⟨path, type, hc, -⟩, hlen⟩
  obtain ⟨c', hc', r', he'⟩ := (runs_calls [.create_file (some rootName) (some longName)]).2 st hst
  rw [he] at he'
  cases he'
  obtain rfl := List.mem_singleton.1 hc'
  cases hc
  exact absurd hlen (by decide)

/-- `create_file("/", "aaaaaaaaaaaaaaaa")` at boot. -/
theorem namesInside_fails : ¬ ∀ s, Reachable s →
    NamesInside s ∧ ∀ c r s', exec c s = .ok (r, s') → c.StoresInside s := by
  intro hall
  have hcr : Call.CreatesAt (.create_file (some rootName) (some fullName)) (afterCalls []) fullName ROOT_INODE entry1 :=
    ⟨rootName, .FILE, .create_file, by decide, by decide +kernel, by decide +kernel, by decide +kernel⟩
  obtain ⟨tk, type, -, hex⟩ := exec_creates (reachable_afterCalls []).invariant hcr
  have hin := (hall _ (reachable_afterCalls [])).2 _ _ _ hex
  exact (Call.storesInside_iff _ _).1 hin ⟨fullName, ROOT_INODE, entry1, hcr, by decide⟩

end ClbFilesystem
