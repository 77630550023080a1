import ClbFilesystem.Invariant
/-!
# Path resolution

`walk` is the meaning of a path: take the components one after the other, each
time to the first son of that name. `parse_path_eq` shows that the tokenizer and
the loops of `vfs.c` compute it in every tree of inodes, and change the scratch
token only.
-/

namespace ClbFilesystem

open Lib

/-! ## The meaning of a path -/

section Walk
variable (kind : Fin FS_NPAGES → TypeFile) (find : Fin FS_NPAGES → List UInt8 → InodePtr)

/-- The walk from `cur` along the components of a path, in any naming structure: the type of each
node, and its son of a given name. An empty component stays where it is. -/
def walk : Fin FS_NPAGES → List (List UInt8) → InodePtr
  | _, [] => none
  | cur, c :: cs =>
    if c.length > MAX_SIZE_NAME then none
    else match if c = [] then some cur else find cur c with
      | none => none
      | some i =>
        if cs = [] then if kind i = .EMPTY then none else some i
        else if kind i = .FOLDER then walk i cs else none

variable {kind find} {cur d i : Fin FS_NPAGES} {cs ds : List (List UInt8)}

/-- A path continued after a folder goes on from there. -/
theorem walk_append (h : walk kind find cur cs = some d) (hd : kind d = .FOLDER) (hds : ds ≠ []) :
    walk kind find cur (cs ++ ds) = walk kind find d ds := by
  induction cs generalizing cur with
  | nil => simp [walk] at h
  | cons c cs ih =>
    simp only [walk, List.cons_append, List.append_eq_nil_iff, hds, and_false, if_false] at h ⊢
    by_cases hc : c.length > MAX_SIZE_NAME
    · simp [hc] at h
    · rw [if_neg hc] at h ⊢
      cases hf : (if c = [] then some cur else find cur c) with
      | none => simp [hf] at h
      | some i =>
        simp only [hf] at h ⊢
        by_cases hcs : cs = []
        · subst hcs
          simp only [if_true, ite_eq_iff, reduceCtorEq, and_false, false_or, Option.some.injEq] at h
          obtain ⟨-, rfl⟩ := h
          simp [hd]
        · simp only [hcs, if_false] at h ⊢
          by_cases hi : kind i = .FOLDER
          · rw [if_pos hi] at h ⊢
            exact ih h
          · simp [hi] at h

/-- A walk ends at a node in use. -/
theorem walk_kind (h : walk kind find cur cs = some i) : kind i ≠ .EMPTY := by
  induction cs generalizing cur with
  | nil => simp [walk] at h
  | cons c cs ih =>
    simp only [walk] at h
    split at h
    · cases h
    · split at h
      · cases h
      · split at h
        · split at h
          · cases h
          · next hk => cases h; exact hk
        · split at h
          · exact ih h
          · cases h

/-- A structure that finds what another one finds, and keeps its types, walks every path the other walks. -/
theorem walk_mono {kind' : Fin FS_NPAGES → TypeFile} {find' : Fin FS_NPAGES → List UInt8 → InodePtr}
    (hk : ∀ i, kind i ≠ .EMPTY → kind' i = kind i) (hf : ∀ i c j, find i c = some j → find' i c = some j)
    (h : walk kind find cur cs = some i) : walk kind' find' cur cs = some i := by
  induction cs generalizing cur with
  | nil => simp [walk] at h
  | cons c cs ih =>
    simp only [walk] at h ⊢
    by_cases hc : c.length > MAX_SIZE_NAME
    · simp [hc] at h
    · rw [if_neg hc] at h ⊢
      cases hn : (if c = [] then some cur else find cur c) with
      | none => simp [hn] at h
      | some j =>
        have hn' : (if c = [] then some cur else find' cur c) = some j := by
          by_cases hce : c = []
          · simpa [hce] using hn
          · rw [if_neg hce] at hn ⊢; exact hf _ _ _ hn
        simp only [hn, hn'] at h ⊢
        by_cases hcs : cs = []
        · simp only [hcs, if_true] at h ⊢
          by_cases hj : kind j = .EMPTY
          · simp [hj] at h
          · rw [if_neg hj] at h
            rw [hk j hj, if_neg hj]
            exact h
        · simp only [hcs, if_false] at h ⊢
          by_cases hj : kind j = .FOLDER
          · rw [if_pos hj] at h
            rw [if_pos ((hk j (by rw [hj]; decide)).trans hj)]
            exact ih h
          · simp [hj] at h

/-- A node that no component leads to is not the end of a walk from elsewhere. -/
theorem walk_ne (hf : ∀ i, ∀ c ∈ cs, find i c ≠ some d) (hcur : cur ≠ d) : walk kind find cur cs ≠ some d := by
  induction cs generalizing cur with
  | nil => simp [walk]
  | cons c cs ih =>
    simp only [walk]
    split
    · simp
    · split
      · simp
      · next j hn =>
        have hj : j ≠ d := by
          rintro rfl
          split at hn
          · exact hcur (Option.some.inj hn)
          · exact hf cur c (by simp) hn
        split
        · split
          · simp
          · simpa using hj
        · split
          · exact ih (fun i c hc => hf i c (by simp [hc])) hj
          · simp

end Walk

/-! ## The structure an inode table holds -/

namespace State

/-- The sons of an inode, in the order of their chain. -/
def sons (s : State) (i : Fin FS_NPAGES) : List (Fin FS_NPAGES) :=
  s.links.chainList FS_NPAGES (s.inode i).first_son

/-- The first son of that name. -/
def lookup (s : State) (i : Fin FS_NPAGES) (name : List UInt8) : InodePtr :=
  (s.sons i).find? fun j => (s.inode j).nameOf = name

def kind (s : State) (i : Fin FS_NPAGES) : TypeFile := (s.inode i).type

/-- The components of a path, after its first `/`. -/
def components (path : List UInt8) : List (List UInt8) := (path.drop 1).splitOn slash

/-- The inode a path designates. -/
def resolve (s : State) (path : List UInt8) : InodePtr :=
  if charAt path 0 = slash then walk s.kind s.lookup ROOT_INODE (components path) else none

variable {s s' : State}

theorem kind_congr (h : s'.RAM_inodes_table = s.RAM_inodes_table) : s'.kind = s.kind := by
  funext i
  simp only [kind, inode, h]

theorem lookup_congr (h : s'.RAM_inodes_table = s.RAM_inodes_table) : s'.lookup = s.lookup := by
  funext i name
  simp only [lookup, sons, links, inode, h]
  rfl

theorem resolve_congr (h : s'.RAM_inodes_table = s.RAM_inodes_table) (path : List UInt8) :
    s'.resolve path = s.resolve path := by
  simp only [resolve, kind_congr h, lookup_congr h]

theorem resolve_setToken (s : State) (tk path : List UInt8) : ({ s with token := tk } : State).resolve path = s.resolve path :=
  resolve_congr rfl path

end State

namespace TreeInv

variable {s : State} {T : Tree}

/-- The sons of a node of the tree are the roots of its forest of sons. -/
theorem sons_eq (h : TreeInv s T) {i : Fin FS_NPAGES} {G : Tree} (hG : T.sonsOf i = some G) : s.sons i = G.roots := by
  have hn : G.labels.Nodup := (List.nodup_cons.1 (Forest.nodup_sonsOf h.nodup hG)).2
  have hlen : G.roots.length ≤ FS_NPAGES := by
    simpa using (Forest.nodup_roots hn).length_le_card
  exact (h.sons_threads hG).chain.chainList_eq hlen

/-- Every entry has a chain of sons that ends, and it is the list of its sons. -/
theorem chain_sons (h : TreeInv s T) (i : Fin FS_NPAGES) :
    s.links.Chain (s.inode i).first_son (s.sons i) ∧ (s.sons i).length ≤ FS_NPAGES := by
  by_cases hi : i ∈ T.labels
  · obtain ⟨G, hG⟩ := Forest.exists_sonsOf hi
    have hn : G.labels.Nodup := (List.nodup_cons.1 (Forest.nodup_sonsOf h.nodup hG)).2
    rw [h.sons_eq hG]
    exact ⟨(h.sons_threads hG).chain, by simpa using (Forest.nodup_roots hn).length_le_card⟩
  · have he : (s.inode i).type = .EMPTY := by_contra fun hne => hi ((h.live i).1 hne)
    have hs : s.sons i = [] := by simp [State.sons, (h.free i he).2.2]
    rw [hs, (h.free i he).2.2]
    exact ⟨rfl, Nat.zero_le _⟩

/-- The sons of an inode are the entries with that father. -/
theorem mem_sons (h : TreeInv s T) (i j : Fin FS_NPAGES) : j ∈ s.sons i ↔ (s.inode j).father = some i := by
  constructor
  · intro hj
    by_cases hi : i ∈ T.labels
    · obtain ⟨G, hG⟩ := Forest.exists_sonsOf hi
      rw [h.sons_eq hG] at hj
      exact (h.sons_threads hG).father_of_root j hj
    · have he : (s.inode i).type = .EMPTY := by_contra fun hne => hi ((h.live i).1 hne)
      simp [State.sons, (h.free i he).2.2] at hj
  · intro hf
    have hj : j ∈ T.labels := (h.live j).1 fun he => by simp [(h.free j he).1] at hf
    have hr : j ≠ ROOT_INODE := by rintro rfl; simp [h.root_father] at hf
    obtain ⟨k, hk, G, hfk, hG, hroot⟩ := h.father_spec hj hr
    obtain rfl : k = i := Option.some.inj (hfk.symm.trans hf)
    rw [h.sons_eq hG]
    exact hroot

theorem sons_nodup (h : TreeInv s T) (i : Fin FS_NPAGES) : (s.sons i).Nodup := by
  by_cases hi : i ∈ T.labels
  · obtain ⟨G, hG⟩ := Forest.exists_sonsOf hi
    rw [h.sons_eq hG]
    exact Forest.nodup_roots (List.nodup_cons.1 (Forest.nodup_sonsOf h.nodup hG)).2
  · have he : (s.inode i).type = .EMPTY := by_contra fun hne => hi ((h.live i).1 hne)
    simp [State.sons, (h.free i he).2.2]

/-- A name ends inside its struct: a NUL stands in the field, or in the low byte of `data_block`. -/
theorem zero_mem_nameRegion (h : TreeInv s T) (i : Fin FS_NPAGES) : 0 ∈ (s.inode i).nameRegion := by
  have hlow : pageAddr i % 256 = 0 := by rw [pageAddr_eq]; omega
  simp only [Inode.nameRegion, h.block i, List.mem_append]
  right
  simp [leBytes, hlow]

end TreeInv

/-! ## The tokenizer -/

theorem length_tokenLoop (path token : List UInt8) (k i : Nat) : (tokenLoop path token k i).2.length = token.length := by
  induction k generalizing token i with
  | zero => simp [tokenLoop]
  | succ k ih =>
    simp only [tokenLoop]
    split
    · simp
    · rw [ih]; simp

/-- Where a component ends: at the NUL or at a slash. -/
def AtEnd (r : List UInt8) : Prop := r = [] ∨ ∃ r', r = slash :: r'

theorem AtEnd.charAt {r : List UInt8} (h : AtEnd r) (pre : List UInt8) :
    charAt (pre ++ r) pre.length = 0 ∨ charAt (pre ++ r) pre.length = slash := by
  rcases h with rfl | ⟨r', rfl⟩
  · left; simp [ClbFilesystem.charAt]
  · right; simp [ClbFilesystem.charAt, List.getD_eq_getElem?_getD]

/-- A component short enough is copied into the token and its length returned. -/
theorem tokenLoop_eq {c r : List UInt8} (hs : slash ∉ c) (h0 : 0 ∉ c) (hr : AtEnd r) (pre t : List UInt8) (k : Nat)
    (hk : c.length < k) (ht : c.length < t.length) :
    tokenLoop (pre ++ (c ++ r)) (pre ++ t) k pre.length =
      (((pre.length + c.length : Nat) : Int), pre ++ (c ++ 0 :: t.drop (c.length + 1))) := by
  induction c generalizing pre t k with
  | nil =>
    obtain ⟨k, rfl⟩ : ∃ k', k = k' + 1 := ⟨k - 1, by simp at hk; omega⟩
    obtain ⟨y, t, rfl⟩ : ∃ y t', t = y :: t' := List.exists_cons_of_length_pos (by simpa using ht)
    simp only [tokenLoop, List.nil_append, hr.charAt pre, if_true]
    simp
  | cons x c ih =>
    obtain ⟨k, rfl⟩ : ∃ k', k = k' + 1 := ⟨k - 1, by simp at hk; omega⟩
    obtain ⟨y, t, rfl⟩ : ∃ y t', t = y :: t' := List.exists_cons_of_length_pos (by simp at ht; omega)
    simp only [List.mem_cons, not_or] at hs h0
    have hx : charAt (pre ++ (x :: c ++ r)) pre.length = x := by
      simp [charAt, List.getD_eq_getElem?_getD]
    have := ih hs.2 h0.2 (pre ++ [x]) t k (by simpa using hk) (by simpa using ht)
    simp only [tokenLoop, hx, Ne.symm h0.1, Ne.symm hs.1, or_self, if_false]
    simp only [List.append_assoc, List.singleton_append, List.length_append, List.length_singleton] at this
    simpa [add_assoc, add_comm, add_left_comm] using this

/-- A longer component is refused. -/
theorem tokenLoop_long {c : List UInt8} (hs : slash ∉ c) (h0 : 0 ∉ c) (r pre token : List UInt8) (k : Nat)
    (hk : k ≤ c.length) : (tokenLoop (pre ++ (c ++ r)) token k pre.length).1 = -1 := by
  induction k generalizing c pre token with
  | zero => rfl
  | succ k ih =>
    obtain ⟨x, c, rfl⟩ : ∃ x c', c = x :: c' := List.exists_cons_of_length_pos (by omega)
    simp only [List.mem_cons, not_or] at hs h0
    have hx : charAt (pre ++ (x :: c ++ r)) pre.length = x := by
      simp [charAt, List.getD_eq_getElem?_getD]
    have := ih hs.2 h0.2 (pre ++ [x]) (token.set pre.length x) (by simpa using hk)
    simp only [tokenLoop, hx, Ne.symm h0.1, Ne.symm hs.1, or_self, if_false]
    simpa using this

/-- A path is a component and where it ends. -/
theorem exists_component (path : List UInt8) : ∃ c r, path = c ++ r ∧ slash ∉ c ∧ AtEnd r := by
  by_cases hp : slash ∈ path
  · obtain ⟨c, r, rfl, hc⟩ := List.eq_append_cons_of_mem hp
    exact ⟨c, slash :: r, rfl, hc, .inr ⟨r, rfl⟩⟩
  · exact ⟨path, [], by simp, hp, .inl rfl⟩

theorem get_path_first_token_eq {s : State} (ht : s.token.length = MAX_SIZE_NAME + 1) {c r : List UInt8}
    (hs : slash ∉ c) (h0 : 0 ∉ c) (hr : AtEnd r) (hc : c.length ≤ MAX_SIZE_NAME) :
    get_path_first_token (c ++ r) s = ((c.length : Int), { s with token := c ++ 0 :: s.token.drop (c.length + 1) }) := by
  have h := tokenLoop_eq hs h0 hr [] s.token (MAX_SIZE_NAME + 1) (by omega) (by omega)
  simp only [List.nil_append, List.length_nil, Nat.zero_add] at h
  simp only [get_path_first_token, h]

theorem get_path_first_token_long (s : State) {c : List UInt8} (hs : slash ∉ c) (h0 : 0 ∉ c) (r : List UInt8)
    (hc : MAX_SIZE_NAME < c.length) :
    ∃ tk, tk.length = s.token.length ∧ get_path_first_token (c ++ r) s = (-1, { s with token := tk }) := by
  have h := tokenLoop_long hs h0 r [] s.token (MAX_SIZE_NAME + 1) (by omega)
  simp only [List.nil_append, List.length_nil] at h
  refine ⟨_, length_tokenLoop (c ++ r) s.token (MAX_SIZE_NAME + 1) 0, ?_⟩
  simp only [get_path_first_token, h]

/-! ## The lookup of a son -/

theorem sonLoop_eq {s : State} {T : Tree} (h : TreeInv s T) {c : List UInt8} (h0 : 0 ∉ c) (r : List UInt8)
    {l : List (Fin FS_NPAGES)} {p : InodePtr} (hl : s.links.Chain p l) {k : Nat} (hk : l.length ≤ k) :
    sonLoop (c ++ 0 :: r) s k p = .ok (l.find? fun j => (s.inode j).nameOf = c) := by
  induction l generalizing p k with
  | nil => rw [hl]; cases k <;> rfl
  | cons j l ih =>
    obtain ⟨rfl, hl⟩ := hl
    obtain ⟨k, rfl⟩ : ∃ k', k = k' + 1 := ⟨k - 1, by simp at hk; omega⟩
    obtain ⟨r', hname⟩ := exists_append_nul (h.zero_mem_nameRegion j)
    obtain ⟨d, hd, hiff⟩ := strcmp_eq h0 (zero_not_mem_cstr (s.inode j).nameRegion) r r'
    rw [← hname] at hd
    have hj := ih hl (k := k) (by simpa using hk)
    simp only [State.links] at hj
    simp only [sonLoop, hd, bind, Except.bind, pure, Except.pure, hj, List.find?_cons, Inode.nameOf, hiff]
    by_cases hc : c = cstr (s.inode j).nameRegion
    · simp [← hc]
    · simp [hc, Ne.symm hc]

theorem get_son_inode_eq {s : State} {T : Tree} (h : TreeInv s T) (cur : Fin FS_NPAGES) {c : List UInt8}
    (h0 : 0 ∉ c) (r : List UInt8) : get_son_inode cur (c ++ 0 :: r) s = .ok (s.lookup cur c) :=
  sonLoop_eq h h0 r (h.chain_sons cur).1 (h.chain_sons cur).2

/-! ## The parser -/

/-- One turn of the loop of `parse_path`, on a component short enough: the token holds the component,
the node it leads to is looked up, and what follows decides. -/
theorem parseLoop_step {s : State} {T : Tree} (h : TreeInv s T) (ht : s.token.length = MAX_SIZE_NAME + 1)
    {c r : List UInt8} (hs : slash ∉ c) (h0 : 0 ∉ c) (hr : AtEnd r) (hc : c.length ≤ MAX_SIZE_NAME)
    (k : Nat) (cur : Fin FS_NPAGES) :
    ∃ tk, tk.length = MAX_SIZE_NAME + 1 ∧ parseLoop (k + 1) cur (c ++ r) s =
      match if c = [] then some cur else s.lookup cur c with
      | none => .ok (none, { s with token := tk })
      | some i =>
        if r = [] then .ok (if s.kind i = .EMPTY then none else some i, { s with token := tk })
        else if s.kind i = .FOLDER then parseLoop k i (r.drop 1) { s with token := tk }
        else .ok (none, { s with token := tk }) := by
  refine ⟨c ++ 0 :: s.token.drop (c.length + 1), ?_, ?_⟩
  · simp only [List.length_append, List.length_cons, List.length_drop, ht]; omega
  generalize hs₁ : ({ s with token := c ++ 0 :: s.token.drop (c.length + 1) } : State) = s₁
  have htable : s₁.RAM_inodes_table = s.RAM_inodes_table := by subst hs₁; rfl
  have htoken : s₁.token = c ++ 0 :: s.token.drop (c.length + 1) := by subst hs₁; rfl
  have hnext : charAt (c ++ r) c.length = charAt r 0 := by
    simp only [charAt, List.getD_eq_getElem?_getD]
    rw [List.getElem?_append_right (le_refl _), Nat.sub_self]
  have hdrop : (c ++ r).drop (c.length + 1) = r.drop 1 := by
    rw [List.drop_append, List.drop_of_length_le (by omega)]; simp
  have hson : (if (c.length : Int) > 0 then get_son_inode cur s₁.token s₁ else .ok (some cur)) =
      Except.ok (if c = [] then some cur else s.lookup cur c) := by
    by_cases hce : c = []
    · simp [hce]
    · have hpos : (c.length : Int) > 0 := by have := List.length_pos_iff.2 hce; omega
      rw [if_pos hpos, if_neg hce, htoken, get_son_inode_eq (h.congr htable) cur h0, State.lookup_congr htable]
  have hkind : ∀ i, (s₁.inode i).type = s.kind i := fun i => by simp only [State.kind, State.inode, htable]
  simp only [parseLoop, get_path_first_token_eq ht hs h0 hr hc, hs₁, hson, bind, Except.bind, pure, Except.pure,
    if_neg (show ¬ (c.length : Int) < 0 by omega), Int.toNat_natCast, hnext, hdrop, hkind]
  cases (if c = [] then some cur else s.lookup cur c) with
  | none => rfl
  | some i =>
    rcases hr with rfl | ⟨r', rfl⟩
    · have hend : charAt [] 0 = 0 := rfl
      simp only [hend, if_true]
      cases s.kind i <;> rfl
    · have hslash : charAt (slash :: r') 0 ≠ 0 := show slash ≠ 0 by decide
      simp only [hslash, ne_eq, not_false_eq_true, if_true, if_false, reduceCtorEq]
      cases s.kind i <;> rfl

/-- The loop of `parse_path` walks the components of what is left of the path. -/
theorem parseLoop_eq {T : Tree} (k : Nat) (cur : Fin FS_NPAGES) (path : List UInt8) (s : State) (h : TreeInv s T)
    (ht : s.token.length = MAX_SIZE_NAME + 1) (h0 : 0 ∉ path) (hk : path.length < k) :
    ∃ tk, tk.length = MAX_SIZE_NAME + 1 ∧
      parseLoop k cur path s = .ok (walk s.kind s.lookup cur (path.splitOn slash), { s with token := tk }) := by
  induction k generalizing cur path s with
  | zero => omega
  | succ k ih =>
    obtain ⟨c, r, rfl, hs, hr⟩ := exists_component path
    simp only [List.mem_append, not_or] at h0
    obtain ⟨rest, hsplit, hrest⟩ : ∃ rest, (c ++ r).splitOn slash = c :: rest ∧
        (r = [] ∧ rest = [] ∨ r ≠ [] ∧ rest = (r.drop 1).splitOn slash) := by
      rcases hr with rfl | ⟨r', rfl⟩
      · exact ⟨[], by rw [List.append_nil, List.splitOn_eq_singleton hs], .inl ⟨rfl, rfl⟩⟩
      · exact ⟨r'.splitOn slash, List.splitOn_append_cons_self_of_not_mem hs r', .inr ⟨by simp, rfl⟩⟩
    by_cases hc : c.length ≤ MAX_SIZE_NAME
    · obtain ⟨tk, htk, hp⟩ := parseLoop_step h ht hs h0.1 hr hc k cur
      rw [hp, hsplit]
      simp only [walk, if_neg (show ¬ c.length > MAX_SIZE_NAME by omega)]
      cases (if c = [] then some cur else s.lookup cur c) with
      | none => exact ⟨tk, htk, rfl⟩
      | some i =>
        rcases hrest with ⟨rfl, rfl⟩ | ⟨hrne, rfl⟩
        · exact ⟨tk, htk, by simp⟩
        · simp only [hrne, if_false, List.splitOn_ne_nil]
          by_cases hi : s.kind i = .FOLDER
          · have hlen : (r.drop 1).length < k := by
              have := List.length_pos_iff.2 hrne
              simp only [List.length_append, List.length_drop] at hk ⊢
              omega
            have h0' : 0 ∉ r.drop 1 := fun hm => h0.2 (List.mem_of_mem_drop hm)
            obtain ⟨tk', htk', hp'⟩ := ih i (r.drop 1) { s with token := tk } (h.congr rfl) htk h0' hlen
            refine ⟨tk', htk', ?_⟩
            have hkind : ({ s with token := tk } : State).kind = s.kind := State.kind_congr rfl
            have hlookup : ({ s with token := tk } : State).lookup = s.lookup := State.lookup_congr rfl
            rw [hkind, hlookup] at hp'
            simp only [hi, if_true, hp']
          · exact ⟨tk, htk, by simp [hi]⟩
    · obtain ⟨tk, htk, hp⟩ := get_path_first_token_long s hs h0.1 r (by omega)
      refine ⟨tk, htk.trans ht, ?_⟩
      rw [hsplit]
      simp only [parseLoop, hp, walk, bind, Except.bind, pure, Except.pure]
      rw [if_pos (by omega), if_pos (by omega)]

/-- The token that `parse_path` leaves. -/
def State.tokenAfter (s : State) (path : List UInt8) : List UInt8 :=
  match parse_path path s with
  | .ok (_, t) => t.token
  | .error _ => s.token

theorem parse_path_token {s : State} {T : Tree} (h : TreeInv s T) (ht : s.token.length = MAX_SIZE_NAME + 1) (path : CStr) :
    ∃ tk, tk.length = MAX_SIZE_NAME + 1 ∧
      parse_path path.chars s = .ok (s.resolve path.chars, { s with token := tk }) := by
  by_cases hp : charAt path.chars 0 = slash
  · have h0 : 0 ∉ path.chars.drop 1 := fun hm => path.no_nul (List.mem_of_mem_drop hm)
    obtain ⟨tk, htk, hl⟩ := parseLoop_eq (path.chars.length + 1) ROOT_INODE (path.chars.drop 1) s h ht h0
      (by simp only [List.length_drop]; omega)
    refine ⟨tk, htk, ?_⟩
    simp only [parse_path, State.resolve, State.components, hp, ne_eq, not_true_eq_false, if_false, if_true, hl]
  · refine ⟨s.token, ht, ?_⟩
    simp only [parse_path, State.resolve, ne_eq, hp, not_false_eq_true, if_true, if_false]

/-- `parse_path` returns the inode the path designates, and changes the token only. -/
theorem parse_path_eq {s : State} {T : Tree} (h : TreeInv s T) (ht : s.token.length = MAX_SIZE_NAME + 1) (path : CStr) :
    parse_path path.chars s = .ok (s.resolve path.chars, { s with token := s.tokenAfter path.chars }) := by
  obtain ⟨tk, -, hp⟩ := parse_path_token h ht path
  unfold State.tokenAfter
  simp only [hp]

theorem length_tokenAfter {s : State} {T : Tree} (h : TreeInv s T) (ht : s.token.length = MAX_SIZE_NAME + 1) (path : CStr) :
    (s.tokenAfter path.chars).length = MAX_SIZE_NAME + 1 := by
  obtain ⟨tk, htk, hp⟩ := parse_path_token h ht path
  unfold State.tokenAfter
  simp only [hp, htk]

end ClbFilesystem
