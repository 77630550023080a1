import ClbFilesystem.Resolve
/-!
# Creation

`alloc_inode` takes the first `EMPTY` entry and links it behind the last son of
the folder: in terms of the pointers it is `Links.link`, in terms of the tree a
new last leaf. `State.created` is the table it leaves. A name of
`MAX_SIZE_NAME` characters puts its NUL into `data_block`, whose low byte is 0.
-/

namespace ClbFilesystem

open Lib

/-! ## The name of a new entry -/

namespace Inode

variable (n : Inode) (name : CStr)

/-- The bytes from `name` on after `strcpy(n.name, name)`. -/
def newRegion : List UInt8 := name.chars ++ 0 :: n.nameRegion.drop (name.chars.length + 1)

/-- The inode after `strcpy(n.name, name)`. -/
def named : Inode := { n with name := (n.withRegion (n.newRegion name)).name }

variable {n name} (hl : name.chars.length ≤ MAX_SIZE_NAME) (hlow : n.data_block % 256 = 0)
include hl hlow

/-- The NUL of a name that fills the field falls on a byte that is 0 already. -/
theorem drop_newRegion : (n.newRegion name).drop MAX_SIZE_NAME = leBytes 8 n.data_block := by
  unfold newRegion
  rcases Nat.lt_or_eq_of_le hl with hlt | heq
  · have hk : MAX_SIZE_NAME - name.chars.length = MAX_SIZE_NAME - (name.chars.length + 1) + 1 := by omega
    rw [List.drop_append, List.drop_of_length_le hl, hk, List.nil_append, List.drop_succ_cons, List.drop_drop,
      show name.chars.length + 1 + (MAX_SIZE_NAME - (name.chars.length + 1)) = MAX_SIZE_NAME by omega]
    exact n.drop_nameRegion
  · have hdrop := congrArg (List.drop 1) n.drop_nameRegion
    rw [List.drop_drop] at hdrop
    rw [heq, hdrop, ← heq, List.drop_left]
    simp [leBytes, hlow]

theorem length_newRegion : (n.newRegion name).length = MAX_SIZE_NAME + 8 := by
  have h := congrArg List.length (drop_newRegion hl hlow)
  simp only [List.length_drop, length_leBytes] at h
  omega

theorem nameRegion_named : (n.named name).nameRegion = n.newRegion name := by
  have htake := n.toList_name_withRegion _ (length_newRegion hl hlow)
  unfold nameRegion named
  rw [htake, ← drop_newRegion hl hlow, List.take_append_drop]

theorem setName_eq (hhigh : n.data_block < 2 ^ 64) : n.setName name = .ok (n.named name) := by
  have hlen : name.chars.length < n.nameRegion.length := by rw [length_nameRegion]; omega
  have hblock : ofLeBytes ((n.newRegion name).drop MAX_SIZE_NAME) = n.data_block := by
    rw [drop_newRegion hl hlow, ofLeBytes_leBytes]
    exact Nat.mod_eq_of_lt hhigh
  unfold setName
  rw [strcpy_eq name _ hlen]
  simp only [Except.map, named, withRegion, newRegion] at hblock ⊢
  rw [hblock]

omit hl hlow in
/-- The name lies in the last two fields. -/
theorem nameOf_congr {m : Inode} (hn : n.name = m.name) (hb : n.data_block = m.data_block) : n.nameOf = m.nameOf := by
  simp only [nameOf, nameRegion, hn, hb]

/-- The name of the entry is the one given. -/
theorem nameOf_named : (n.named name).nameOf = name.chars := by
  unfold nameOf
  rw [nameRegion_named hl hlow]
  exact cstr_append_nul name.no_nul _

end Inode

/-! ## The new table -/

namespace State

/-- The table with other pointers. -/
def relink (s : State) (L : Links (Fin FS_NPAGES)) : State :=
  { s with RAM_inodes_table := fun i =>
      { s.inode i with father := L.father i, brother := L.brother i, first_son := L.first_son i } }

theorem relink_inode (s : State) (L : Links (Fin FS_NPAGES)) (i : Fin FS_NPAGES) : (s.relink L).inode i =
    { s.inode i with father := L.father i, brother := L.brother i, first_son := L.first_son i } := rfl

/-- The first `EMPTY` entry. -/
def freeEntry (s : State) : InodePtr := (List.finRange FS_NPAGES).find? fun i => (s.inode i).type = .EMPTY

/-- Entry `i` is a new `type` with that name, the last son of `d`. -/
def created (s : State) (name : CStr) (type : TypeFile) (d i : Fin FS_NPAGES) : State :=
  (s.modInode i fun n => { n.named name with type := type }).relink (s.links.link d i)

variable (s : State) (name : CStr) (type : TypeFile) (d i j : Fin FS_NPAGES)

@[simp] theorem created_links : (s.created name type d i).links = s.links.link d i := rfl
@[simp] theorem created_mem : (s.created name type d i).mem = s.mem := rfl
@[simp] theorem created_slot (e : Fin MAX_OPEN_FILES) : (s.created name type d i).slot e = s.slot e := rfl
@[simp] theorem created_token : (s.created name type d i).token = s.token := rfl

theorem created_inode : (s.created name type d i).inode j =
    { (if j = i then { (s.inode j).named name with type := type } else s.inode j) with
      father := (s.links.link d i).father j, brother := (s.links.link d i).brother j,
      first_son := (s.links.link d i).first_son j } := by
  rw [← modInode_inode s i j fun n => { n.named name with type := type }]
  rfl

theorem created_type : ((s.created name type d i).inode j).type = if j = i then type else (s.inode j).type := by
  rw [created_inode]
  split <;> rfl

@[simp] theorem created_size : ((s.created name type d i).inode j).size = (s.inode j).size := by
  rw [created_inode]
  split
  · simp only [Inode.named]
  · rfl

@[simp] theorem created_ref : ((s.created name type d i).inode j).ref = (s.inode j).ref := by
  rw [created_inode]
  split
  · simp only [Inode.named]
  · rfl

@[simp] theorem created_id : ((s.created name type d i).inode j).id = (s.inode j).id := by
  rw [created_inode]
  split
  · simp only [Inode.named]
  · rfl

@[simp] theorem created_data_block : ((s.created name type d i).inode j).data_block = (s.inode j).data_block := by
  rw [created_inode]
  split
  · simp only [Inode.named]
  · rfl

/-- The entry taken is the first one free. -/
theorem freeEntry_eq_some {s : State} {i : Fin FS_NPAGES} :
    s.freeEntry = some i ↔ (s.inode i).type = .EMPTY ∧ ∀ j < i, (s.inode j).type ≠ .EMPTY := by
  unfold freeEntry
  rw [← Fin.find?_eq_find?_finRange, Fin.find?_eq_some_iff]
  simp

theorem freeEntry_eq_none {s : State} : s.freeEntry = none ↔ ∀ i, (s.inode i).type ≠ .EMPTY := by
  simp [freeEntry]

end State

/-! ## `alloc_inode` -/

theorem lastBrother_eq {s : State} {l : List (Fin FS_NPAGES)} {cur last : Fin FS_NPAGES}
    (hl : s.links.Chain (some cur) l) (hlast : l.getLast? = some last) {k : Nat} (hk : l.length ≤ k) :
    lastBrother s k cur = .ok last := by
  induction l generalizing cur k with
  | nil => simp at hlast
  | cons j l ih =>
    obtain ⟨hj, hl⟩ := hl
    cases hj
    obtain ⟨k, rfl⟩ : ∃ k', k = k' + 1 := ⟨k - 1, by simp at hk; omega⟩
    unfold lastBrother
    cases l with
    | nil =>
      have hb : (s.inode j).brother = none := hl
      rw [hb]
      simpa using hlast
    | cons b l =>
      have hb : (s.inode j).brother = some b := hl.1
      rw [hb]
      rw [List.getLast?_cons_cons] at hlast
      exact ih (hb ▸ hl) hlast (by simpa using hk)

theorem find_last_child_eq {s : State} {d : Fin FS_NPAGES} {l : List (Fin FS_NPAGES)}
    (hl : s.links.Chain (s.inode d).first_son l) (hk : l.length ≤ FS_NPAGES) :
    find_last_child (some d) s = .ok (match l.getLast? with | none => -1 | some b => (s.inode b).id) := by
  unfold find_last_child
  cases l with
  | nil =>
    have hnone : (s.inode d).first_son = none := hl
    simp [hnone]
  | cons j l =>
    have hj : (s.inode d).first_son = some j := hl.1
    obtain ⟨b, hb⟩ := Option.ne_none_iff_exists'.1 (show (j :: l).getLast? ≠ none by simp)
    rw [hj] at hl
    simp only [hj, lastBrother_eq hl hb hk, hb]
    rfl

/-- The last son of a folder is its son without brother. -/
theorem TreeInv.last_iff {s : State} {T : Tree} (h : TreeInv s T) (d j : Fin FS_NPAGES) :
    (s.inode j).father = some d ∧ (s.inode j).brother = none ↔ (s.sons d).getLast? = some j := by
  have hbrother : j ∈ s.sons d → ((s.inode j).brother = none ↔ (s.sons d).getLast? = some j) :=
    (h.chain_sons d).1.brother_eq_none_iff (h.sons_nodup d)
  rw [← h.mem_sons d j]
  constructor
  · rintro ⟨hj, hb⟩
    exact (hbrother hj).1 hb
  · intro hlast
    have hj := List.mem_of_getLast? hlast
    exact ⟨hj, (hbrother hj).2 hlast⟩

/-- `alloc_inode` for a folder: full, or the new table. -/
theorem alloc_inode_eq {s : State} {T : Tree} (h : TreeInv s T) {name : CStr} (hl : name.chars.length ≤ MAX_SIZE_NAME)
    {d : Fin FS_NPAGES} (hd : (s.inode d).type = .FOLDER) (type : TypeFile) :
    alloc_inode name (some d) type s = .ok (match s.freeEntry with
      | none => (-1, s)
      | some i => ((i.val : Int), s.created name type d i)) := by
  unfold alloc_inode
  rw [show (List.finRange FS_NPAGES).find? (fun i => decide ((s.inode i).type = .EMPTY)) = s.freeEntry from rfl]
  cases hi : s.freeEntry with
  | none => rfl
  | some i =>
    have hfree := (State.freeEntry_eq_some.1 hi).1
    have hid : i ≠ d := by rintro rfl; rw [hd] at hfree; cases hfree
    have hname := Inode.setName_eq (n := s.inode i) hl (by rw [h.block, pageAddr_eq]; omega)
      (by rw [h.block, pageAddr_eq]; have := i.isLt; simp only [FS_NPAGES] at this; omega)
    simp only [hname, bind, Except.bind, pure, Except.pure]
    -- The table before the entry is linked differs from `s` at the entry only, and keeps the chains.
    generalize hs₂ : ((s.modInode i _).modInode i _) = s₂
    have hinode : ∀ j, s₂.inode j =
        if j = i then { (s.inode i).named name with type := type, father := some d } else s.inode j := by
      intro j
      rw [← hs₂]
      by_cases hj : j = i <;> simp [hj]
    have hbrother : ∀ j, s₂.links.brother j = s.links.brother j := by
      intro j
      simp only [State.links, hinode]
      by_cases hj : j = i <;> simp [hj, Inode.named]
    have hchain : s₂.links.Chain (s₂.inode d).first_son (s.sons d) := by
      rw [hinode, if_neg (Ne.symm hid)]
      exact (h.chain_sons d).1.frame fun j _ => hbrother j
    rw [find_last_child_eq hchain (h.chain_sons d).2]
    have hlast := h.last_iff d
    have hmm : s₂.toMm = s.toMm := by rw [← hs₂]; rfl
    have hopen : s₂.open_inodes = s.open_inodes := by rw [← hs₂]; rfl
    have htoken : s₂.token = s.token := by rw [← hs₂]; rfl
    cases hb : (s.sons d).getLast? with
    | none =>
      have hfirst : (s.inode d).first_son = none := by
        have hnil := (h.chain_sons d).1
        rw [List.getLast?_eq_none_iff.1 hb] at hnil
        exact hnil
      simp only [if_true]
      refine congrArg (fun s' => Except.ok ((i.val : Int), s')) (State.ext_inode (fun j => ?_) hmm hopen htoken)
      have hj : ¬ ((s.inode j).father = some d ∧ (s.inode j).brother = none) := by simp [hlast, hb]
      simp only [State.modInode_inode, hinode, State.created_inode, Links.link, State.links, hfirst, and_true]
      by_cases hji : j = i
      · subst hji; simp [hid, Inode.named]
      · simp only [hji, ne_eq, not_false_eq_true, and_true, if_false, hj]
        by_cases hjd : j = d
        · subst hjd; simp
        · simp [hjd]
    | some b =>
      have hbs : b ∈ s.sons d := List.mem_of_getLast? hb
      have hbi : b ≠ i := by
        rintro rfl
        exact absurd ((h.mem_sons d b).1 hbs) (by rw [(h.free b hfree).1]; simp)
      have hfirst : (s.inode d).first_son ≠ none := by
        intro hnone
        have hnil := (h.chain_sons d).1
        rw [hnone] at hnil
        cases hl : s.sons d with
        | nil => rw [hl] at hbs; simp at hbs
        | cons k l => rw [hl] at hnil; exact absurd hnil.1 (by simp)
      have hid' : (s₂.inode b).id = (b.val : Int) := by rw [hinode, if_neg hbi, h.id]
      simp only [hid', index_val, if_neg (show (b.val : Int) ≠ -1 by omega)]
      refine congrArg (fun s' => Except.ok ((i.val : Int), s')) (State.ext_inode (fun j => ?_) hmm hopen htoken)
      have hj := hlast j
      rw [hb, Option.some.injEq] at hj
      simp only [State.modInode_inode, hinode, State.created_inode, Links.link, State.links, hfirst, and_false,
        if_false]
      by_cases hji : j = i
      · subst hji; simp [Ne.symm hbi, Inode.named]
      · simp only [hji, ne_eq, not_false_eq_true, and_true, if_false, hj]
        by_cases hjb : j = b
        · subst hjb; simp
        · simp [hjb, Ne.symm hjb]

/-- The new entry has the name given, the others keep theirs. -/
theorem TreeInv.created_nameOf {s : State} {T : Tree} (h : TreeInv s T) {name : CStr}
    (hl : name.chars.length ≤ MAX_SIZE_NAME) (type : TypeFile) (d i j : Fin FS_NPAGES) :
    ((s.created name type d i).inode j).nameOf = if j = i then name.chars else (s.inode j).nameOf := by
  rw [State.created_inode]
  split
  · rw [← Inode.nameOf_named hl (n := s.inode j) (by rw [h.block, pageAddr_eq]; omega)]
    apply Inode.nameOf_congr rfl
    simp only [Inode.named]
  · rfl

/-- The new table threads the tree with one more leaf. -/
theorem TreeInv.created {s : State} {T : Tree} (h : TreeInv s T) (name : CStr) {type : TypeFile} {d i : Fin FS_NPAGES}
    (hd : (s.inode d).type = .FOLDER) (hi : (s.inode i).type = .EMPTY) (ht : type ≠ .EMPTY) :
    TreeInv (s.created name type d i) (T.addSon (· = d) i) := by
  have hdT := h.not_empty_of_folder hd
  have hiT : i ∉ T.labels := fun hm => (h.live i).2 hm hi
  have hid : i ≠ d := by rintro rfl; rw [hd] at hi; cases hi
  have hlabels := Forest.labels_addSon_perm (a := i) h.nodup hdT
  obtain ⟨hif, hib, his⟩ := h.free i hi
  constructor
  case rooted =>
    obtain ⟨F, rfl⟩ := h.rooted
    exact ⟨_, rfl⟩
  case threads => exact h.threads.link h.nodup (by simp) hiT hid hib his
  case nodup => exact hlabels.nodup_iff.2 (List.nodup_cons.2 ⟨hiT, h.nodup⟩)
  case live =>
    intro j
    rw [hlabels.mem_iff, List.mem_cons, State.created_type]
    by_cases hj : j = i
    · simp [hj, ht]
    · simpa [hj] using h.live j
  case root =>
    rw [State.created_type, if_neg]
    · exact h.root
    · rintro rfl; rw [h.root] at hi; cases hi
  case id => intro j; simpa using h.id j
  case block => intro j; simpa using h.block j
  case free =>
    intro j hj
    rw [State.created_type] at hj
    split at hj
    · exact absurd hj ht
    · next hji =>
      have hjd : j ≠ d := by rintro rfl; rw [hd] at hj; cases hj
      obtain ⟨hf, hb, hs⟩ := h.free j hj
      simp [State.created_inode, Links.link, State.links, hji, hjd, hf, hb, hs]
  case file =>
    intro j hj
    rw [State.created_type] at hj
    have hjd : j ≠ d := by
      rintro rfl
      rw [if_neg (Ne.symm hid), hd] at hj; cases hj
    have hs : (s.inode j).first_son = none := by
      split at hj
      · next hji => rw [hji]; exact his
      · exact h.file j hj
    simp [State.created_inode, Links.link, State.links, hjd, hs]
  case empty =>
    intro j hj
    rw [State.created_type] at hj
    rw [State.created_size]
    split at hj
    · next hji => rw [hji]; exact h.empty i (by rw [hi]; decide)
    · exact h.empty j hj
  case size => intro j; simpa using h.size j

/-! ## `create_file`, `create_dir` -/

/-- A name that creation accepts. -/
def ValidName (name : List UInt8) : Prop := name ≠ [] ∧ name.length ≤ MAX_SIZE_NAME

instance (name : List UInt8) : Decidable (ValidName name) := inferInstanceAs (Decidable (_ ∧ _))

theorem charAt_zero_iff (name : CStr) : charAt name.chars 0 = 0 ↔ name.chars = [] := by
  obtain ⟨l, hl⟩ := name
  cases l with
  | nil => simp [charAt]
  | cons c l => simpa [charAt] using fun hc : c = 0 => hl (by simp [hc])

theorem create_invalid {name : CStr} (hn : ¬ ValidName name.chars) (path : CStr) (type : TypeFile) (s : State) :
    create (some path) (some name) type s = .ok (.VFS_INVALID_NAME, s) := by
  have hbad : charAt name.chars 0 = 0 ∨ name.chars.length > MAX_SIZE_NAME := by
    rw [charAt_zero_iff]
    unfold ValidName at hn
    by_contra hok
    exact hn ⟨fun e => hok (.inl e), by omega⟩
  simp only [create, strlen_bytes, bind, Except.bind, pure, Except.pure, hbad, if_true]

/-- Creation under a valid name: where the path leads decides, then whether an entry is free. -/
theorem create_eq {s : State} {T : Tree} (h : TreeInv s T) (ht : s.token.length = MAX_SIZE_NAME + 1) (path : CStr)
    {name : CStr} (hn : ValidName name.chars) (type : TypeFile) :
    create (some path) (some name) type s = .ok (match s.resolve path.chars with
      | none => (.VFS_INVALID_FD, { s with token := s.tokenAfter path.chars })
      | some d =>
        if s.kind d ≠ .FOLDER then (.VFS_INVALID_FD, { s with token := s.tokenAfter path.chars })
        else match s.freeEntry with
          | none => (.VFS_MEMORY_FULL, { s with token := s.tokenAfter path.chars })
          | some i => (.VFS_OK, ({ s with token := s.tokenAfter path.chars } : State).created name type d i)) := by
  have hp := parse_path_eq h ht path
  generalize s.tokenAfter path.chars = tk at hp ⊢
  have hgood : ¬ (charAt name.chars 0 = 0 ∨ name.chars.length > MAX_SIZE_NAME) := by
    rw [charAt_zero_iff]
    rintro (he | hl)
    · exact hn.1 he
    · exact absurd hn.2 (by omega)
  simp only [create, strlen_bytes, bind, Except.bind, pure, Except.pure, hgood, if_false, hp]
  cases s.resolve path.chars with
  | none => rfl
  | some d =>
    by_cases hd : s.kind d = .FOLDER
    · have halloc := alloc_inode_eq (h.setToken tk) hn.2 (d := d) hd type
      have hfree : ({ s with token := tk } : State).freeEntry = s.freeEntry := rfl
      have hd' : (({ s with token := tk } : State).inode d).type = .FOLDER := hd
      simp only [hd', hd, ne_eq, not_true_eq_false, if_false, halloc, hfree]
      cases s.freeEntry with
      | none => rfl
      | some i => simp only [if_neg (show ¬ ((i.val : Int) < 0) by omega)]
    · have hd' : (({ s with token := tk } : State).inode d).type ≠ .FOLDER := hd
      simp only [hd', hd, ne_eq, not_false_eq_true, if_true]

end ClbFilesystem
