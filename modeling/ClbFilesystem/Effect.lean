import ClbFilesystem.Transfer
/-!
# What a call does

`exec_effect` sums up the modules before: a call that returns creates an entry,
removes a subtree, opens or closes a slot, reads, writes, lists, or is refused
and changes nothing, up to the scratch token that path resolution leaves. The
results about runs are case analyses over these shapes, the invariant first.
-/

namespace ClbFilesystem

open Lib

/-! ## Kinds of calls -/

namespace Call

/-- The call creates an entry of that type and name in the folder at `path`. -/
inductive Creates : Call → CStr → CStr → TypeFile → Prop
  | create_file {path file} : Creates (.create_file (some path) (some file)) path file .FILE
  | create_dir {path dir_name} : Creates (.create_dir (some path) (some dir_name)) path dir_name .FOLDER

inductive Deletes : Call → CStr → Prop
  | delete_file {path} : Deletes (.delete_file (some path)) path
  | delete_dir {path} : Deletes (.delete_dir (some path)) path

/-- The call opens an entry of that type, and fills the slot with `set`. -/
inductive Opens : Call → CStr → TypeFile → (Inode → FileDescriptor → FileDescriptor) → Prop
  | open_file {path fd} : Opens (.open_file (some path) (some fd)) path .FILE fun _ slot => { slot with next := 0 }
  | open_dir {path fd} :
    Opens (.open_dir (some path) (some fd)) path .FOLDER fun dir slot => { slot with next_son := dir.first_son }

inductive Closes : Call → Fin MAX_OPEN_FILES → (FileDescriptor → FileDescriptor) → Prop
  | close_file {d} : Closes (.close_file (some (d.val : Int))) d fun slot => { slot with next := 0 }
  | close_dir {d} : Closes (.close_dir (some (d.val : Int))) d fun slot => { slot with next_son := none }

/-- The call writes `len` bytes from `str` through slot `d`, behind the first `base` bytes of the file. -/
inductive Writes : Call → Fin MAX_OPEN_FILES → Nat → UInt32 → (Inode → Nat) → Prop
  | write_file {d str len} : Writes (.write_file (some (d.val : Int)) str len) d str len fun _ => 0
  | append_file {d str len} : Writes (.append_file (some (d.val : Int)) str len) d str len Inode.size

variable {c : Call} {path name : CStr} {type : TypeFile} {d : Fin MAX_OPEN_FILES} {str : Nat} {len : UInt32}

theorem Creates.type_ne (h : c.Creates path name type) : type ≠ .EMPTY := by cases h <;> decide

theorem Opens.type_ne {set} (h : c.Opens path type set) : type ≠ .EMPTY := by cases h <;> decide

theorem Opens.set_inode {set} (h : c.Opens path type set) (n : Inode) (slot : FileDescriptor) :
    (set n slot).inode = slot.inode := by cases h <;> rfl

theorem Opens.set_next {set} (h : c.Opens path type set) (n : Inode) (slot : FileDescriptor) (hs : slot.next = 0) :
    (set n slot).next = 0 := by
  cases h
  · rfl
  · exact hs

theorem Closes.clear_inode {clear} (h : c.Closes d clear) (slot : FileDescriptor) : (clear slot).inode = slot.inode := by
  cases h <;> rfl

theorem Closes.clear_next {clear} (h : c.Closes d clear) (slot : FileDescriptor) (hs : slot.next = 0) :
    (clear slot).next = 0 := by
  cases h
  · rfl
  · exact hs

theorem Writes.base_le {base} (h : c.Writes d str len base) (n : Inode) : base n ≤ n.size := by
  cases h
  · exact Nat.zero_le _
  · exact le_refl _

end Call

/-- The reply says that the call was refused. -/
def Reply.Refused (r : Reply) : Prop :=
  match r.ret with
  | .error e => e ≠ .VFS_OK
  | .count n => n = -1

/-- `Effect s c r s'`: call `c` in state `s` replies `r` and leaves `s'`. -/
inductive Effect (s : State) : Call → Reply → State → Prop
  | created {c path name type d i} : Call.Creates c path name type → ValidName name.chars →
    s.resolve path.chars = some d → s.kind d = .FOLDER → s.freeEntry = some i →
    Effect s c { ret := .error .VFS_OK } (s.created name type d i)
  | removed {c path i} : Call.Deletes c path → s.resolve path.chars = some i → i ≠ ROOT_INODE →
    Effect s c { ret := .error .VFS_OK } (s.removed i)
  | opened {c path type set d i} : Call.Opens c path type set → s.freeSlot = some d →
    s.resolve path.chars = some i → s.kind i = type →
    Effect s c { ret := .error .VFS_OK, fd := some (d.val : Int) } (s.opened set d i)
  | closed {c d clear i} : Call.Closes c d clear → (s.slot d).inode = some i →
    Effect s c { ret := .error .VFS_OK, fd := some (-1) } (s.closed clear d i)
  | read {d str len i} : str ≠ 0 → s.fileAt d = some i →
    Effect s (.read_file (some (d.val : Int)) str len)
      { ret := .count (readCount (s.inode i).size len), fd := some (d.val : Int) } { s with mem := s.fetched i str len }
  | wrote {c d str len base i} : Call.Writes c d str len base → str ≠ 0 → s.fileAt d = some i →
    Effect s c { ret := .count (writeCount (base (s.inode i)) len), fd := some (d.val : Int) }
      (s.written i str (base (s.inode i)) (writeCount (base (s.inode i)) len))
  | listed {d son_name i n} : son_name ≠ 0 → (s.slot d).inode = some i → s.kind i = .FOLDER →
    (s.slot d).next_son = some n →
    Effect s (.get_next_dir_son (some (d.val : Int)) son_name) { ret := .error .VFS_OK, fd := some (d.val : Int) }
      (s.listed (s.mem.write son_name ((s.inode n).nameOf ++ [0])) d n)
  | ended {d son_name i} : son_name ≠ 0 → (s.slot d).inode = some i → s.kind i = .FOLDER →
    (s.slot d).next_son = none →
    Effect s (.get_next_dir_son (some (d.val : Int)) son_name) { ret := .error .VFS_OK, fd := some (d.val : Int) }
      { s with mem := s.mem.write son_name [0] }
  | refused {c r} : r.Refused → Effect s c r s

/-! ## The inversion of a call -/

/-- A descriptor argument: negative, a slot, or beyond the table. -/
theorem fdIndex_cases (fd : Int) :
    0 > fd ∨ (∃ d : Fin MAX_OPEN_FILES, fd = d.val) ∨ ¬ 0 > fd ∧ fdIndex fd = .error .outOfBounds := by
  unfold fdIndex
  by_cases hneg : 0 > fd
  · exact .inl hneg
  · by_cases hfd : fd.toNat < MAX_OPEN_FILES
    · exact .inr (.inl ⟨⟨fd.toNat, hfd⟩, by simp; omega⟩)
    · exact .inr (.inr ⟨hneg, by rw [dif_neg]; omega⟩)

section Inversion
variable {s s' : State} {c : Call} (hi : Inv s)
include hi

theorem create_effect {path name : Option CStr} {type : TypeFile} {e : VfsError}
    (hc : ∀ p n, path = some p → name = some n → c.Creates p n type) (h : create path name type s = .ok (e, s')) :
    ∃ tk, tk.length = MAX_SIZE_NAME + 1 ∧ Effect { s with token := tk } c { ret := .error e } s' := by
  obtain ⟨T, ht⟩ := hi.tree
  have null : ∀ {x}, x = (VfsError.VFS_NULL_POINTER, s) → Except.ok (ε := Fault) x = .ok (e, s') →
      ∃ tk, tk.length = MAX_SIZE_NAME + 1 ∧ Effect { s with token := tk } c { ret := .error e } s' := by
    rintro x rfl hx
    cases hx
    exact ⟨s.token, hi.token, .refused (by simp [Reply.Refused])⟩
  cases path with
  | none => exact null rfl h
  | some path => cases name with
    | none => exact null rfl h
    | some name =>
      by_cases hn : ValidName name.chars
      · refine ⟨s.tokenAfter path.chars, length_tokenAfter ht hi.token path, ?_⟩
        rw [create_eq ht hi.token path hn type, Except.ok.injEq] at h
        have hres := s.resolve_setToken (s.tokenAfter path.chars) path.chars
        cases hd : s.resolve path.chars with
        | none => simp only [hd] at h; cases h; exact .refused (by simp [Reply.Refused])
        | some d =>
          simp only [hd] at h
          split at h
          · cases h; exact .refused (by simp [Reply.Refused])
          · next hk =>
            cases hf : s.freeEntry with
            | none => simp only [hf] at h; cases h; exact .refused (by simp [Reply.Refused])
            | some i =>
              simp only [hf] at h
              cases h
              exact .created (hc path name rfl rfl) hn (hres.trans hd) (not_not.1 hk) hf
      · rw [create_invalid hn] at h
        cases h
        exact ⟨s.token, hi.token, .refused (by simp [Reply.Refused])⟩

theorem delete_effect {path : Option CStr} {e : VfsError} (hc : ∀ p, path = some p → c.Deletes p)
    (h : delete path s = .ok (e, s')) :
    ∃ tk, tk.length = MAX_SIZE_NAME + 1 ∧ Effect { s with token := tk } c { ret := .error e } s' := by
  obtain ⟨T, ht⟩ := hi.tree
  cases path with
  | none => cases h; exact ⟨s.token, hi.token, .refused (by simp [Reply.Refused])⟩
  | some path =>
    refine ⟨s.tokenAfter path.chars, length_tokenAfter ht hi.token path, ?_⟩
    rw [delete_eq ht hi.token path] at h
    have hres := s.resolve_setToken (s.tokenAfter path.chars) path.chars
    cases hd : s.resolve path.chars with
    | none => simp only [hd] at h; cases h; exact .refused (by simp [Reply.Refused])
    | some i =>
      simp only [hd] at h
      split at h
      · cases h
      · next hr => cases h; exact .removed (hc path rfl) (hres.trans hd) hr

theorem open_effect {type : TypeFile} {invalid_path : VfsError} {set : Inode → FileDescriptor → FileDescriptor}
    {path : Option CStr} {fd : Option Int} {x : VfsError × Option Int} (hinv : invalid_path ≠ .VFS_OK)
    (hc : ∀ p v, path = some p → fd = some v → c.Opens p type set)
    (h : openInode type invalid_path set path fd s = .ok (x, s')) :
    ∃ tk, tk.length = MAX_SIZE_NAME + 1 ∧ Effect { s with token := tk } c { ret := .error x.1, fd := x.2 } s' := by
  obtain ⟨T, ht⟩ := hi.tree
  cases fd with
  | none => cases h; exact ⟨s.token, hi.token, .refused (by simp [Reply.Refused])⟩
  | some fd =>
    cases hd : s.freeSlot with
    | none =>
      rw [openInode_full hd] at h
      cases h
      exact ⟨s.token, hi.token, .refused (by simp [Reply.Refused])⟩
    | some d => cases path with
      | none =>
        unfold openInode at h
        simp only [get_next_fd_eq, hd, if_neg (show ¬ ((d.val : Int) < 0) by omega)] at h
        cases h
      | some path =>
        refine ⟨s.tokenAfter path.chars, length_tokenAfter ht hi.token path, ?_⟩
        rw [openInode_eq ht hi.token hd path fd, Except.ok.injEq] at h
        have hres := s.resolve_setToken (s.tokenAfter path.chars) path.chars
        cases hp : s.resolve path.chars with
        | none => simp only [hp] at h; cases h; exact .refused (by simpa [Reply.Refused] using hinv)
        | some i =>
          simp only [hp] at h
          split at h
          · cases h; exact .refused (by simp [Reply.Refused])
          · next hk => cases h; exact .opened (hc path fd rfl rfl) hd (hres.trans hp) (not_not.1 hk)

omit hi in
theorem close_effect {clear : FileDescriptor → FileDescriptor} {fd : Option Int} {x : VfsError × Option Int}
    (hc : ∀ d : Fin MAX_OPEN_FILES, fd = some (d.val : Int) → c.Closes d clear)
    (h : close clear fd s = .ok (x, s')) : Effect s c { ret := .error x.1, fd := x.2 } s' := by
  cases fd with
  | none => cases h; exact .refused (by simp [Reply.Refused])
  | some fd =>
    rcases fdIndex_cases fd with hneg | ⟨d, rfl⟩ | ⟨hpos, hout⟩
    · rw [close_negative hneg] at h
      cases h; exact .refused (by simp [Reply.Refused])
    · rw [close_eq, Except.ok.injEq] at h
      cases hd : (s.slot d).inode with
      | none => simp only [hd] at h; cases h; exact .refused (by simp [Reply.Refused])
      | some i => simp only [hd] at h; cases h; exact .closed (hc d rfl) hd
    · unfold close at h
      simp only [hpos, if_false, hout] at h
      cases h

theorem list_effect {fd : Option Int} {son_name : Nat} {x : VfsError × Option Int}
    (h : get_next_dir_son fd son_name s = .ok (x, s')) :
    Effect s (.get_next_dir_son fd son_name) { ret := .error x.1, fd := x.2 } s' := by
  obtain ⟨T, ht⟩ := hi.tree
  cases fd with
  | none => cases h; exact .refused (by simp [Reply.Refused])
  | some fd =>
    by_cases hb : son_name = 0
    · unfold get_next_dir_son at h
      simp only [hb, if_true] at h
      cases h; exact .refused (by simp [Reply.Refused])
    rcases fdIndex_cases fd with hneg | ⟨d, rfl⟩ | ⟨hpos, hout⟩
    · unfold get_next_dir_son at h
      simp only [hb, if_false, hneg, if_true] at h
      cases h; exact .refused (by simp [Reply.Refused])
    · rw [get_next_dir_son_eq ht hb, Except.ok.injEq] at h
      cases hd : (s.slot d).inode with
      | none => simp only [hd] at h; cases h; exact .refused (by simp [Reply.Refused])
      | some i =>
        simp only [hd] at h
        split at h
        · cases h; exact .refused (by simp [Reply.Refused])
        · next hk =>
          cases hn : (s.slot d).next_son with
          | none => simp only [hn] at h; cases h; exact .ended hb hd (not_not.1 hk) hn
          | some n => simp only [hn] at h; cases h; exact .listed hb hd (not_not.1 hk) hn
    · unfold get_next_dir_son at h
      simp only [hb, hpos, if_false, hout] at h
      cases h

omit hi in
/-- The checks of `read_file`, `write_file` and `append_file`: a refusal, or a slot. -/
theorem fileOf_cases {fd : Option Int} {str : Nat} {x : Option (Fin MAX_OPEN_FILES × Fin FS_NPAGES)}
    (h : fileOf fd str s = .ok x) :
    x = none ∨ str ≠ 0 ∧ ∃ d : Fin MAX_OPEN_FILES, fd = some (d.val : Int) := by
  cases fd with
  | none => cases h; exact .inl rfl
  | some fd =>
    by_cases hstr : str = 0
    · unfold fileOf at h
      simp only [hstr, if_true] at h
      cases h; exact .inl rfl
    · rcases fdIndex_cases fd with hneg | ⟨d, rfl⟩ | ⟨hpos, hout⟩
      · unfold fileOf at h
        simp only [hstr, if_false, hneg, if_true] at h
        cases h; exact .inl rfl
      · exact .inr ⟨hstr, d, rfl⟩
      · unfold fileOf at h
        simp only [hstr, hpos, if_false, hout] at h
        cases h

omit hi in
/-- A call that begins with these checks is refused by them, or is made on a slot. -/
theorem transfer_cases {fd : Option Int} {str : Nat} {n : Int}
    {k : Option (Fin MAX_OPEN_FILES × Fin FS_NPAGES) → Except Fault (Int × State)} (hk : k none = .ok (-1, s))
    (h : (fileOf fd str s >>= k) = .ok (n, s')) :
    n = -1 ∧ s' = s ∨ str ≠ 0 ∧ ∃ d : Fin MAX_OPEN_FILES, fd = some (d.val : Int) := by
  cases hx : fileOf fd str s with
  | error e => rw [hx] at h; cases h
  | ok x =>
    rcases fileOf_cases hx with rfl | hd
    · have hk' : k none = .ok (n, s') := by rw [hx] at h; exact h
      rw [hk, Except.ok.injEq, Prod.mk.injEq] at hk'
      exact .inl ⟨hk'.1.symm, hk'.2.symm⟩
    · exact .inr hd

theorem read_effect {fd : Option Int} {str : Nat} {len : UInt32} {n : Int} (h : read_file fd str len s = .ok (n, s')) :
    Effect s (.read_file fd str len) { ret := .count n, fd := fd } s' := by
  obtain ⟨T, ht⟩ := hi.tree
  rcases transfer_cases rfl h with ⟨rfl, rfl⟩ | ⟨hstr, d, rfl⟩
  · exact .refused (by simp [Reply.Refused])
  · rw [read_file_eq ht (hi.next d) hstr, Except.ok.injEq] at h
    cases hf : s.fileAt d with
    | none => simp only [hf] at h; cases h; exact .refused (by simp [Reply.Refused])
    | some i => simp only [hf] at h; cases h; exact .read hstr hf

theorem write_effect {fd : Option Int} {str : Nat} {len : UInt32} {n : Int} (h : write_file fd str len s = .ok (n, s')) :
    Effect s (.write_file fd str len) { ret := .count n, fd := fd } s' := by
  obtain ⟨T, ht⟩ := hi.tree
  rcases transfer_cases rfl h with ⟨rfl, rfl⟩ | ⟨hstr, d, rfl⟩
  · exact .refused (by simp [Reply.Refused])
  · rw [write_file_eq ht hstr, Except.ok.injEq] at h
    cases hf : s.fileAt d with
    | none => simp only [hf] at h; cases h; exact .refused (by simp [Reply.Refused])
    | some i => simp only [hf] at h; cases h; exact .wrote .write_file hstr hf

theorem append_effect {fd : Option Int} {str : Nat} {len : UInt32} {n : Int} (h : append_file fd str len s = .ok (n, s')) :
    Effect s (.append_file fd str len) { ret := .count n, fd := fd } s' := by
  obtain ⟨T, ht⟩ := hi.tree
  rcases transfer_cases rfl h with ⟨rfl, rfl⟩ | ⟨hstr, d, rfl⟩
  · exact .refused (by simp [Reply.Refused])
  · rw [append_file_eq ht hstr, Except.ok.injEq] at h
    cases hf : s.fileAt d with
    | none => simp only [hf] at h; cases h; exact .refused (by simp [Reply.Refused])
    | some i => simp only [hf] at h; cases h; exact .wrote .append_file hstr hf

/-- What a call that returns does, up to the scratch token. -/
theorem exec_effect {r : Reply} (h : exec c s = .ok (r, s')) :
    ∃ tk, tk.length = MAX_SIZE_NAME + 1 ∧ Effect { s with token := tk } c r s' := by
  have keep : ∀ {r : Reply}, Effect s c r s' → ∃ tk, tk.length = MAX_SIZE_NAME + 1 ∧ Effect { s with token := tk } c r s' :=
    fun h => ⟨s.token, hi.token, h⟩
  cases c
  all_goals
    obtain ⟨⟨x, s₁⟩, hx, he⟩ := map_ok h
    cases he
  case create_file path file => exact create_effect hi (by rintro _ _ rfl rfl; exact .create_file) hx
  case create_dir path dir_name => exact create_effect hi (by rintro _ _ rfl rfl; exact .create_dir) hx
  case delete_file path => exact delete_effect hi (by rintro _ rfl; exact .delete_file) hx
  case delete_dir path => exact delete_effect hi (by rintro _ rfl; exact .delete_dir) hx
  case open_file path fd => exact open_effect hi (by decide) (by rintro _ _ rfl rfl; exact .open_file) hx
  case open_dir path fd => exact open_effect hi (by decide) (by rintro _ _ rfl rfl; exact .open_dir) hx
  case close_file fd => exact keep (close_effect (by rintro _ rfl; exact .close_file) hx)
  case close_dir fd => exact keep (close_effect (by rintro _ rfl; exact .close_dir) hx)
  case read_file fd str len => exact keep (read_effect hi hx)
  case write_file fd str len => exact keep (write_effect hi hx)
  case append_file fd str len => exact keep (append_effect hi hx)
  case get_next_dir_son fd son_name => exact keep (list_effect hi hx)

end Inversion

/-! ## The invariant -/

/-- A table that changes in `ref` and in the sizes of files only threads the same tree. -/
theorem TreeInv.touch {s s' : State} {T : Tree} (h : TreeInv s T) (f : Fin FS_NPAGES → Int × Nat)
    (hs : ∀ i, s'.inode i = { s.inode i with ref := (f i).1, size := (f i).2 })
    (hempty : ∀ i, (s.inode i).type ≠ .FILE → (f i).2 = 0) (hsize : ∀ i, (f i).2 ≤ FILE_MAX_SIZE) : TreeInv s' T := by
  have hlinks : s'.links = s.links := by simp only [State.links, hs]
  exact { h with
    threads := hlinks ▸ h.threads
    live := fun i => by rw [hs]; exact h.live i
    root := by rw [hs]; exact h.root
    id := fun i => by rw [hs]; exact h.id i
    block := fun i => by rw [hs]; exact h.block i
    free := fun i => by rw [hs]; exact h.free i
    file := fun i => by rw [hs]; exact h.file i
    empty := fun i => by rw [hs]; exact hempty i
    size := fun i => by rw [hs]; exact hsize i }

theorem TreeInv.touch_ref {s s' : State} {T : Tree} (h : TreeInv s T) (f : Fin FS_NPAGES → Int)
    (hs : ∀ i, s'.inode i = { s.inode i with ref := f i }) : TreeInv s' T :=
  h.touch (fun i => (f i, (s.inode i).size)) hs h.empty h.size

theorem State.opened_inode (s : State) (set : Inode → FileDescriptor → FileDescriptor) (d : Fin MAX_OPEN_FILES)
    (i j : Fin FS_NPAGES) : (s.opened set d i).inode j =
      { s.inode j with ref := if j = i then (s.inode j).ref + 1 else (s.inode j).ref } := by
  unfold opened
  rw [modInode_inode, modSlot_inode]
  split <;> rfl

@[simp] theorem State.opened_kind (s : State) (set : Inode → FileDescriptor → FileDescriptor) (d : Fin MAX_OPEN_FILES)
    (i j : Fin FS_NPAGES) : (s.opened set d i).kind j = s.kind j := by
  rw [kind, opened_inode]
  rfl

theorem State.opened_slot (s : State) (set : Inode → FileDescriptor → FileDescriptor) (d e : Fin MAX_OPEN_FILES)
    (i : Fin FS_NPAGES) : (s.opened set d i).slot e =
      if e = d then set (s.inode i) { s.slot e with inode := some i } else s.slot e := by
  unfold opened
  rw [modInode_slot, modSlot_slot]

theorem State.closed_inode (s : State) (clear : FileDescriptor → FileDescriptor) (d : Fin MAX_OPEN_FILES)
    (i j : Fin FS_NPAGES) : (s.closed clear d i).inode j =
      { s.inode j with ref := if j = i then (s.inode j).ref - 1 else (s.inode j).ref } := by
  unfold closed
  rw [modSlot_inode, modInode_inode]
  split <;> rfl

@[simp] theorem State.closed_kind (s : State) (clear : FileDescriptor → FileDescriptor) (d : Fin MAX_OPEN_FILES)
    (i j : Fin FS_NPAGES) : (s.closed clear d i).kind j = s.kind j := by
  rw [kind, closed_inode]
  rfl

theorem State.closed_slot (s : State) (clear : FileDescriptor → FileDescriptor) (d e : Fin MAX_OPEN_FILES)
    (i : Fin FS_NPAGES) : (s.closed clear d i).slot e =
      if e = d then clear { s.slot e with inode := none } else s.slot e := by
  unfold closed
  rw [modSlot_slot, modInode_slot]

theorem State.listed_slot (s : State) (mem : Mem) (d e : Fin MAX_OPEN_FILES) (n : Fin FS_NPAGES) :
    (s.listed mem d n).slot e = if e = d then { s.slot e with next_son := (s.inode n).brother } else s.slot e :=
  modSlot_slot _ _ _ _

/-- Every call keeps the invariant. -/
theorem Effect.inv {s s' : State} {c : Call} {r : Reply} (hi : Inv s) (h : Effect s c r s') : Inv s' := by
  obtain ⟨T, ht⟩ := hi.tree
  cases h with
  | @created c path name type d i hc hn hd hk hf =>
    exact ⟨⟨_, ht.created name hk (State.freeEntry_eq_some.1 hf).1 hc.type_ne⟩, hi.token, hi.next⟩
  | @removed c path i hc hp hr => exact ⟨⟨_, ht.removed (ht.resolve_mem hp) hr⟩, hi.token, hi.next⟩
  | @opened c path type set d i hc hd hp hk =>
    refine ⟨⟨T, ht.touch_ref _ (s.opened_inode set d i)⟩, hi.token, fun e => ?_⟩
    rw [State.opened_slot]
    split
    · exact hc.set_next _ _ (hi.next e)
    · exact hi.next e
  | @closed c d clear i hc hd =>
    refine ⟨⟨T, ht.touch_ref _ (s.closed_inode clear d i)⟩, hi.token, fun e => ?_⟩
    rw [State.closed_slot]
    split
    · exact hc.clear_next _ (hi.next e)
    · exact hi.next e
  | read hstr hf => exact ⟨⟨T, ht.congr rfl⟩, hi.token, hi.next⟩
  | @wrote c d str len base i hc hstr hf =>
    refine ⟨⟨T, ht.touch (fun j => ((s.inode j).ref, if j = i then base (s.inode i) + writeCount (base (s.inode i)) len
      else (s.inode j).size)) (fun j => ?_) (fun j hj => ?_) (fun j => ?_)⟩, hi.token, hi.next⟩
    · rw [State.written_inode]
      by_cases hji : j = i
      · subst hji; simp
      · simp [hji]
    · rw [if_neg, ht.empty j hj]
      rintro rfl
      exact hj (State.fileAt_eq_some.1 hf).2
    · have hb := hc.base_le (s.inode i)
      have hle := ht.size i
      dsimp only
      split
      · exact base_add_writeCount_le (by omega) len
      · exact ht.size j
  | @listed d son_name i n hb hd hk hn =>
    refine ⟨⟨T, ht.congr rfl⟩, hi.token, fun e => ?_⟩
    rw [State.listed_slot]
    split
    · exact hi.next e
    · exact hi.next e
  | ended hb hd hk hn => exact ⟨⟨T, ht.congr rfl⟩, hi.token, hi.next⟩
  | refused hr => exact hi

theorem Inv.congr {s : State} (hi : Inv s) {tk : List UInt8} (htk : tk.length = MAX_SIZE_NAME + 1) :
    Inv { s with token := tk } := by
  obtain ⟨T, ht⟩ := hi.tree
  exact ⟨⟨T, ht.congr rfl⟩, htk, hi.next⟩

theorem Inv.next_step {s s' : State} {e : Event} (hi : Inv s) (h : Next s e s') : Inv s' := by
  cases h with
  | call hc =>
    obtain ⟨tk, htk, he⟩ := exec_effect hi hc
    exact he.inv (hi.congr htk)
  | user hm =>
    obtain ⟨T, ht⟩ := hi.tree
    exact ⟨⟨T, ht.congr rfl⟩, hi.token, hi.next⟩

theorem boot_inv {mem : Mem} {s₀ : State} (h : init_fs (boot mem) = .ok s₀) : Inv s₀ := by
  rw [init_fs_boot, Except.ok.injEq] at h
  exact h ▸ initial_inv mem

/-- The invariant holds in every reachable state. -/
theorem Reachable.invariant {s : State} (h : Reachable s) : Inv s :=
  h.inv Inv (fun _ _ => boot_inv) fun _ _ _ => Inv.next_step

/-! ## What changes in the tree -/

/-- Types, names and links change in a successful creation and a successful deletion only. -/
inductive TreeStep (s : State) : Call → State → Prop
  | created {c path name type d i} : Call.Creates c path name type → ValidName name.chars →
    s.resolve path.chars = some d → s.kind d = .FOLDER → s.freeEntry = some i →
    TreeStep s c (s.created name type d i)
  | removed {c path i} : Call.Deletes c path → s.resolve path.chars = some i → i ≠ ROOT_INODE →
    TreeStep s c (s.removed i)
  | kept {c s'} : s'.links = s.links → (∀ j, s'.kind j = s.kind j ∧ (s'.inode j).nameOf = (s.inode j).nameOf) →
    TreeStep s c s'

theorem Effect.treeStep {s s' : State} {c : Call} {r : Reply} (h : Effect s c r s') : TreeStep s c s' := by
  cases h with
  | created hc hn hd hk hf => exact .created hc hn hd hk hf
  | removed hc hp hr => exact .removed hc hp hr
  | @opened c path type set d i hc hd hp hk =>
    refine .kept (by simp only [State.links, State.opened_inode]) fun j => ⟨s.opened_kind set d i j, ?_⟩
    rw [State.opened_inode]
    rfl
  | @closed c d clear i hc hd =>
    refine .kept (by simp only [State.links, State.closed_inode]) fun j => ⟨s.closed_kind clear d i j, ?_⟩
    rw [State.closed_inode]
    rfl
  | @wrote c d str len base i hc hstr hf =>
    refine .kept ?_ fun j => ⟨State.written_kind .., ?_⟩
    · simp only [State.links, Links.mk.injEq]
      refine ⟨funext fun j => ?_, funext fun j => ?_, funext fun j => ?_⟩ <;> rw [State.written_inode] <;> split <;> rfl
    · rw [State.written_inode]
      split <;> rfl
  | _ => exact .kept rfl fun _ => ⟨rfl, rfl⟩

/-! ## Creations and deletions that go through -/

theorem Call.Creates.exec_eq {c : Call} {path name : CStr} {type : TypeFile} (h : c.Creates path name type) (s : State) :
    exec c s = (create (some path) (some name) type s).map Reply.ofError := by cases h <;> rfl

theorem Call.Deletes.exec_eq {c : Call} {path : CStr} (h : c.Deletes path) (s : State) :
    exec c s = (delete (some path) s).map Reply.ofError := by cases h <;> rfl

/-- The call creates the entry `i` in the folder `d`: the name is valid, the path leads there, `i` is free. -/
def Call.CreatesAt (c : Call) (s : State) (name : CStr) (d i : Fin FS_NPAGES) : Prop :=
  ∃ path type, c.Creates path name type ∧ ValidName name.chars ∧ s.resolve path.chars = some d ∧
    s.kind d = .FOLDER ∧ s.freeEntry = some i

theorem exec_creates {s : State} {c : Call} {name : CStr} {d i : Fin FS_NPAGES} (hi : Inv s) (h : c.CreatesAt s name d i) :
    ∃ tk type, type ≠ .EMPTY ∧
      exec c s = .ok ({ ret := .error .VFS_OK }, ({ s with token := tk } : State).created name type d i) := by
  obtain ⟨T, ht⟩ := hi.tree
  obtain ⟨path, type, hc, hn, hd, hk, hf⟩ := h
  refine ⟨s.tokenAfter path.chars, type, hc.type_ne, ?_⟩
  rw [hc.exec_eq, create_eq ht hi.token path hn type]
  simp only [hd, hk, hf, ne_eq, not_true_eq_false, if_false]
  rfl

theorem exec_deletes {s : State} {c : Call} {path : CStr} {i : Fin FS_NPAGES} (hi : Inv s) (hc : c.Deletes path)
    (hp : s.resolve path.chars = some i) : exec c s = if i = ROOT_INODE then .error .nullPointer
      else .ok ({ ret := .error .VFS_OK }, ({ s with token := s.tokenAfter path.chars } : State).removed i) := by
  obtain ⟨T, ht⟩ := hi.tree
  rw [hc.exec_eq, delete_eq ht hi.token path]
  simp only [hp]
  split <;> rfl

/-- With a free slot, an opening through a path to an entry of its type opens the first one there. -/
theorem exec_opens {s : State} {c : Call} {path : CStr} {type : TypeFile} {set : Inode → FileDescriptor → FileDescriptor}
    {d : Fin MAX_OPEN_FILES} {i : Fin FS_NPAGES} (hi : Inv s) (hc : c.Opens path type set) (hd : s.freeSlot = some d)
    (hp : s.resolve path.chars = some i) (hk : s.kind i = type) :
    exec c s = .ok ({ ret := .error .VFS_OK, fd := some (d.val : Int) },
      ({ s with token := s.tokenAfter path.chars } : State).opened set d i) := by
  obtain ⟨T, ht⟩ := hi.tree
  cases hc
  all_goals
    simp only [exec, open_file, open_dir, openInode_eq ht hi.token hd, hp, hk, ne_eq, not_true_eq_false, if_false]
    rfl

end ClbFilesystem
