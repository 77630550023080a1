import ClbFilesystem.Content
/-!
# Bytes outside the live content

A byte of a data block at or behind the size of its inode is stale: left by a
deleted file, or by a longer content. No call but `read_file` lets two states
that differ in stale bytes drift apart. `read_file` does when the words it copies
go past the size: it rounds up to eight bytes, and takes `FS_NPAGES` bytes for
every count from `FS_NPAGES` on.
-/

namespace ClbFilesystem

open Lib

namespace State

/-- A byte of a data block at an offset at or behind the size of its inode. -/
def Stale (s : State) (a : Nat) : Prop :=
  ∃ i : Fin FS_NPAGES, pageAddr i + (s.inode i).size ≤ a ∧ a < pageAddr i + PAGE_SIZE

/-- The states are equal, stale bytes apart. -/
structure StaleEq (s s' : State) : Prop where
  mem : ∀ a, ¬ s.Stale a → s'.mem a = s.mem a
  mem_map : s'.mem_map = s.mem_map
  table : s'.RAM_inodes_table = s.RAM_inodes_table
  slots : s'.open_inodes = s.open_inodes
  token : s'.token = s.token

def withMem (s : State) (m : Mem) : State := { s with mem := m }

variable {s s' : State}

@[simp] theorem withMem_inode (s : State) (m : Mem) (i : Fin FS_NPAGES) : (s.withMem m).inode i = s.inode i := rfl
@[simp] theorem withMem_mem (s : State) (m : Mem) : (s.withMem m).mem = m := rfl

theorem StaleEq.eq_withMem (h : StaleEq s s') : s' = s.withMem s'.mem :=
  State.ext rfl h.mem_map h.table h.slots h.token

theorem staleEq_withMem {m : Mem} (h : ∀ a, ¬ s.Stale a → m a = s.mem a) : StaleEq s (s.withMem m) :=
  ⟨h, rfl, rfl, rfl, rfl⟩

/-- A stale byte lies in a data block. -/
theorem Stale.inBlocks {a : Nat} (h : s.Stale a) : InBlocks a := by
  obtain ⟨i, hlow, hhigh⟩ := h
  have hi : i.val < 128 := i.isLt
  rw [PAGE_SIZE_eq] at hhigh
  rw [inBlocks_iff]
  simp only [pageAddr_eq] at *
  omega

/-- A stale byte of page `i` is at or behind the size of inode `i`. -/
theorem stale_offset {i : Fin FS_NPAGES} {k : Nat} (h : s.Stale (pageAddr i + k)) (hk : k < PAGE_SIZE) :
    (s.inode i).size ≤ k := by
  obtain ⟨j, hlow, hhigh⟩ := h
  rw [PAGE_SIZE_eq] at hk hhigh
  have hij : j = i := by
    simp only [pageAddr_eq] at hlow hhigh
    exact Fin.ext (by omega)
  subst hij
  omega

theorem Stale.mono {t : State} (hsize : ∀ i, (t.inode i).size ≤ (s.inode i).size) {a : Nat} (h : s.Stale a) : t.Stale a := by
  obtain ⟨i, hlow, hhigh⟩ := h
  have := hsize i
  exact ⟨i, by omega, hhigh⟩

end State

/-- Both calls give the same reply and states equal but for stale bytes, or do not return for the same reason. -/
def SameOutcome : Except Fault (Reply × State) → Except Fault (Reply × State) → Prop
  | .ok (r, t), .ok (r', t') => r = r' ∧ t.StaleEq t'
  | .error e, .error e' => e = e'
  | _, _ => False

/-! ## Calls that do not look at the data blocks -/

section WithMem
variable (s : State) (m : Mem)

theorem sonLoop_withMem (son_name : List UInt8) (k : Nat) (p : InodePtr) :
    sonLoop son_name (s.withMem m) k p = sonLoop son_name s k p := by
  induction k generalizing p with
  | zero => cases p <;> rfl
  | succ k ih =>
    cases p with
    | none => rfl
    | some i => simp only [sonLoop, State.withMem_inode, ih]

theorem parseLoop_withMem (k : Nat) (cur : Fin FS_NPAGES) (path : List UInt8) :
    parseLoop k cur path (s.withMem m) = (parseLoop k cur path s).map fun x => (x.1, x.2.withMem m) := by
  induction k generalizing cur path s with
  | zero => rfl
  | succ k ih =>
    have htoken : get_path_first_token path (s.withMem m) =
        ((get_path_first_token path s).1, (get_path_first_token path s).2.withMem m) := rfl
    unfold parseLoop
    rw [htoken]
    generalize get_path_first_token path s = x
    obtain ⟨size, t⟩ := x
    have hson : get_son_inode cur (t.withMem m).token (t.withMem m) = get_son_inode cur t.token t :=
      sonLoop_withMem t m _ _ _
    dsimp only
    rw [hson]
    by_cases hneg : size < 0
    · simp only [hneg, if_true]; rfl
    · simp only [hneg, if_false, bind, Except.bind, State.withMem_inode]
      cases (if size > 0 then get_son_inode cur t.token t else .ok (some cur)) with
      | error e => rfl
      | ok son =>
        cases son with
        | none => rfl
        | some i =>
          dsimp only
          cases (t.inode i).type with
          | EMPTY => rfl
          | FILE => dsimp only; split <;> rfl
          | FOLDER =>
            dsimp only
            split
            · rfl
            · exact ih _ _ _

theorem parse_path_withMem (path : List UInt8) :
    parse_path path (s.withMem m) = (parse_path path s).map fun x => (x.1, x.2.withMem m) := by
  unfold parse_path
  split
  · rfl
  · exact parseLoop_withMem s m _ _ _

theorem tokenAfter_withMem (path : List UInt8) : (s.withMem m).tokenAfter path = s.tokenAfter path := by
  unfold State.tokenAfter
  rw [parse_path_withMem]
  cases parse_path path s <;> rfl

variable {s} (hi : Inv s)
include hi

theorem create_withMem (path name : Option CStr) (type : TypeFile) :
    create path name type (s.withMem m) = (create path name type s).map fun x => (x.1, x.2.withMem m) := by
  obtain ⟨T, ht⟩ := hi.tree
  cases path with
  | none => rfl
  | some path => cases name with
    | none => rfl
    | some name =>
      by_cases hn : ValidName name.chars
      · have hres : (s.withMem m).resolve path.chars = s.resolve path.chars := State.resolve_congr rfl _
        have hkind : (s.withMem m).kind = s.kind := rfl
        have hfree : (s.withMem m).freeEntry = s.freeEntry := rfl
        rw [create_eq ht hi.token path hn type, create_eq (s := s.withMem m) (ht.congr rfl) hi.token path hn type, hres, hkind, hfree,
          tokenAfter_withMem]
        cases s.resolve path.chars with
        | none => rfl
        | some d =>
          dsimp only
          split
          · rfl
          · cases s.freeEntry <;> rfl
      · rw [create_invalid hn, create_invalid hn]
        rfl

theorem delete_withMem (path : Option CStr) :
    delete path (s.withMem m) = (delete path s).map fun x => (x.1, x.2.withMem m) := by
  obtain ⟨T, ht⟩ := hi.tree
  cases path with
  | none => rfl
  | some path =>
    have hres : (s.withMem m).resolve path.chars = s.resolve path.chars := State.resolve_congr rfl _
    rw [delete_eq ht hi.token path, delete_eq (s := s.withMem m) (ht.congr rfl) hi.token path, hres, tokenAfter_withMem]
    cases s.resolve path.chars with
    | none => rfl
    | some i =>
      dsimp only
      split <;> rfl

omit hi in
theorem openInode_withMem (type : TypeFile) (invalid_path : VfsError) (set : Inode → FileDescriptor → FileDescriptor)
    (path : Option CStr) (fd : Option Int) : openInode type invalid_path set path fd (s.withMem m) =
      (openInode type invalid_path set path fd s).map fun x => (x.1, x.2.withMem m) := by
  have hfd : get_next_fd (s.withMem m) = get_next_fd s := rfl
  unfold openInode
  cases fd with
  | none => rfl
  | some fd =>
    dsimp only
    rw [hfd]
    split
    · rfl
    · cases path with
      | none => rfl
      | some path =>
        simp only [bind, Except.bind, parse_path_withMem]
        cases parse_path path.chars s with
        | error e => rfl
        | ok x =>
          obtain ⟨file, t⟩ := x
          cases file with
          | none => rfl
          | some i =>
            simp only [Except.map, State.withMem_inode]
            by_cases hi : (t.inode i).type = type
            · simp only [hi, ne_eq, not_true_eq_false, if_false]
              cases fdIndex (get_next_fd s) <;> rfl
            · simp only [hi, ne_eq, not_false_eq_true, if_true]
              rfl

omit hi in
theorem close_withMem (clear : FileDescriptor → FileDescriptor) (fd : Option Int) :
    close clear fd (s.withMem m) = (close clear fd s).map fun x => (x.1, x.2.withMem m) := by
  unfold close
  cases fd with
  | none => rfl
  | some fd =>
    dsimp only
    split
    · rfl
    · cases fdIndex fd with
      | error e => rfl
      | ok d =>
        have hslot : (s.withMem m).slot d = s.slot d := rfl
        simp only [bind, Except.bind, hslot]
        cases (s.slot d).inode <;> rfl

end WithMem

/-! ## The calls that do not leak -/

/-- The bytes that a read of `len` bytes copies from a file of that size, neither being 0. -/
def copiedBytes (size len : Nat) : Nat :=
  if FS_NPAGES ≤ len ∧ len < 2 ^ 31 then FS_NPAGES else (min len size + 7) / 8 * 8

/-- The call is no read that copies past the size of a file that is not empty. Where the first byte behind
the content would fall into a data block, it falls into the root's, whose bytes are all stale. -/
def Call.NoLeak (s : State) : Call → Prop
  | .read_file fd str len => ∀ (d : Fin MAX_OPEN_FILES) (i : Fin FS_NPAGES), fd = some (d.val : Int) → str ≠ 0 →
      s.fileAt d = some i → (s.inode i).size ≠ 0 → len ≠ 0 →
      copiedBytes (s.inode i).size len.toNat ≤ (s.inode i).size ∨ InBlocks (str + (s.inode i).size)
  | _ => True

theorem words_readCount {size : Nat} {len : UInt32} (hs : size ≠ 0) (hl : len ≠ 0) :
    words (readCount size len) = copiedBytes size len.toNat := by
  have hl' : len.toNat ≠ 0 := toNat_ne_zero hl
  have hpages : FS_NPAGES = 128 := rfl
  unfold words readCount copiedBytes
  rw [if_neg (not_or.2 ⟨hs, hl⟩)]
  split_ifs <;> omega

/-! ## One call -/

/-- A call that does not look at memory. -/
def Call.MemFree : Call → Prop
  | .read_file .. | .write_file .. | .append_file .. | .get_next_dir_son .. => False
  | _ => True

theorem exec_withMem {s : State} (hi : Inv s) (m : Mem) {c : Call} (hc : c.MemFree) :
    exec c (s.withMem m) = (exec c s).map fun x => (x.1, x.2.withMem m) := by
  have mapped : ∀ {α : Type} (f : α × State → Reply × State) (x : Except Fault (α × State)),
      (∀ y, f (y.1, y.2.withMem m) = ((f y).1, (f y).2.withMem m)) →
      (x.map fun x => (x.1, x.2.withMem m)).map f = (x.map f).map fun x => (x.1, x.2.withMem m) := by
    intro α f x hf
    cases x with
    | error e => rfl
    | ok y => exact congrArg Except.ok (hf y)
  cases c
  case create_file path file =>
    simp only [exec, create_file, create_withMem m hi]
    exact mapped _ _ fun _ => rfl
  case create_dir path dir_name =>
    simp only [exec, create_dir, create_withMem m hi]
    exact mapped _ _ fun _ => rfl
  case delete_file path =>
    simp only [exec, delete_file, delete_withMem m hi]
    exact mapped _ _ fun _ => rfl
  case delete_dir path =>
    simp only [exec, delete_dir, delete_withMem m hi]
    exact mapped _ _ fun _ => rfl
  case open_file path fd =>
    simp only [exec, open_file, openInode_withMem]
    exact mapped _ _ fun _ => rfl
  case open_dir path fd =>
    simp only [exec, open_dir, openInode_withMem]
    exact mapped _ _ fun _ => rfl
  case close_file fd =>
    simp only [exec, close_file, close_withMem]
    exact mapped _ _ fun _ => rfl
  case close_dir fd =>
    simp only [exec, close_dir, close_withMem]
    exact mapped _ _ fun _ => rfl
  all_goals exact hc.elim

theorem Effect.memFree {s s' : State} {c : Call} {r : Reply} (h : Effect s c r s') (hc : c.MemFree) :
    s'.mem = s.mem ∧ ∀ i, (s'.inode i).size ≤ (s.inode i).size := by
  cases h with
  | created => exact ⟨rfl, fun i => by rw [State.created_size]⟩
  | removed =>
    refine ⟨rfl, fun i => ?_⟩
    rw [State.removed_inode]
    split
    · exact Nat.zero_le _
    · exact le_refl _
  | opened => exact ⟨rfl, fun i => by rw [State.opened_inode]⟩
  | closed => exact ⟨rfl, fun i => by rw [State.closed_inode]⟩
  | wrote hw => cases hw <;> exact hc.elim
  | refused => exact ⟨rfl, fun _ => le_refl _⟩
  | read => exact hc.elim
  | listed => exact hc.elim
  | ended => exact hc.elim

/-- A read copies words from the page to a place that does not overlap it. -/
theorem fetched_eq {t : State} (hi : Inv t) {d : Fin MAX_OPEN_FILES} {i : Fin FS_NPAGES} (hf : t.fileAt d = some i)
    {str : Nat} {len : UInt32} (hbuf : ∀ k < max len.toNat 1, ¬ InBlocks (str + k)) (hs : (t.inode i).size ≠ 0)
    (hl : len ≠ 0) : copiedBytes (t.inode i).size len.toNat ≤ PAGE_SIZE ∧
      t.fetched i str len = t.mem.copy (pageAddr i) str (copiedBytes (t.inode i).size len.toNat) := by
  obtain ⟨T, ht⟩ := hi.tree
  have hroot : i ≠ ROOT_INODE := by
    rintro rfl
    have := (State.fileAt_eq_some.1 hf).2
    rw [ht.root] at this; cases this
  have hpos : i.val ≠ 0 := fun e => hroot (Fin.ext e)
  have hlt : i.val < 128 := i.isLt
  have hsize : (t.inode i).size ≤ 4096 := ht.size i
  have hwords := words_le (readCount (t.inode i).size len)
  have hcount := readCount_le_len (t.inode i).size len
  rw [words_readCount hs hl] at hwords
  have hpage : copiedBytes (t.inode i).size len.toNat ≤ PAGE_SIZE := by
    have hpages : FS_NPAGES = 128 := rfl
    rw [PAGE_SIZE_eq]
    unfold copiedBytes
    split_ifs <;> omega
  refine ⟨hpage, ?_⟩
  unfold State.fetched
  rw [if_neg (not_or.2 ⟨hs, hl⟩), memcpy_eq, words_readCount hs hl]
  rw [words_readCount hs hl]
  rw [PAGE_SIZE_eq] at hpage
  have hout : ∀ a, pageAddr 1 ≤ a → a < pageAddr FS_NPAGES → a < str ∨ str + max len.toNat 1 + 7 ≤ a := fun a ha ha' =>
    outside_of_buffer hbuf (Nat.le_max_right _ _) ha ha'
  have hstart := hout (pageAddr i)
  have hstr := hout str
  rw [pageAddr_end] at hstart hstr
  simp only [pageAddr_eq] at hstart hstr ⊢
  omega

section Outcome
variable {s s' : State} (hi : Inv s) (heq : s.StaleEq s')
include hi heq

theorem memFree_outcome {c : Call} (hc : c.MemFree) : SameOutcome (exec c s) (exec c s') := by
  rw [heq.eq_withMem, exec_withMem hi s'.mem hc]
  cases hx : exec c s with
  | error e => rfl
  | ok x =>
    obtain ⟨r, t⟩ := x
    obtain ⟨tk, -, he⟩ := exec_effect hi hx
    obtain ⟨hm, hsize⟩ := he.memFree hc
    refine ⟨rfl, State.staleEq_withMem fun a ha => ?_⟩
    rw [hm]
    exact heq.mem a fun hs => ha (hs.mono hsize)

/-- A write puts the same bytes in both, and leaves stale what is behind them. -/
theorem written_staleEq {i : Fin FS_NPAGES} {str base r : Nat} (hbase : base ≤ (s.inode i).size)
    (hr : base + r ≤ FILE_MAX_SIZE) (hbuf : ∀ k < r, ¬ InBlocks (str + k)) :
    (s.written i str base r).StaleEq (s'.written i str base r) := by
  obtain ⟨T, ht⟩ := hi.tree
  have hs' := heq.eq_withMem
  generalize s'.mem = m at hs'
  subst hs'
  refine ⟨fun a ha => ?_, rfl, rfl, rfl, rfl⟩
  rw [State.written_mem, State.written_mem, copyBytes_of_buffer _ i hr hbuf, copyBytes_of_buffer _ i hr hbuf]
  by_cases hin : pageAddr i + base ≤ a ∧ a < pageAddr i + base + r
  · obtain ⟨k, rfl⟩ := Nat.exists_eq_add_of_le hin.1
    have hk : k < r := by omega
    rw [Mem.copy_inside hk, Mem.copy_inside hk]
    exact heq.mem _ fun hst => hbuf k hk hst.inBlocks
  · rw [Mem.copy_outside (by omega), Mem.copy_outside (by omega)]
    apply heq.mem a
    intro hst
    obtain ⟨j, hlow, hhigh⟩ := hst
    by_cases hj : j = i
    · subst hj
      refine ha ⟨j, ?_, hhigh⟩
      rw [State.written_inode, if_pos rfl]
      dsimp only
      omega
    · refine ha ⟨j, ?_, hhigh⟩
      rw [State.written_inode, if_neg hj]
      exact hlow

omit hi in
/-- The calls that begin with the checks on the descriptor, once they agree behind them. -/
theorem transfer_outcome {fd : Option Int} {str : Nat} {f : State → Except Fault (Int × State)}
    {k : State → Option (Fin MAX_OPEN_FILES × Fin FS_NPAGES) → Except Fault (Int × State)}
    (hf : ∀ t, f t = fileOf fd str t >>= k t) (hk : ∀ t, k t none = .ok (-1, t))
    (hslot : ∀ d : Fin MAX_OPEN_FILES, fd = some (d.val : Int) → str ≠ 0 →
      SameOutcome ((f s).map (Reply.ofCount fd)) ((f s').map (Reply.ofCount fd))) :
    SameOutcome ((f s).map (Reply.ofCount fd)) ((f s').map (Reply.ofCount fd)) := by
  have hsame : fileOf fd str s' = fileOf fd str s := by rw [heq.eq_withMem]; rfl
  cases hx : fileOf fd str s with
  | error e =>
    rw [hf, hf, hsame, hx]
    rfl
  | ok x =>
    rcases fileOf_cases hx with rfl | ⟨hstr, d, hd⟩
    · have hnone : ∀ t, fileOf fd str t = .ok none → f t = .ok (-1, t) := by
        intro t ht
        rw [hf, ht]
        exact hk t
      rw [hnone s hx, hnone s' (hsame.trans hx)]
      exact ⟨rfl, heq⟩
    · exact hslot d hd hstr

theorem write_outcome (fd : Option Int) (str : Nat) (len : UInt32) (hb : (Call.write_file fd str len).Buffers) :
    SameOutcome (exec (.write_file fd str len) s) (exec (.write_file fd str len) s') := by
  obtain ⟨T, ht⟩ := hi.tree
  refine transfer_outcome heq (fun _ => rfl) (fun _ => rfl) fun d hd hstr => ?_
  subst hd
  have hat : s'.fileAt d = s.fileAt d := by rw [heq.eq_withMem]; rfl
  rw [write_file_eq ht hstr, write_file_eq (ht.congr heq.table) hstr, hat]
  cases s.fileAt d with
  | none => exact ⟨rfl, heq⟩
  | some i =>
    have hle := writeCount_le 0 len
    exact ⟨rfl, written_staleEq hi heq (Nat.zero_le _) (base_add_writeCount_le (Nat.zero_le _) len)
      fun k hk => hb k (by omega)⟩

theorem append_outcome (fd : Option Int) (str : Nat) (len : UInt32) (hb : (Call.append_file fd str len).Buffers) :
    SameOutcome (exec (.append_file fd str len) s) (exec (.append_file fd str len) s') := by
  obtain ⟨T, ht⟩ := hi.tree
  refine transfer_outcome heq (fun _ => rfl) (fun _ => rfl) fun d hd hstr => ?_
  subst hd
  have hat : s'.fileAt d = s.fileAt d := by rw [heq.eq_withMem]; rfl
  rw [append_file_eq ht hstr, append_file_eq (ht.congr heq.table) hstr, hat]
  cases s.fileAt d with
  | none => exact ⟨rfl, heq⟩
  | some i =>
    have hinode : s'.inode i = s.inode i := by rw [heq.eq_withMem]; rfl
    have hle := writeCount_le (s.inode i).size len
    dsimp only
    rw [hinode]
    exact ⟨rfl, written_staleEq hi heq (le_refl _) (base_add_writeCount_le (ht.size i) len) fun k hk => hb k (by omega)⟩

theorem read_outcome (fd : Option Int) (str : Nat) (len : UInt32) (hb : (Call.read_file fd str len).Buffers)
    (hno : (Call.read_file fd str len).NoLeak s) :
    SameOutcome (exec (.read_file fd str len) s) (exec (.read_file fd str len) s') := by
  obtain ⟨T, ht⟩ := hi.tree
  refine transfer_outcome heq (fun _ => rfl) (fun _ => rfl) fun d hd hstr => ?_
  subst hd
  have hi' : Inv s' := ⟨⟨T, ht.congr heq.table⟩, heq.token ▸ hi.token, fun e => by rw [heq.eq_withMem]; exact hi.next e⟩
  have hat : s'.fileAt d = s.fileAt d := by rw [heq.eq_withMem]; rfl
  rw [read_file_eq ht (hi.next d) hstr, read_file_eq (ht.congr heq.table) (hi'.next d) hstr, hat]
  cases hf : s.fileAt d with
  | none => exact ⟨rfl, heq⟩
  | some i =>
    have hinode : s'.inode i = s.inode i := by rw [heq.eq_withMem]; rfl
    dsimp only
    rw [hinode]
    refine ⟨rfl, fun a ha => ?_, heq.mem_map, heq.table, heq.slots, heq.token⟩
    have hmem : s'.mem a = s.mem a := heq.mem a ha
    dsimp only
    by_cases hz : (s.inode i).size = 0 ∨ len = 0
    · unfold State.fetched
      rw [hinode, if_pos hz, if_pos hz]
      exact Mem.write_congr _ _ hmem
    · obtain ⟨hs, hl⟩ := not_or.1 hz
      obtain ⟨hpage, hcopy⟩ := fetched_eq hi hf hb hs hl
      obtain ⟨-, hcopy'⟩ := fetched_eq hi' (hat.trans hf) hb (hinode ▸ hs) hl
      have hleak := hno d i rfl hstr hf hs hl
      have hwords := words_le (readCount (s.inode i).size len)
      have hcount := readCount_le_len (s.inode i).size len
      rw [words_readCount hs hl] at hwords
      rw [hinode] at hcopy'
      rw [hcopy, hcopy']
      generalize copiedBytes (s.inode i).size len.toNat = n at *
      by_cases hin : str ≤ a ∧ a < str + n
      · obtain ⟨k, rfl⟩ := Nat.exists_eq_add_of_le hin.1
        have hk : k < n := by omega
        rw [Mem.copy_inside hk, Mem.copy_inside hk]
        by_cases hks : k < (s.inode i).size
        · exact heq.mem _ fun hst => (State.stale_offset hst (by omega)).not_gt hks
        · -- The bytes behind the content go to the root's page, which is stale.
          have hroot : (s.inode ROOT_INODE).size = 0 := ht.empty _ (by rw [ht.root]; decide)
          have hblock := hleak.resolve_left (by omega)
          have hlast := hb (max len.toNat 1 - 1) (by omega)
          have hfirst := hb (s.inode i).size
          have hstale : s.Stale (str + k) := by
            refine ⟨ROOT_INODE, ?_⟩
            rw [hroot, show ROOT_INODE.val = 0 from rfl, PAGE_SIZE_eq]
            simp only [inBlocks_iff, pageAddr_eq] at hblock hlast hfirst ⊢
            omega
          exact absurd hstale ha
      · rw [Mem.copy_outside (by omega), Mem.copy_outside (by omega)]
        exact hmem

omit hi in
theorem write_staleEq (dst : Nat) (bytes : List UInt8) :
    (s.withMem (s.mem.write dst bytes)).StaleEq (s'.withMem (s'.mem.write dst bytes)) :=
  ⟨fun a ha => Mem.write_congr dst bytes (heq.mem a ha), heq.mem_map, heq.table, heq.slots, heq.token⟩

theorem list_outcome (fd : Option Int) (son_name : Nat) :
    SameOutcome (exec (.get_next_dir_son fd son_name) s) (exec (.get_next_dir_son fd son_name) s') := by
  obtain ⟨T, ht⟩ := hi.tree
  have hinode : ∀ i, s'.inode i = s.inode i := fun i => by rw [heq.eq_withMem]; rfl
  have hslot : ∀ d, s'.slot d = s.slot d := fun d => by rw [heq.eq_withMem]; rfl
  simp only [exec]
  cases fd with
  | none => exact ⟨rfl, heq⟩
  | some fd =>
    by_cases hb : son_name = 0
    · unfold get_next_dir_son
      simp only [hb, if_true]
      exact ⟨rfl, heq⟩
    rcases fdIndex_cases fd with hneg | ⟨d, rfl⟩ | ⟨hpos, hout⟩
    · unfold get_next_dir_son
      simp only [hb, if_false, hneg, if_true]
      exact ⟨rfl, heq⟩
    · rw [get_next_dir_son_eq ht hb, get_next_dir_son_eq (ht.congr heq.table) hb, hslot]
      cases (s.slot d).inode with
      | none => exact ⟨rfl, heq⟩
      | some i =>
        have hkind : s'.kind i = s.kind i := congrArg Inode.type (hinode i)
        dsimp only
        rw [hkind]
        split
        · exact ⟨rfl, heq⟩
        · cases (s.slot d).next_son with
          | none => exact ⟨rfl, write_staleEq heq son_name [0]⟩
          | some n =>
            have hwrite := write_staleEq heq son_name ((s.inode n).nameOf ++ [0])
            dsimp only
            rw [hinode]
            refine ⟨rfl, fun a ha => hwrite.mem a ha, heq.mem_map, heq.table, ?_, heq.token⟩
            unfold State.listed State.modSlot
            dsimp only
            rw [hinode, heq.slots]
    · unfold get_next_dir_son
      simp only [hb, hpos, if_false, hout]
      rfl

/-- A call that does not leak has the same outcome in both states. -/
theorem outcome_of_noLeak {c : Call} (hb : c.Buffers) (hno : c.NoLeak s) : SameOutcome (exec c s) (exec c s') := by
  cases c
  case read_file fd str len => exact read_outcome hi heq fd str len hb hno
  case write_file fd str len => exact write_outcome hi heq fd str len hb
  case append_file fd str len => exact append_outcome hi heq fd str len hb
  case get_next_dir_son fd son_name => exact list_outcome hi heq fd son_name
  all_goals exact memFree_outcome hi heq trivial

end Outcome

/-! ## A read that leaks -/

theorem Reachable.user {s : State} (h : Reachable s) {m : Mem} (hm : ∀ a, InBlocks a → m a = s.mem a) :
    Reachable (s.withMem m) := h.next (.user hm)

theorem Reachable.write {s : State} (h : Reachable s) {d : Fin MAX_OPEN_FILES} {i : Fin FS_NPAGES}
    (hf : s.fileAt d = some i) {str : Nat} (hstr : str ≠ 0) (len : UInt32) :
    Reachable (s.written i str 0 (writeCount 0 len)) := by
  obtain ⟨T, ht⟩ := h.invariant.tree
  have hwrite := write_file_eq ht (d := d) hstr len
  rw [hf] at hwrite
  apply h.call (c := .write_file (some (d.val : Int)) str len) (r := ⟨.count (writeCount 0 len), some (d.val : Int)⟩)
  simp only [exec, hwrite]
  rfl

/-- A process with an open file can put any bytes at the start of its page, and end the file there. -/
theorem Reachable.put {s : State} (h : Reachable s) {d : Fin MAX_OPEN_FILES} {i : Fin FS_NPAGES}
    (hf : s.fileAt d = some i) (f : Nat → UInt8) {r : Nat} (hr : r ≤ PAGE_SIZE) :
    ∃ m, Reachable ((s.withMem m).modInode i ({ · with size := r })) ∧ (∀ k < r, m (pageAddr i + k) = f k) ∧
      ∀ a, InBlocks a → (a < pageAddr i ∨ pageAddr i + r ≤ a) → m a = s.mem a := by
  rw [PAGE_SIZE_eq] at hr
  -- The bytes are first at address 1, which is no place in a data block.
  generalize hm₁ : (fun a => if 1 ≤ a ∧ a < 1 + r then f (a - 1) else s.mem a : Mem) = m₁
  have hblock : ∀ a, InBlocks a → m₁ a = s.mem a := by
    intro a ha
    rw [inBlocks_iff, pageAddr_eq] at ha
    rw [← hm₁]
    exact if_neg (by omega)
  have hlen : (UInt32.ofNat r).toNat = r := by
    rw [UInt32.toNat_ofNat']
    omega
  have hcount : writeCount 0 (UInt32.ofNat r) = r := by
    have hmax : FILE_MAX_SIZE = 4096 := rfl
    unfold writeCount
    rw [hlen]
    split_ifs <;> omega
  have hcopy : Mem.copyBytes m₁ 1 (pageAddr i + 0) r = Mem.copy m₁ 1 (pageAddr i) r := by
    refine copyBytes_of_buffer m₁ i (show 0 + r ≤ FILE_MAX_SIZE from ?_) fun k hk => ?_
    · rw [Nat.zero_add]; exact hr
    · rw [inBlocks_iff, pageAddr_eq]; omega
  have hreach := (h.user hblock).write (d := d) hf (by decide : (1 : Nat) ≠ 0) (UInt32.ofNat r)
  unfold State.written at hreach
  rw [hcount, State.withMem_mem, hcopy, Nat.zero_add] at hreach
  refine ⟨_, hreach, fun k hk => ?_, fun a ha hout => ?_⟩
  · rw [Mem.copy_inside hk, ← hm₁]
    dsimp only
    rw [if_pos (by omega), Nat.add_sub_cancel_left]
  · rw [Mem.copy_outside hout]
    exact hblock a ha

/-- The stale bytes of an open file can be anything: write a whole page, then the content again. -/
theorem exists_twin {s : State} (h : Reachable s) {d : Fin MAX_OPEN_FILES} {i : Fin FS_NPAGES} (hf : s.fileAt d = some i)
    (v : UInt8) : ∃ s', Reachable s' ∧ s.StaleEq s' ∧
      ∀ k, (s.inode i).size ≤ k → k < PAGE_SIZE → s'.mem (pageAddr i + k) = v := by
  obtain ⟨T, ht⟩ := h.invariant.tree
  have hsize : (s.inode i).size ≤ 4096 := ht.size i
  obtain ⟨m₁, h₁, hin₁, hout₁⟩ := h.put hf (fun _ => v) (le_refl PAGE_SIZE)
  generalize hs₁ : (s.withMem m₁).modInode i ({ · with size := PAGE_SIZE }) = s₁ at h₁
  have hmem₁ : s₁.mem = m₁ := by rw [← hs₁]; rfl
  have hf₁ : s₁.fileAt d = some i := by
    obtain ⟨hslot, htype⟩ := State.fileAt_eq_some.1 hf
    rw [← hs₁]
    exact State.fileAt_eq_some.2 ⟨hslot, by simpa using htype⟩
  obtain ⟨m₂, h₂, hin₂, hout₂⟩ := h₁.put hf₁ (fun k => s.mem (pageAddr i + k)) (r := (s.inode i).size) hsize
  -- Last, everything outside the data blocks is as it was.
  generalize hm : (fun a => if InBlocks a then m₂ a else s.mem a : Mem) = m
  have hblock : ∀ a, InBlocks a → m a = m₂ a := fun a ha => by rw [← hm]; exact if_pos ha
  have h₃ := h₂.user (m := m) hblock
  have hpage : ∀ k < 4096, InBlocks (pageAddr i + k) := by
    intro k hk
    have hi : i.val < 128 := i.isLt
    rw [inBlocks_iff]
    simp only [pageAddr_eq]
    omega
  have hstate : ((s₁.withMem m₂).modInode i ({ · with size := (s.inode i).size })).withMem m = s.withMem m := by
    rw [← hs₁]
    refine State.ext_inode (fun j => ?_) rfl rfl rfl
    simp only [State.withMem_inode, State.modInode_inode]
    by_cases hj : j = i
    · subst hj; simp
    · simp [hj]
  rw [hstate] at h₃
  refine ⟨_, h₃, State.staleEq_withMem fun a ha => ?_, fun k hlow hhigh => ?_⟩
  · by_cases hb : InBlocks a
    · rw [hblock a hb]
      by_cases hin : pageAddr i ≤ a ∧ a < pageAddr i + (s.inode i).size
      · obtain ⟨k, rfl⟩ := Nat.exists_eq_add_of_le hin.1
        exact hin₂ k (by omega)
      · rw [hout₂ a hb (by omega), hmem₁]
        apply hout₁ a hb
        by_contra hpg
        exact ha ⟨i, by omega, by omega⟩
    · rw [← hm]
      exact if_neg hb
  · rw [PAGE_SIZE_eq] at hhigh
    rw [State.withMem_mem, hblock _ (hpage k hhigh), hout₂ _ (hpage k hhigh) (by omega), hmem₁]
    exact hin₁ k hhigh

/-- The byte behind the content comes out of a read that copies it. -/
theorem leak_observed {s : State} (h : Reachable s) {c : Call} (hb : c.Buffers) (hleak : ¬ c.NoLeak s) :
    ∃ s', Reachable s' ∧ s.StaleEq s' ∧ ¬ SameOutcome (exec c s) (exec c s') := by
  have hi := h.invariant
  obtain ⟨T, ht⟩ := hi.tree
  cases c
  case read_file fd str len =>
    simp only [Call.NoLeak, not_forall, not_or] at hleak
    obtain ⟨d, i, rfl, hstr, hf, hs, hl, hlt, hout⟩ := hleak
    obtain ⟨s', hr', heq, htwin⟩ := exists_twin h hf (s.mem (pageAddr i + (s.inode i).size) + 1)
    refine ⟨s', hr', heq, fun hsame => ?_⟩
    have hi' := hr'.invariant
    have hat : s'.fileAt d = s.fileAt d := by rw [heq.eq_withMem]; rfl
    have hinode : s'.inode i = s.inode i := by rw [heq.eq_withMem]; rfl
    obtain ⟨hpage, hcopy⟩ := fetched_eq hi hf hb hs hl
    obtain ⟨-, hcopy'⟩ := fetched_eq hi' (hat.trans hf) hb (hinode ▸ hs) hl
    simp only [exec, read_file_eq ht (hi.next d) hstr, read_file_eq (ht.congr heq.table) (hi'.next d) hstr, hat, hf] at hsame
    have hbyte := hsame.2.mem (str + (s.inode i).size) fun hst => hout hst.inBlocks
    dsimp only [Reply.ofCount] at hbyte
    rw [hcopy, hcopy', hinode, Mem.copy_inside (by omega), Mem.copy_inside (by omega), htwin _ (le_refl _) (by omega)] at hbyte
    simp at hbyte
  all_goals exact absurd trivial hleak

/-! ## Two runs -/

/-- A step of the run: a process at work in its own memory, or a call that does not leak. -/
def StepNoLeak (st : Step State Event) : Prop :=
  match st.event with
  | .call c _ => c.Buffers ∧ c.NoLeak st.pre
  | .user => True

/-- From a state equal but for stale bytes, a step that does not leak can be made as well: same call, same
reply, and the states stay equal but for stale bytes. -/
theorem Next.twin {s t s' : State} {e : Event} (hi : Inv s) (h : Next s e t) (hno : StepNoLeak ⟨s, e, t⟩)
    (heq : s.StaleEq s') : ∃ t', Next s' e t' ∧ t.StaleEq t' := by
  cases h with
  | @call c r t hc =>
    have hsame := outcome_of_noLeak hi heq hno.1 hno.2
    rw [hc] at hsame
    cases hc' : exec c s' with
    | error e => rw [hc'] at hsame; exact hsame.elim
    | ok x =>
      rw [hc'] at hsame
      obtain ⟨rfl, ht⟩ := hsame
      exact ⟨x.2, .call hc', ht⟩
  | @user m hm =>
    refine ⟨s'.withMem fun a => if InBlocks a then s'.mem a else m a, .user fun a ha => if_pos ha, ?_, heq.mem_map,
      heq.table, heq.slots, heq.token⟩
    intro a ha
    rw [State.withMem_mem]
    split
    · next hb => rw [heq.mem a ha]; exact (hm a hb).symm
    · rfl

theorem Run.twin {s s' t : State} {tr : List (Step State Event)} (hi : Inv s) (h : Run Next s tr t)
    (hno : ∀ st ∈ tr, StepNoLeak st) (heq : s.StaleEq s') :
    ∃ tr' t', Run Next s' tr' t' ∧ tr'.map Step.event = tr.map Step.event ∧ t.StaleEq t' := by
  induction h with
  | nil => exact ⟨[], s', .nil, rfl, heq⟩
  | @snoc tr u e t hrun hn ih =>
    obtain ⟨tr', u', hrun', hevents, heq'⟩ := ih fun st hst => hno st (by simp [hst])
    have hu := hrun.inv Inv hi fun _ _ _ => Inv.next_step
    obtain ⟨t', hn', ht⟩ := hn.twin hu (hno _ (by simp)) heq'
    exact ⟨_, t', hrun'.snoc hn', by simp [hevents], ht⟩

/-- Stale bytes stay unobserved exactly in the calls that do not leak: there every reachable state equal
but for stale bytes gives the same outcome. In a run of such calls no reply depends on a stale byte. -/
theorem Reachable.stale_unobserved_iff {s : State} (h : Reachable s) :
    (∀ c : Call, c.Buffers →
      ((∀ s', Reachable s' → s.StaleEq s' → SameOutcome (exec c s) (exec c s')) ↔ c.NoLeak s)) ∧
    ∀ tr t, Run Next s tr t → (∀ st ∈ tr, StepNoLeak st) → ∀ s', s.StaleEq s' →
      ∃ tr' t', Run Next s' tr' t' ∧ tr'.map Step.event = tr.map Step.event ∧ t.StaleEq t' := by
  refine ⟨fun c hb => ⟨fun hall => ?_, fun hno s' _ heq => ?_⟩, fun tr t hrun hno s' heq => ?_⟩
  · by_contra hleak
    obtain ⟨s', hr', heq, hdiff⟩ := leak_observed h hb hleak
    exact hdiff (hall s' hr' heq)
  · exact outcome_of_noLeak h.invariant heq hb hno
  · exact Run.twin h.invariant hrun hno heq

/-- A file, open. -/
def openFile : State := afterCalls [.create_file (some rootName) (some nameA),
  .open_file (some pathA) (some 0)]

/-- The file with one byte in it. -/
def oneByte : State := openFile.written entry1 1 0 1

theorem reachable_oneByte : Reachable oneByte := by
  have hf : openFile.fileAt slot0 = some entry1 := by decide +kernel
  exact Reachable.write (reachable_afterCalls _) hf (by decide : (1 : Nat) ≠ 0) 1

/-- A read of 200 bytes, to a buffer outside the data blocks. -/
def longRead : Call := .read_file (some 0) 1 200

theorem longRead_buffers : longRead.Buffers := by
  intro k hk
  rw [inBlocks_iff, pageAddr_eq]
  have : max (200 : UInt32).toNat 1 = 200 := rfl
  omega

/-- It copies more than the one byte there is. -/
theorem longRead_leaks : ¬ longRead.NoLeak oneByte := by
  intro hno
  have hsize : (oneByte.inode entry1).size = 1 := by
    unfold oneByte
    rw [State.written_inode, if_pos rfl]
  have hf : oneByte.fileAt slot0 = some entry1 := by decide +kernel
  have := hno slot0 entry1 rfl (by decide) hf (by rw [hsize]; decide) (by decide)
  rw [hsize, inBlocks_iff, pageAddr_eq] at this
  revert this
  decide

/-- Appending to the file does not tell such states apart, the long read does. -/
theorem stale_unobserved_oneByte :
    (∀ s', Reachable s' → oneByte.StaleEq s' →
      SameOutcome (exec (.append_file (some 0) 1 0) oneByte) (exec (.append_file (some 0) 1 0) s')) ∧
    ¬ ∀ s', Reachable s' → oneByte.StaleEq s' → SameOutcome (exec longRead oneByte) (exec longRead s') := by
  have h := Reachable.stale_unobserved_iff reachable_oneByte
  refine ⟨(h.1 _ ?_).2 trivial, fun hall => longRead_leaks ((h.1 _ longRead_buffers).1 hall)⟩
  intro k hk
  rw [inBlocks_iff, pageAddr_eq]
  have : max (0 : UInt32).toNat 1 = 1 := rfl
  omega

/-- Reading 200 bytes of it delivers 128, of which 127 are stale. -/
theorem stale_observed : ¬ ∀ s s' : State, Reachable s → Reachable s' → s.StaleEq s' → ∀ c : Call, c.Buffers →
    SameOutcome (exec c s) (exec c s') := by
  intro hall
  obtain ⟨s', hr', heq, hdiff⟩ := leak_observed reachable_oneByte longRead_buffers longRead_leaks
  exact hdiff (hall _ s' reachable_oneByte hr' heq _ longRead_buffers)

end ClbFilesystem
