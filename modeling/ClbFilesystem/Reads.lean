import ClbFilesystem.Lengths
/-!
# What a read returns and what it stores

`read_inode` cuts the count a second time, at `FS_NPAGES` bytes from the start of
the block instead of the size of a page, and `memcpy` stores whole words. So a
read is right as long as it ends below that limit, or has the limit for its end,
or is so long that it counts as negative; and it stores past the end of a buffer
that is not a multiple of eight bytes long.
-/

namespace ClbFilesystem

open Lib

/-! ## Copies -/

/-- The bytes before a place that `memcpy` does not store to are copied as they were. -/
theorem memcpy_inside (m : Mem) (x0 x1 : Nat) (x2 : Int) {n k : Nat} (hn : n ≤ words x2)
    (h : x0 + n ≤ x1 ∨ x1 + words x2 ≤ x0) (hk : k < n) : memcpy m x0 x1 x2 (x1 + k) = m (x0 + k) := by
  induction m, x0, x1, x2 using memcpy.induct generalizing n k with
  | case1 m x0 x1 x2 hlt ih =>
    have hp := words_pos (x2 - 8)
    rw [words_succ (by omega)] at hn h
    rw [memcpy, if_pos hlt]
    by_cases hk8 : k < 8
    · rw [memcpy_outside _ _ _ _ (by omega)]
      exact Mem.copy_inside hk8
    · have hrest := ih (n := n - 8) (k := k - 8) (by omega) (by omega) (by omega)
      rw [show x1 + 8 + (k - 8) = x1 + k by omega, show x0 + 8 + (k - 8) = x0 + k by omega] at hrest
      rw [hrest]
      exact Mem.copy_outside (by omega)
  | case2 m x0 x1 x2 hle =>
    rw [words_of_le (by omega)] at hn
    rw [memcpy, if_neg hle]
    exact Mem.copy_inside (by omega)

theorem le_words (n : Nat) : n ≤ words n := by
  unfold words
  split_ifs <;> omega

/-- A buffer outside the data blocks, with up to seven bytes behind it, is clear of the page of any file. -/
theorem page_clear {i : Fin FS_NPAGES} (hi : i ≠ ROOT_INODE) {b n : Nat} (hbuf : ∀ k < n, ¬ InBlocks (b + k)) (hn : 1 ≤ n) :
    pageAddr i + FILE_MAX_SIZE ≤ b ∨ b + (n + 7) ≤ pageAddr i := by
  have hpos : i.val ≠ 0 := fun e => hi (Fin.ext e)
  have hlt : i.val < 128 := i.isLt
  have hmax : FILE_MAX_SIZE = 4096 := rfl
  have hfirst := hbuf 0 (by omega)
  have hlast := hbuf (n - 1) (by omega)
  have hpage := hbuf (pageAddr i - b)
  simp only [inBlocks_iff, pageAddr_eq] at hfirst hlast hpage ⊢
  omega

theorem fileAt_ne_root {s : State} {T : Tree} (h : TreeInv s T) {d : Fin MAX_OPEN_FILES} {i : Fin FS_NPAGES}
    (hi : s.fileAt d = some i) : i ≠ ROOT_INODE := by
  rintro rfl
  have ht := (State.fileAt_eq_some.1 hi).2
  rw [h.root] at ht
  cases ht

/-! ## The count -/

/-- The read heads and lengths for which the two cuts come out as one at the size of the file. -/
def CutRight (size pos : Nat) (len : UInt32) : Prop :=
  pos + len.toNat < FS_NPAGES ∨ len.toNat < 2 ^ 31 ∧ min (pos + len.toNat) size = FS_NPAGES ∨
    2 ^ 31 ≤ len.toNat ∧ pos + len.toNat < 2 ^ 32

instance (size pos : Nat) (len : UInt32) : Decidable (CutRight size pos len) := inferInstanceAs (Decidable (_ ∨ _))

/-- The count of `read_inode` at `pos`, case by case. -/
theorem size_to_read_at {n : Inode} {i : Fin FS_NPAGES} (hb : n.data_block = pageAddr i) (hs : n.size ≤ FILE_MAX_SIZE)
    {pos : Nat} (hpos : pos < n.size) (len : UInt32) : size_to_read n pos (toInt len.toNat) =
      if len.toNat < 2 ^ 31 ∧ FS_NPAGES ≤ pos + len.toNat ∨ 2 ^ 32 + FS_NPAGES ≤ pos + len.toNat then
        if pos ≤ FS_NPAGES then FS_NPAGES - pos else 2 ^ 64 - (pos - FS_NPAGES)
      else if 2 ^ 32 ≤ pos + len.toNat then 2 ^ 64 - 2 ^ 32 + len.toNat
      else min len.toNat (n.size - pos) := by
  obtain ⟨hlow, hhigh⟩ := pageAddr_bounds i
  have hlen := len.toNat_lt
  have hmax : FILE_MAX_SIZE = 4096 := rfl
  have hpages : FS_NPAGES = 128 := rfl
  have hint := toInt_len len
  have hsum : toUnsigned (pos + toInt len.toNat) = (pos + len.toNat) % 2 ^ 32 := by
    rw [hint]; unfold toUnsigned; split_ifs <;> omega
  have hstart : toUlong ((pageAddr i : Int) + pos) = pageAddr i + pos := by unfold toUlong; omega
  have hend : toUlong ((pageAddr i + pos : Nat) + toInt len.toNat) ≥ pageAddr i + FS_NPAGES ↔
      len.toNat < 2 ^ 31 ∧ FS_NPAGES ≤ pos + len.toNat ∨ 2 ^ 32 + FS_NPAGES ≤ pos + len.toNat := by
    rw [hint]; unfold toUlong; split_ifs <;> omega
  have hcap : toUlong ((pageAddr i : Int) + FS_NPAGES) = pageAddr i + FS_NPAGES := by unfold toUlong; omega
  have hcut : toUlong ((pageAddr i : Int) + FS_NPAGES - (pageAddr i + pos : Nat)) =
      if pos ≤ FS_NPAGES then FS_NPAGES - pos else 2 ^ 64 - (pos - FS_NPAGES) := by
    unfold toUlong; split_ifs <;> omega
  have hrest : toUnsigned ((n.size : Int) - pos) = n.size - pos := by unfold toUnsigned; omega
  have hall : toUlong (toInt len.toNat) = if len.toNat < 2 ^ 31 then len.toNat else 2 ^ 64 - 2 ^ 32 + len.toNat := by
    rw [hint]; unfold toUlong; split_ifs <;> omega
  unfold size_to_read
  simp only [hb, hsum, hstart, hcap, hend, hcut, hrest, hall]
  split_ifs <;> omega

/-- The count is what is there of what was asked for if the cuts are right, and otherwise it is not that, to an
`int` either. -/
theorem size_to_read_right_iff {n : Inode} {i : Fin FS_NPAGES} (hb : n.data_block = pageAddr i) (hs : n.size ≤ FILE_MAX_SIZE)
    {pos : Nat} (hpos : pos < n.size) {len : UInt32} (hlen : len ≠ 0) :
    (CutRight n.size pos len → size_to_read n pos (toInt len.toNat) = min len.toNat (n.size - pos)) ∧
    (toInt (size_to_read n pos (toInt len.toNat)) = (min len.toNat (n.size - pos) : Nat) → CutRight n.size pos len) := by
  have hlt := len.toNat_lt
  have hmax : FILE_MAX_SIZE = 4096 := rfl
  have hpages : FS_NPAGES = 128 := rfl
  have hne : len.toNat ≠ 0 := toNat_ne_zero hlen
  rw [size_to_read_at hb hs hpos]
  unfold CutRight
  constructor
  · intro hright
    split_ifs <;> omega
  · intro heq
    unfold toInt at heq
    split_ifs at heq <;> omega

/-! ## A read at any position -/

/-- The read head of slot `d` moved to `pos`. -/
def State.seek (s : State) (d : Fin MAX_OPEN_FILES) (pos : Nat) : State := s.modSlot d ({ · with next := pos })

/-- A read of `len` bytes at `pos` returns what is there of them, and fills the buffer with it. -/
def ReadsBack (s : State) (d : Fin MAX_OPEN_FILES) (i : Fin FS_NPAGES) (pos : Nat) (buf : Nat) (len : UInt32) : Prop :=
  ∃ s', read_file (some (d.val : Int)) buf len (s.seek d pos) = .ok ((min len.toNat ((s.inode i).size - pos) : Nat), s') ∧
    bytesAt s'.mem buf (min len.toNat ((s.inode i).size - pos)) = ((s.content i).drop pos).take (min len.toNat ((s.inode i).size - pos))

theorem State.seek_fileAt (s : State) (d : Fin MAX_OPEN_FILES) (pos : Nat) : (s.seek d pos).fileAt d = s.fileAt d := by
  unfold seek fileAt
  rw [modSlot_slot, if_pos rfl]
  rfl

/-- Below the end of the file `read_file` leaves it to `read_inode`. -/
theorem read_file_seek {s : State} {T : Tree} (h : TreeInv s T) {d : Fin MAX_OPEN_FILES} {i : Fin FS_NPAGES}
    (hi : s.fileAt d = some i) {pos : Nat} (hpos : pos < (s.inode i).size) {buf : Nat} (hbuf : buf ≠ 0) {len : UInt32}
    (hlen : len ≠ 0) : read_file (some (d.val : Int)) buf len (s.seek d pos) =
      .ok (toInt (size_to_read (s.inode i) pos (toInt len.toNat)),
        { s.seek d pos with mem := memcpy s.mem (pageAddr i + pos) buf (toLong (size_to_read (s.inode i) pos (toInt len.toNat))) }) := by
  obtain ⟨hlow, hhigh⟩ := pageAddr_bounds i
  have hsize : (s.inode i).size ≤ 4096 := h.size i
  have ht : ((s.seek d pos).inode i).type = .FILE := (State.fileAt_eq_some.1 hi).2
  have hnext : ((s.seek d pos).slot d).next = pos := by rw [State.seek, State.modSlot_slot, if_pos rfl]
  have hgo : ¬ (pos ≥ ((s.seek d pos).inode i).size ∨ len = 0) := by
    rw [not_or]
    exact ⟨Nat.not_le.2 hpos, hlen⟩
  have hrange : ¬ ((i.val : Int) < 0 ∨ (i.val : Int) ≥ FS_NPAGES) := by have := i.isLt; omega
  have hint : toInt (pos : Int) = pos := by unfold toInt; omega
  have hstart : toUlong ((pageAddr i : Int) + pos) = pageAddr i + pos := by unfold toUlong; omega
  unfold read_file
  simp only [fileOf_eq _ d hbuf, State.seek_fileAt, hi, bind, Except.bind, Option.map_some, hnext]
  rw [if_neg hgo]
  unfold read_inode
  have hid : ((s.seek d pos).inode i).id = i := h.id i
  have hblock : ((s.seek d pos).inode i).data_block = pageAddr i := h.block i
  simp only [hid, hrange, if_false, index_val, bind, Except.bind, pure, Except.pure, ht, ne_eq, not_true_eq_false, hint, hblock,
    hstart]
  rfl

theorem content_drop_take (s : State) (i : Fin FS_NPAGES) {pos n : Nat} (h : pos + n ≤ (s.inode i).size) :
    ((s.content i).drop pos).take n = bytesAt s.mem ((s.inode i).data_block + pos) n := by
  refine List.ext_getElem ?_ fun k hk hk' => ?_
  · simp only [List.length_take, List.length_drop, State.length_content, bytesAt, List.length_map, List.length_range]
    omega
  · simp only [List.getElem_take, List.getElem_drop, State.content, bytesAt, List.getElem_map, List.getElem_range, Nat.add_assoc]

/-- In every reachable state a read of an open file, at any position below its size and for any length, to a buffer
outside the data blocks, returns what the file holds there if and only if its two cuts come out right. -/
theorem Reachable.readsBack_iff {s : State} (h : Reachable s) {d : Fin MAX_OPEN_FILES} {i : Fin FS_NPAGES}
    (hi : s.fileAt d = some i) {pos : Nat} (hpos : pos < (s.inode i).size) {buf : Nat} (hstr : buf ≠ 0) {len : UInt32}
    (hlen : len ≠ 0) (hbuf : ∀ k < min len.toNat ((s.inode i).size - pos), ¬ InBlocks (buf + k)) :
    ReadsBack s d i pos buf len ↔ CutRight (s.inode i).size pos len := by
  obtain ⟨T, ht⟩ := h.invariant.tree
  obtain ⟨hright, hwrong⟩ := size_to_read_right_iff (ht.block i) (ht.size i) hpos hlen
  have hread := read_file_seek ht hi hpos hstr hlen
  constructor
  · rintro ⟨s', hr, -⟩
    rw [hread, Except.ok.injEq, Prod.mk.injEq] at hr
    exact hwrong hr.1
  · intro hcut
    obtain ⟨n, hn⟩ : ∃ n, n = min len.toNat ((s.inode i).size - pos) := ⟨_, rfl⟩
    have hsize : (s.inode i).size ≤ FILE_MAX_SIZE := ht.size i
    have hmax : FILE_MAX_SIZE = 4096 := rfl
    have hone : 1 ≤ n := by
      have hne : len.toNat ≠ 0 := toNat_ne_zero hlen
      omega
    unfold ReadsBack
    rw [← hn] at hbuf ⊢
    rw [hright hcut, ← hn] at hread
    have hret : toInt (n : Int) = n := by unfold toInt; omega
    have hlong : toLong (n : Int) = n := by unfold toLong; omega
    rw [hret, hlong] at hread
    refine ⟨_, hread, ?_⟩
    rw [content_drop_take s i (by omega), ht.block]
    refine List.map_congr_left fun k hk => ?_
    have hclear := page_clear (fileAt_ne_root ht hi) hbuf hone
    have hw := words_le n
    exact memcpy_inside _ _ _ _ (le_words n) (by omega) (List.mem_range.1 hk)

/-- The file `a`, open on the first slot, after 3 bytes were written to it. -/
def threeBytes : State := (afterCalls openedA).written entry1 1 0 3

theorem threeBytes_fileAt : threeBytes.fileAt slot0 = some entry1 := by
  have hi := State.fileAt_eq_some.1 fileAt_openedA
  refine State.fileAt_eq_some.2 ⟨hi.1, ?_⟩
  show threeBytes.kind entry1 = .FILE
  rw [threeBytes, State.written_kind]
  exact hi.2

theorem threeBytes_size : (threeBytes.inode entry1).size = 3 := by
  rw [threeBytes, State.written_inode, if_pos rfl]

theorem threeBytes_reachable : Reachable threeBytes := by
  obtain ⟨T, ht⟩ := (reachable_afterCalls openedA).invariant.tree
  have hc : Call.Writes (.write_file (some (slot0.val : Int)) 1 3) slot0 1 3 fun _ => 0 := .write_file
  exact (reachable_afterCalls openedA).call (exec_writes ht hc (by decide) fileAt_openedA)

/-- One byte read at position 1. -/
theorem readsBack_second : ReadsBack threeBytes slot0 entry1 1 1 1 := by
  refine (Reachable.readsBack_iff threeBytes_reachable threeBytes_fileAt ?_ (by decide) (by decide) fun k hk => ?_).2 ?_
  · rw [threeBytes_size]
    decide
  · have hk1 : k < 1 := lt_of_lt_of_le hk (min_le_left _ _)
    exact (by decide : ∀ k < 1, ¬ InBlocks (1 + k)) k hk1
  · rw [threeBytes_size]
    decide

/-- A read of 200 bytes returns 128 and not 3. -/
theorem readsBack_fails : ¬ ∀ s, Reachable s → ∀ d i pos buf len, s.fileAt d = some i → pos < (s.inode i).size → buf ≠ 0 →
    len ≠ 0 → (∀ k < min len.toNat ((s.inode i).size - pos), ¬ InBlocks (buf + k)) → ReadsBack s d i pos buf len := by
  intro hall
  obtain ⟨T, ht⟩ := threeBytes_reachable.invariant.tree
  have hpos : 0 < (threeBytes.inode entry1).size := by
    rw [threeBytes_size]
    decide
  obtain ⟨s', hex, -⟩ := hall _ threeBytes_reachable slot0 entry1 0 1 200 threeBytes_fileAt hpos (by decide) (by decide)
    fun k hk => by
      have hk3 : k < 3 := by
        rw [threeBytes_size] at hk
        exact lt_of_lt_of_le hk (min_le_right _ _)
      exact (by decide : ∀ k < 3, ¬ InBlocks (1 + k)) k hk3
  rw [read_file_seek ht threeBytes_fileAt hpos (by decide) (by decide), Except.ok.injEq, Prod.mk.injEq] at hex
  have hcut := (size_to_read_right_iff (ht.block entry1) (ht.size entry1) hpos (by decide)).2 hex.1
  rw [threeBytes_size] at hcut
  exact absurd hcut (by decide)

/-! ## What a read stores -/

/-- Whatever memory holds around the page of the file, the read changes nothing outside `str[0 .. len]`. -/
def StaysInside (s : State) (d : Fin MAX_OPEN_FILES) (i : Fin FS_NPAGES) (str : Nat) (len : UInt32) : Prop :=
  ∀ mem : Mem, (∀ k < FILE_MAX_SIZE, mem (pageAddr i + k) = s.mem (pageAddr i + k)) →
    ∀ n s', read_file (some (d.val : Int)) str len { s with mem := mem } = .ok (n, s') →
      ∀ a, a < str ∨ str + len.toNat < a → s'.mem a = mem a

/-- If the read copies at all, the copy changes nothing outside the bytes it is said to copy. -/
def CopiesExactly (s : State) (i : Fin FS_NPAGES) (str : Nat) (len : UInt32) : Prop :=
  ¬ ((s.inode i).size = 0 ∨ len = 0) →
    ∀ mem : Mem, (∀ k < FILE_MAX_SIZE, mem (pageAddr i + k) = s.mem (pageAddr i + k)) →
      ∀ a, a < str ∨ str + readCount (s.inode i).size len ≤ a →
        memcpy mem (pageAddr i) str (size_to_read (s.inode i) 0 (toInt len.toNat)) a = mem a

theorem exists_ne_byte (b : UInt8) : ∃ c, c ≠ b := ⟨b + 1, by simp⟩

/-- Whole words reach `bound` only if they are `bound` bytes at most: else the byte there can be made to change. -/
theorem words_le_of_unchanged {m : Mem} {i : Fin FS_NPAGES} {str n bound : Nat} (hn : words n ≤ FILE_MAX_SIZE)
    (hclear : pageAddr i + FILE_MAX_SIZE ≤ str ∨ str + words n ≤ pageAddr i)
    (h : ∀ mem : Mem, (∀ k < FILE_MAX_SIZE, mem (pageAddr i + k) = m (pageAddr i + k)) →
      memcpy mem (pageAddr i) str n (str + bound) = mem (str + bound)) : words n ≤ bound := by
  by_contra hlt
  obtain ⟨c, hc⟩ := exists_ne_byte (m (pageAddr i + bound))
  have hkeep : ∀ k < FILE_MAX_SIZE, Function.update m (str + bound) c (pageAddr i + k) = m (pageAddr i + k) :=
    fun k hk => Function.update_of_ne (by omega) _ _
  have hsame := h (Function.update m (str + bound) c) hkeep
  rw [memcpy_inside _ _ _ _ (le_refl _) (by omega) (by omega : bound < words n), hkeep bound (by omega),
    Function.update_self] at hsame
  exact hc hsame.symm

/-- The words a read of an open file stores lie in its page and clear of the buffer. -/
theorem readCount_words {s : State} {T : Tree} (h : TreeInv s T) {i : Fin FS_NPAGES} (hi : i ≠ ROOT_INODE) {str : Nat}
    {len : UInt32} (hlen : len ≠ 0) (hbuf : ∀ k < max len.toNat 1, ¬ InBlocks (str + k)) :
    words (readCount (s.inode i).size len) ≤ FILE_MAX_SIZE ∧
    (pageAddr i + FILE_MAX_SIZE ≤ str ∨ str + words (readCount (s.inode i).size len) ≤ pageAddr i) := by
  have hmax : FILE_MAX_SIZE = 4096 := rfl
  have hpage := readCount_le_page (h.size i) len
  have hle := readCount_le_len (s.inode i).size len
  have hne : len.toNat ≠ 0 := toNat_ne_zero hlen
  have hw := words_le (readCount (s.inode i).size len)
  have hclear := page_clear hi hbuf (by omega)
  constructor
  · unfold words
    split_ifs <;> omega
  · omega

theorem readCount_pos {size : Nat} {len : UInt32} (hz : ¬ (size = 0 ∨ len = 0)) : 1 ≤ readCount size len := by
  have hne : len.toNat ≠ 0 := toNat_ne_zero fun h => hz (.inr h)
  have hpages : FS_NPAGES = 128 := rfl
  unfold readCount
  rw [if_neg hz]
  rw [not_or] at hz
  split_ifs <;> omega

theorem words_eq_iff {n : Nat} (hn : 1 ≤ n) : words n ≤ n ↔ 8 ∣ n := by
  unfold words
  split_ifs <;> omega

/-- Which reads fit: the count is either the limit, or what is there of what was asked for. -/
theorem words_readCount_le_iff {size : Nat} {len : UInt32} (hs : size ≤ FILE_MAX_SIZE) (hz : ¬ (size = 0 ∨ len = 0)) :
    words (readCount size len) ≤ len.toNat + 1 ↔
      FS_NPAGES ≤ len.toNat ∨ words (min len.toNat size : Nat) ≤ len.toNat + 1 := by
  have hmax : FILE_MAX_SIZE = 4096 := rfl
  have hpages : FS_NPAGES = 128 := rfl
  unfold readCount
  rw [if_neg hz]
  split_ifs with hcut
  · refine iff_of_true ?_ (.inl hcut.1)
    unfold words
    split_ifs <;> omega
  · constructor
    · exact .inr
    · rintro (hge | hle)
      · unfold words
        split_ifs <;> omega
      · exact hle

section Stores
variable {s : State} (h : Reachable s) {d : Fin MAX_OPEN_FILES} {i : Fin FS_NPAGES} (hi : s.fileAt d = some i) {str : Nat} {len : UInt32}
  (hbuf : ∀ k < max len.toNat 1, ¬ InBlocks (str + k))
include h hi hbuf

theorem Reachable.staysInside_iff (hstr : str ≠ 0) : StaysInside s d i str len ↔ len = 0 ∨ (s.inode i).size = 0 ∨
    words (readCount (s.inode i).size len) ≤ len.toNat + 1 := by
  have hinv := h.invariant
  obtain ⟨T, ht⟩ := hinv.tree
  have hread : ∀ mem : Mem, read_file (some (d.val : Int)) str len { s with mem := mem } =
      .ok ((readCount (s.inode i).size len : Int), { s with mem := State.fetched { s with mem := mem } i str len }) := by
    intro mem
    have ht' : TreeInv { s with mem := mem } T := ht.congr rfl
    have hi' : ({ s with mem := mem } : State).fileAt d = some i := hi
    rw [read_file_eq ht' (hinv.next d) hstr len, hi']
    rfl
  by_cases hz : (s.inode i).size = 0 ∨ len = 0
  · refine iff_of_true (fun mem _ n s' hr a ha => ?_) (hz.symm.imp_right .inl)
    rw [hread, Except.ok.injEq, Prod.mk.injEq] at hr
    obtain ⟨-, rfl⟩ := hr
    have hfetched : State.fetched { s with mem := mem } i str len = mem.write str [0] := if_pos hz
    show State.fetched { s with mem := mem } i str len a = mem a
    rw [hfetched]
    exact Mem.write_outside _ _ _ (by simp only [List.length_singleton]; omega)
  · have hfetched : ∀ mem : Mem, State.fetched { s with mem := mem } i str len =
        memcpy mem (pageAddr i) str (readCount (s.inode i).size len) := fun mem => if_neg hz
    rw [not_or] at hz
    obtain ⟨hwords, hclear⟩ := readCount_words ht (fileAt_ne_root ht hi) hz.2 hbuf
    simp only [hz.1, hz.2, false_or]
    constructor
    · intro hstays
      refine words_le_of_unchanged (m := s.mem) hwords hclear fun mem hmem => ?_
      have hsame := hstays mem hmem _ _ (hread mem) (str + (len.toNat + 1)) (by omega)
      rwa [hfetched] at hsame
    · intro hle mem _ n s' hr a ha
      rw [hread, Except.ok.injEq, Prod.mk.injEq] at hr
      obtain ⟨-, rfl⟩ := hr
      show State.fetched { s with mem := mem } i str len a = mem a
      rw [hfetched]
      exact memcpy_outside _ _ _ _ (by omega)

theorem Reachable.copiesExactly_iff : CopiesExactly s i str len ↔ len = 0 ∨ (s.inode i).size = 0 ∨
    8 ∣ readCount (s.inode i).size len := by
  obtain ⟨T, ht⟩ := h.invariant.tree
  by_cases hz : (s.inode i).size = 0 ∨ len = 0
  · exact iff_of_true (fun hno => absurd hz hno) (hz.symm.imp_right .inl)
  · have hcount := size_to_read_eq (ht.block i) (ht.size i) hz
    have hone := readCount_pos hz
    unfold CopiesExactly
    rw [hcount]
    simp only [hz, not_false_eq_true, forall_true_left]
    rw [not_or] at hz
    obtain ⟨hwords, hclear⟩ := readCount_words ht (fileAt_ne_root ht hi) hz.2 hbuf
    simp only [hz.1, hz.2, false_or]
    rw [← words_eq_iff hone]
    constructor
    · intro hexact
      exact words_le_of_unchanged hwords hclear fun mem hmem => hexact mem hmem _ (by omega)
    · intro hle mem _ a ha
      exact memcpy_outside _ _ _ _ (by omega)

end Stores

/-- In every reachable state a read of an open file to a buffer outside the data blocks changes nothing outside
`str[0 .. len]` if and only if nothing is read, or the length reaches the limit, or what is there, in whole words,
fits. It moreover changes no byte but those it counts if and only if nothing is read or the count is a multiple of
the word. -/
theorem Reachable.readStores_iff {s : State} (h : Reachable s) {d : Fin MAX_OPEN_FILES} {i : Fin FS_NPAGES}
    (hi : s.fileAt d = some i) {str : Nat} (hstr : str ≠ 0) {len : UInt32}
    (hbuf : ∀ k < max len.toNat 1, ¬ InBlocks (str + k)) :
    (StaysInside s d i str len ↔ len = 0 ∨ (s.inode i).size = 0 ∨ FS_NPAGES ≤ len.toNat ∨
      words (min len.toNat (s.inode i).size : Nat) ≤ len.toNat + 1) ∧
    (StaysInside s d i str len ∧ CopiesExactly s i str len ↔ len = 0 ∨ (s.inode i).size = 0 ∨
      8 ∣ readCount (s.inode i).size len) := by
  obtain ⟨T, ht⟩ := h.invariant.tree
  rw [h.copiesExactly_iff hi hbuf, h.staysInside_iff hi hbuf hstr]
  by_cases hz : (s.inode i).size = 0 ∨ len = 0
  · rcases hz with hz | hz <;> simp [hz]
  · have hfit := words_readCount_le_iff (ht.size i) hz
    have hone := readCount_pos hz
    rw [not_or] at hz
    simp only [hz.1, hz.2, false_or]
    refine ⟨hfit, and_iff_right_of_imp fun hdvd => ?_⟩
    have hle := readCount_le_len (s.inode i).size len
    have hwords := (words_eq_iff hone).2 hdvd
    omega

/-- 7 bytes asked for, 3 there. -/
theorem readStores_seven : StaysInside threeBytes slot0 entry1 1 7 := by
  refine (Reachable.readStores_iff threeBytes_reachable threeBytes_fileAt (by decide) ?_).1.2 (.inr (.inr (.inr ?_)))
  · exact (by decide : ∀ k < 7, ¬ InBlocks (1 + k))
  · rw [threeBytes_size]
    decide

/-- A read of one byte stores eight. -/
theorem readStores_fails : ¬ ∀ s, Reachable s → ∀ d i str len, s.fileAt d = some i → str ≠ 0 →
    (∀ k < max len.toNat 1, ¬ InBlocks (str + k)) → StaysInside s d i str len := by
  intro hall
  have hbuf : ∀ k < max (1 : UInt32).toNat 1, ¬ InBlocks (1 + k) := (by decide : ∀ k < 1, ¬ InBlocks (1 + k))
  have hstays := hall _ threeBytes_reachable slot0 entry1 1 1 threeBytes_fileAt (by decide) hbuf
  rw [threeBytes_reachable.staysInside_iff threeBytes_fileAt hbuf (by decide), threeBytes_size] at hstays
  exact absurd hstays (by decide)

end ClbFilesystem
