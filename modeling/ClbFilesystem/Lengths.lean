import ClbFilesystem.Content
/-!
# Lengths of a write

The length of a write is unsigned in the call and an `int` in `write_inode`,
which takes a negative one for nothing to write. `write_file` has emptied the file
by then. So the lengths from 2^31 on are lost, unless the page has no room anyway.
-/

namespace ClbFilesystem

open Lib

/-- The call puts as much of `str` as fits behind the first `base` bytes of the file, and returns how much. -/
def Call.Honours (c : Call) (s : State) (i : Fin FS_NPAGES) (str : Nat) (len : UInt32) (base : Nat) : Prop :=
  ∃ fd s', exec c s = .ok ({ ret := .count (min len.toNat (FILE_MAX_SIZE - base) : Nat), fd := fd }, s') ∧
    s'.content i = (s.content i).take base ++ bytesAt s.mem str (min len.toNat (FILE_MAX_SIZE - base))

/-- What a write on an open file returns and leaves. -/
theorem exec_writes {s : State} {T : Tree} (h : TreeInv s T) {c : Call} {d : Fin MAX_OPEN_FILES} {str : Nat} {len : UInt32}
    {base : Inode → Nat} (hc : c.Writes d str len base) (hstr : str ≠ 0) {i : Fin FS_NPAGES} (hi : s.fileAt d = some i) :
    exec c s = .ok ({ ret := .count (writeCount (base (s.inode i)) len), fd := some (d.val : Int) },
      s.written i str (base (s.inode i)) (writeCount (base (s.inode i)) len)) := by
  cases hc
  · simp only [exec, write_file_eq h hstr, hi]
    rfl
  · simp only [exec, append_file_eq h hstr, hi]
    rfl

theorem writeCount_eq_min_iff {base : Nat} (hb : base ≤ FILE_MAX_SIZE) (len : UInt32) :
    writeCount base len = min len.toNat (FILE_MAX_SIZE - base) ↔ len.toNat < 2 ^ 31 ∨ base = FILE_MAX_SIZE := by
  unfold writeCount
  split_ifs with hlen
  · exact iff_of_true rfl (.inl hlen)
  · constructor
    · intro hzero
      exact .inr (by omega)
    · rintro (hlt | rfl)
      · exact absurd hlt hlen
      · simp

/-- In every reachable state a `write_file` or `append_file` on an open file, from a buffer outside the data blocks,
honours its length if and only if that is below 2^31 or the page is full behind the bytes kept. -/
theorem Reachable.honours_iff {s : State} (h : Reachable s) {c : Call} {d : Fin MAX_OPEN_FILES} {str : Nat} {len : UInt32}
    {base : Inode → Nat} (hc : c.Writes d str len base) (hstr : str ≠ 0) {i : Fin FS_NPAGES} (hi : s.fileAt d = some i)
    (hbuf : ∀ k < min len.toNat (FILE_MAX_SIZE - base (s.inode i)), ¬ InBlocks (str + k)) :
    c.Honours s i str len (base (s.inode i)) ↔ len.toNat < 2 ^ 31 ∨ base (s.inode i) = FILE_MAX_SIZE := by
  obtain ⟨T, ht⟩ := h.invariant.tree
  have hbase := hc.base_le (s.inode i)
  have hmax : base (s.inode i) ≤ FILE_MAX_SIZE := hbase.trans (ht.size i)
  have hex := exec_writes ht hc hstr hi
  rw [← writeCount_eq_min_iff hmax]
  constructor
  · rintro ⟨fd, s', hex', -⟩
    rw [hex, Except.ok.injEq, Prod.mk.injEq, Reply.mk.injEq, Ret.count.injEq] at hex'
    exact Int.ofNat_inj.1 hex'.1.1
  · intro hcount
    have hroom := base_add_writeCount_le hmax len
    have hcontent := ht.content_written hbase hroom fun k hk => hbuf k (by rw [← hcount]; exact hk)
    rw [hcount] at hex hcontent
    exact ⟨_, _, hex, hcontent⟩

theorem fileAt_openedA : (afterCalls openedA).fileAt slot0 = some entry1 := by decide +kernel

/-- Writing 3 bytes. -/
theorem honours_three : Call.Honours (.write_file (some (slot0.val : Int)) 1 3) (afterCalls openedA) entry1 1 3 0 := by
  refine (Reachable.honours_iff (reachable_afterCalls openedA) .write_file (by decide) fileAt_openedA fun k hk => ?_).2
    (.inl (by decide))
  have hk3 : k < 3 := lt_of_lt_of_le hk (min_le_left _ _)
  exact (by decide : ∀ k < 3, ¬ InBlocks (1 + k)) k hk3

/-- `write_file` of 2^31 bytes. -/
theorem honours_fails : ¬ ∀ s, Reachable s → ∀ (c : Call) d str len base i, c.Writes d str len base → str ≠ 0 →
    s.fileAt d = some i → (∀ k < min len.toNat (FILE_MAX_SIZE - base (s.inode i)), ¬ InBlocks (str + k)) →
    c.Honours s i str len (base (s.inode i)) := by
  intro hall
  obtain ⟨T, ht⟩ := (reachable_afterCalls openedA).invariant.tree
  have hc : Call.Writes (.write_file (some (slot0.val : Int)) 1 2147483648) slot0 1 2147483648 fun _ => 0 := .write_file
  have hbuf : ∀ k < 4096, ¬ InBlocks (1 + k) := by
    intro k hk
    rw [inBlocks_iff, pageAddr_eq]
    omega
  obtain ⟨fd, s', hex, -⟩ := hall _ (reachable_afterCalls openedA) _ slot0 1 2147483648 _ entry1 hc (by decide)
    fileAt_openedA fun k hk => hbuf k (lt_of_lt_of_le hk (min_le_right _ _))
  rw [exec_writes ht hc (by decide) fileAt_openedA, Except.ok.injEq, Prod.mk.injEq, Reply.mk.injEq, Ret.count.injEq] at hex
  exact absurd hex.1.1 (by decide)

end ClbFilesystem
