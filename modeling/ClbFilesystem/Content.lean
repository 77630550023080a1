import ClbFilesystem.Abstract
/-!
# The content of a file is the replay of the writes

`replayStep` is what a step of a run means for the content of one inode, looking
only at the call, its reply and the bytes it was given. In every run in which
callers keep their buffers out of the data blocks, each file holds the replay of
the steps since boot. A read may store up to seven bytes past the caller's
buffer; if a data block follows there it is the first one, which is the root's.
-/

namespace ClbFilesystem

open Lib

/-- The caller's buffer, taken as one byte at least, lies outside the data blocks. -/
def Call.Buffers : Call → Prop
  | .read_file _ str len => ∀ k < max len.toNat 1, ¬ InBlocks (str + k)
  | .write_file _ str len => ∀ k < max len.toNat 1, ¬ InBlocks (str + k)
  | .append_file _ str len => ∀ k < max len.toNat 1, ¬ InBlocks (str + k)
  | .get_next_dir_son _ son_name => ∀ k < MAX_SIZE_NAME + 1, ¬ InBlocks (son_name + k)
  | _ => True

def Event.Buffers : Event → Prop
  | .call c _ => c.Buffers
  | .user => True

/-- The descriptor refers to inode `i`. -/
def State.Refers (s : State) (fd : Option Int) (i : Fin FS_NPAGES) : Prop :=
  ∃ d : Fin MAX_OPEN_FILES, fd = some (d.val : Int) ∧ (s.slot d).inode = some i

instance (s : State) (fd : Option Int) (i : Fin FS_NPAGES) : Decidable (s.Refers fd i) :=
  inferInstanceAs (Decidable (∃ _ : Fin MAX_OPEN_FILES, _ ∧ _))

/-- The `n` bytes at an address. -/
def bytesAt (m : Mem) (a n : Nat) : List UInt8 := (List.range n).map fun k => m (a + k)

/-- The content of inode `i` after a step, from its content before: creation empties it, `write_file`
replaces it and `append_file` extends it by as many bytes as the reply says, nothing else changes it. -/
def replayStep (i : Fin FS_NPAGES) (content : List UInt8) (st : Step State Event) : List UInt8 :=
  if (st.pre.inode i).type = .EMPTY ∧ (st.post.inode i).type ≠ .EMPTY then []
  else match st.event with
    | .call (.write_file fd str _) ⟨.count n, _⟩ =>
      if 0 ≤ n ∧ st.pre.Refers fd i then bytesAt st.pre.mem str n.toNat else content
    | .call (.append_file fd str _) ⟨.count n, _⟩ =>
      if 0 ≤ n ∧ st.pre.Refers fd i then content ++ bytesAt st.pre.mem str n.toNat else content
    | _ => content

/-- The step is a write to inode `i` that is not refused. -/
def WritesTo (i : Fin FS_NPAGES) (st : Step State Event) : Prop :=
  ∃ fd str len n v, (st.event = .call (.write_file fd str len) ⟨.count n, v⟩ ∨
    st.event = .call (.append_file fd str len) ⟨.count n, v⟩) ∧ 0 ≤ n ∧ st.pre.Refers fd i

/-- Any other step leaves the content of an inode in use as it is. -/
theorem replayStep_keep {i : Fin FS_NPAGES} {st : Step State Event} (content : List UInt8)
    (hpre : (st.pre.inode i).type ≠ .EMPTY) (hno : ¬ WritesTo i st) : replayStep i content st = content := by
  obtain ⟨pre, event, post⟩ := st
  unfold replayStep
  rw [if_neg fun h => hpre h.1]
  dsimp only
  split
  · exact if_neg fun hw => hno ⟨_, _, _, _, _, .inl rfl, hw⟩
  · exact if_neg fun hw => hno ⟨_, _, _, _, _, .inr rfl, hw⟩
  · rfl

/-! ## Buffers and data blocks -/

theorem pageAddr_end : pageAddr FS_NPAGES = pageAddr 128 := rfl

theorem inBlocks_iff (a : Nat) : InBlocks a ↔ pageAddr 0 ≤ a ∧ a < pageAddr 128 := Iff.rfl

/-- Bytes stored from a caller's buffer on, and up to seven behind it, miss every page but the first. -/
theorem outside_of_buffer {b n a : Nat} (hbuf : ∀ k < n, ¬ InBlocks (b + k)) (hn : 1 ≤ n) (ha : pageAddr 1 ≤ a)
    (ha' : a < pageAddr FS_NPAGES) : a < b ∨ b + n + 7 ≤ a := by
  by_contra hin
  have hfirst := hbuf (n - 1) (by omega)
  rw [pageAddr_end] at ha'
  simp only [inBlocks_iff, pageAddr_eq] at hbuf hfirst ha ha'
  by_cases hlt : a < b + n
  · have := hbuf (a - b) (by omega)
    omega
  · omega

theorem words_le (n : Int) : words n ≤ max n.toNat 1 + 7 := by
  unfold words
  split_ifs <;> omega

theorem fetched_outside (s : State) (i : Fin FS_NPAGES) (str : Nat) (len : UInt32) {a : Nat}
    (h : a < str ∨ str + max len.toNat 1 + 7 ≤ a) : s.fetched i str len a = s.mem a := by
  unfold State.fetched
  split
  · exact Mem.write_outside _ _ _ (by simp only [List.length_singleton]; omega)
  · have hle := readCount_le_len (s.inode i).size len
    have hw := words_le (readCount (s.inode i).size len)
    exact memcpy_outside _ _ _ _ (by omega)

/-- A buffer outside the data blocks does not overlap a place in one. -/
theorem copyBytes_of_buffer (m : Mem) (i : Fin FS_NPAGES) {str base r : Nat} (hr : base + r ≤ FILE_MAX_SIZE)
    (hbuf : ∀ k < r, ¬ InBlocks (str + k)) :
    m.copyBytes str (pageAddr i + base) r = m.copy str (pageAddr i + base) r := by
  have hmax : FILE_MAX_SIZE = 4096 := rfl
  have hlt : i.val < 128 := i.isLt
  have hfar : str + r ≤ pageAddr i + base ∨ pageAddr i + base + r ≤ str ∨ r = 0 := by
    by_contra hin
    have hs := hbuf 0 (by omega)
    have hd := hbuf (pageAddr i + base - str)
    simp only [inBlocks_iff, pageAddr_eq] at hs hd hin
    omega
  rcases hfar with hfar | hfar | rfl
  · exact Mem.copyBytes_eq _ _ _ _ (.inl hfar)
  · exact Mem.copyBytes_eq _ _ _ _ (.inr hfar)
  · funext a; exact (Mem.copy_outside (by omega)).symm

section Step
variable {s s' : State} {T : Tree} (h : TreeInv s T) {i : Fin FS_NPAGES}
include h

/-- The content of an inode other than the root lies behind the first page. -/
theorem TreeInv.content_addr (hi : i ≠ ROOT_INODE) {k : Nat} (hk : k < (s.inode i).size) :
    pageAddr 1 ≤ (s.inode i).data_block + k ∧ (s.inode i).data_block + k < pageAddr FS_NPAGES := by
  have hsize : (s.inode i).size ≤ 4096 := h.size i
  have hpos : i.val ≠ 0 := fun e => hi (Fin.ext e)
  have hlt : i.val < 128 := i.isLt
  rw [h.block, pageAddr_end]
  simp only [pageAddr_eq]
  omega

theorem TreeInv.content_of_mem (hi : i ≠ ROOT_INODE) (hs : (s'.inode i).size = (s.inode i).size)
    (hb : (s'.inode i).data_block = (s.inode i).data_block)
    (hm : ∀ a, pageAddr 1 ≤ a → a < pageAddr FS_NPAGES → s'.mem a = s.mem a) : s'.content i = s.content i := by
  apply State.content_congr hs hb
  intro k hk
  obtain ⟨hlow, hhigh⟩ := h.content_addr hi hk
  exact hm _ hlow hhigh

/-- A write of `r` bytes behind the first `base` ones, from outside the data blocks. -/
theorem TreeInv.content_written {str base r : Nat} (hbase : base ≤ (s.inode i).size) (hr : base + r ≤ FILE_MAX_SIZE)
    (hbuf : ∀ k < r, ¬ InBlocks (str + k)) :
    (s.written i str base r).content i = (s.content i).take base ++ bytesAt s.mem str r := by
  unfold State.content bytesAt
  rw [State.written_inode, if_pos rfl, h.block, State.written_mem, copyBytes_of_buffer _ i hr hbuf, List.range_add,
    List.map_append, List.map_map,
    List.map_take.symm, List.take_range, Nat.min_eq_left hbase]
  congr 1
  · exact List.map_congr_left fun k hk => Mem.copy_outside (by have := List.mem_range.1 hk; omega)
  · apply List.map_congr_left
    intro k hk
    simp only [Function.comp_apply, ← Nat.add_assoc]
    exact Mem.copy_inside (List.mem_range.1 hk)

/-- A write to another inode. -/
theorem TreeInv.content_written_ne {j : Fin FS_NPAGES} (hj : j ≠ i) {str base r : Nat} (hr : base + r ≤ FILE_MAX_SIZE) :
    (s.written i str base r).content j = s.content j := by
  have hmax : FILE_MAX_SIZE = 4096 := rfl
  have hinode := s.written_inode i j str base r
  rw [if_neg hj] at hinode
  apply State.content_congr (by rw [hinode]) (by rw [hinode])
  intro k hk
  apply Mem.copyBytes_outside
  have hsize : (s.inode j).size ≤ 4096 := h.size j
  have hval : j.val ≠ i.val := fun e => hj (Fin.ext e)
  rw [h.block]
  simp only [pageAddr_eq]
  omega

end Step

/-! ## One step -/

/-- A file after a call holds what the step means for its content before. -/
theorem Effect.content {s s' : State} {c : Call} {r : Reply} (hi : Inv s) (h : Effect s c r s') (hb : c.Buffers)
    {i : Fin FS_NPAGES} (hf : (s'.inode i).type = .FILE) {g : List UInt8}
    (hg : (s.inode i).type = .FILE → s.content i = g) : s'.content i = replayStep i g ⟨s, .call c r, s'⟩ := by
  obtain ⟨T, ht⟩ := hi.tree
  -- A file that was one before the call, and that the call does not write to.
  have keep : (s.inode i).type = .FILE → s'.content i = s.content i → ¬ WritesTo i ⟨s, .call c r, s'⟩ →
      s'.content i = replayStep i g ⟨s, .call c r, s'⟩ := by
    intro hpre hsame hno
    rw [replayStep_keep g (by dsimp only; rw [hpre]; decide) hno, hsame, hg hpre]
  have root_ne : (s.inode i).type = .FILE → i ≠ ROOT_INODE := by
    rintro hpre rfl
    rw [ht.root] at hpre; cases hpre
  cases h with
  | @created c path name type d e hc hn hd hk hfree =>
    rw [State.created_type] at hf
    by_cases hie : i = e
    · subst hie
      have hempty := (State.freeEntry_eq_some.1 hfree).1
      have hsize := ht.empty i (by rw [hempty]; decide)
      have hpost : ((s.created name type d i).inode i).type ≠ .EMPTY := by
        rw [State.created_type, if_pos rfl]; exact hc.type_ne
      unfold replayStep
      rw [if_pos ⟨hempty, hpost⟩]
      simp [State.content, hsize]
    · rw [if_neg hie] at hf
      apply keep hf (State.content_congr (by simp) (by simp) fun _ _ => rfl)
      rintro ⟨_, _, _, _, _, h | h, -⟩ <;> cases h
  | @removed c path e hc hp hr =>
    rw [State.removed_type] at hf
    split at hf
    · cases hf
    · next hie =>
      have hinode := s.removed_inode e i
      rw [if_neg hie] at hinode
      apply keep hf (State.content_congr (by rw [hinode]) (by rw [hinode]) fun _ _ => rfl)
      rintro ⟨_, _, _, _, _, h | h, -⟩ <;> cases h
  | @opened c path type set d e hc hd hp hk =>
    have hinode := s.opened_inode set d e i
    rw [hinode] at hf
    apply keep hf (State.content_congr (by rw [hinode]) (by rw [hinode]) fun _ _ => rfl)
    rintro ⟨_, _, _, _, _, h | h, -⟩ <;> cases h
  | @closed c d clear e hc hd =>
    have hinode := s.closed_inode clear d e i
    rw [hinode] at hf
    apply keep hf (State.content_congr (by rw [hinode]) (by rw [hinode]) fun _ _ => rfl)
    rintro ⟨_, _, _, _, _, h | h, -⟩ <;> cases h
  | @read d str len e hstr hfile =>
    refine keep hf (ht.content_of_mem (root_ne hf) rfl rfl fun a ha ha' => ?_) ?_
    · exact fetched_outside s e str len (outside_of_buffer hb (Nat.le_max_right _ _) ha ha')
    · rintro ⟨_, _, _, _, _, h | h, -⟩ <;> cases h
  | @wrote c d str len base e hc hstr hfile =>
    obtain ⟨hslot, htype⟩ := State.fileAt_eq_some.1 hfile
    have hle := hc.base_le (s.inode e)
    have hpage := base_add_writeCount_le (le_trans hle (ht.size e)) len
    rw [State.written_inode] at hf
    by_cases hie : i = e
    · subst hie
      have hbuf : ∀ k < writeCount (base (s.inode i)) len, ¬ InBlocks (str + k) := by
        intro k hk
        have hcount := writeCount_le (base (s.inode i)) len
        cases hc <;> exact hb k (by omega)
      have hrefers : s.Refers (some (d.val : Int)) i := ⟨d, rfl, hslot⟩
      rw [ht.content_written hle hpage hbuf, hg htype]
      unfold replayStep
      rw [if_neg (by dsimp only; rw [htype]; simp)]
      cases hc with
      | write_file => simp [hrefers]
      | append_file =>
        have hlen : g.length = (s.inode i).size := by rw [← hg htype, State.length_content]
        simp [hrefers, ← hlen]
    · rw [if_neg hie] at hf
      apply keep hf (ht.content_written_ne hie hpage)
      have hother : ¬ s.Refers (some (d.val : Int)) i := by
        rintro ⟨d', hd', hi'⟩
        obtain rfl : d = d' := Fin.ext (Int.ofNat_inj.1 (Option.some.inj hd'))
        exact hie (Option.some.inj (hi'.symm.trans hslot))
      cases hc
      · rintro ⟨_, _, _, _, _, h | h, -, hr⟩ <;> cases h
        exact hother hr
      · rintro ⟨_, _, _, _, _, h | h, -, hr⟩ <;> cases h
        exact hother hr
  | @listed d son_name e n hson hd hk hn =>
    refine keep hf (ht.content_of_mem (root_ne hf) rfl rfl fun a ha ha' => ?_) ?_
    · have hlen := ht.length_nameOf n
      have hout := outside_of_buffer hb (by omega) ha ha'
      exact Mem.write_outside _ _ _ (by simp only [List.length_append, List.length_singleton]; omega)
    · rintro ⟨_, _, _, _, _, h | h, -⟩ <;> cases h
  | @ended d son_name e hson hd hk hn =>
    refine keep hf (ht.content_of_mem (root_ne hf) rfl rfl fun a ha ha' => ?_) ?_
    · have hout := outside_of_buffer hb (by omega) ha ha'
      exact Mem.write_outside _ _ _ (by simp only [List.length_singleton]; omega)
    · rintro ⟨_, _, _, _, _, h | h, -⟩ <;> cases h
  | refused hr =>
    apply keep hf rfl
    rintro ⟨_, _, _, n, _, h | h, hn, -⟩ <;> cases h
    · have : n = -1 := hr
      omega
    · have : n = -1 := hr
      omega

theorem Next.content {s s' : State} {e : Event} (hi : Inv s) (h : Next s e s') (hb : e.Buffers) {i : Fin FS_NPAGES}
    (hf : (s'.inode i).type = .FILE) {g : List UInt8} (hg : (s.inode i).type = .FILE → s.content i = g) :
    s'.content i = replayStep i g ⟨s, e, s'⟩ := by
  cases h with
  | call hc =>
    obtain ⟨tk, htk, he⟩ := exec_effect hi hc
    exact he.content (hi.congr htk) hb hf hg
  | @user mem hm =>
    obtain ⟨T, ht⟩ := hi.tree
    have hpre : (s.inode i).type = .FILE := hf
    have hroot : i ≠ ROOT_INODE := by
      rintro rfl
      rw [ht.root] at hpre; cases hpre
    have hsame : ({ s with mem := mem } : State).content i = s.content i := by
      refine ht.content_of_mem hroot rfl rfl fun a ha ha' => hm a ⟨?_, ha'⟩
      simp only [pageAddr_eq] at ha ⊢; omega
    rw [hsame, hg hpre]
    refine (replayStep_keep g (by dsimp only; rw [hpre]; decide) ?_).symm
    rintro ⟨_, _, _, _, _, h | h, -⟩ <;> cases h

/-- The count a write to inode `i` returns: what fits in the page, or all of it. -/
theorem Effect.count {s s' : State} {c : Call} {n : Int} {v : Option Int} (h : Effect s c ⟨.count n, v⟩ s') (hn : 0 ≤ n)
    {fd : Option Int} {str : Nat} {len : UInt32} {i : Fin FS_NPAGES} (hi : s.Refers fd i) :
    (c = .write_file fd str len → n = writeCount 0 len) ∧
    (c = .append_file fd str len → n = writeCount (s.inode i).size len) := by
  have same : ∀ {d : Fin MAX_OPEN_FILES} {e : Fin FS_NPAGES}, fd = some (d.val : Int) → s.fileAt d = some e → e = i := by
    rintro d e rfl he
    obtain ⟨d', hd', hi'⟩ := hi
    obtain rfl : d = d' := Fin.ext (Int.ofNat_inj.1 (Option.some.inj hd'))
    exact Option.some.inj ((State.fileAt_eq_some.1 he).1.symm.trans hi')
  cases h with
  | read hstr hf => constructor <;> intro hc <;> cases hc
  | wrote hc hstr hf =>
    cases hc
    · constructor <;> intro hc <;> cases hc
      rfl
    · constructor <;> intro hc <;> cases hc
      rw [same rfl hf]
  | refused hr =>
    have : n = -1 := hr
    omega

theorem writeCount_spec (base : Nat) (len : UInt32) :
    writeCount base len ≤ min len.toNat (FILE_MAX_SIZE - base) ∧
    (len.toNat < 2 ^ 31 → writeCount base len = min len.toNat (FILE_MAX_SIZE - base)) := by
  refine ⟨writeCount_le base len, fun hlen => ?_⟩
  unfold writeCount
  rw [if_pos hlen]

/-! ## Whole runs -/

/-- In every run of calls with buffers outside the data blocks, each file holds the replay of the steps,
which is at most one page; a write that is not refused returns as many bytes as fit, and a step that is no
such write leaves a file as it is. -/
theorem Runs.content_replay {tr : List (Step State Event)} {s : State} (h : Runs tr s)
    (hb : ∀ st ∈ tr, st.event.Buffers) :
    (∀ i, (s.inode i).type = .FILE → s.content i = tr.foldl (replayStep i) []) ∧
    (∀ i, (s.content i).length ≤ FILE_MAX_SIZE) ∧
    (∀ st ∈ tr, ∀ i, (st.pre.inode i).type = .FILE → (st.post.inode i).type = .FILE → ¬ WritesTo i st →
      st.post.content i = st.pre.content i) ∧
    (∀ st ∈ tr, ∀ i fd str len n v, 0 ≤ n → st.pre.Refers fd i →
      (st.event = .call (.write_file fd str len) ⟨.count n, v⟩ →
        n.toNat ≤ min len.toNat FILE_MAX_SIZE ∧ (len.toNat < 2 ^ 31 → n.toNat = min len.toNat FILE_MAX_SIZE)) ∧
      (st.event = .call (.append_file fd str len) ⟨.count n, v⟩ →
        n.toNat ≤ min len.toNat (FILE_MAX_SIZE - (st.pre.inode i).size) ∧
        (len.toNat < 2 ^ 31 → n.toNat = min len.toNat (FILE_MAX_SIZE - (st.pre.inode i).size)))) := by
  have hpre : ∀ st ∈ tr, Inv st.pre ∧ Next st.pre st.event st.post := fun st hst =>
    ⟨(h.of_mem st hst).1.invariant, (h.of_mem st hst).2⟩
  have hinv : Inv s := Reachable.invariant ⟨tr, h⟩
  refine ⟨fun i => ?_, fun i => ?_, fun st hst i hf hf' hno => ?_, fun st hst i fd str len n v hn hr => ?_⟩
  · obtain ⟨mem, s₀, hboot, hrun⟩ := h
    have hempty : (s₀.inode i).type = .FILE → s₀.content i = [] := by
      rw [init_fs_boot, Except.ok.injEq] at hboot
      subst hboot
      rw [initial_inode]
      simp only [initialInode]
      split <;> intro hf <;> cases hf
    refine (hrun.restrict (fun st => st.event.Buffers) hb).history [] (replayStep i)
      (fun g s => (s.inode i).type = .FILE → s.content i = g) hempty fun tr' g s e s' hrun' hg hstep hf => ?_
    exact hstep.1.content (hrun'.inv Inv (boot_inv hboot) fun _ _ _ hi hr => hi.next_step hr.1) hstep.2 hf hg
  · obtain ⟨T, ht⟩ := hinv.tree
    rw [State.length_content]
    exact ht.size i
  · rw [(hpre st hst).2.content (hpre st hst).1 (hb st hst) hf' fun _ => rfl]
    exact replayStep_keep _ (by rw [hf]; decide) hno
  · obtain ⟨hi, hnext⟩ := hpre st hst
    obtain ⟨pre, event, post⟩ := st
    have count : ∀ {c : Call}, event = .call c ⟨.count n, v⟩ →
        (c = .write_file fd str len → n = writeCount 0 len) ∧
        (c = .append_file fd str len → n = writeCount (pre.inode i).size len) := by
      rintro c rfl
      cases hnext with
      | call hc =>
        obtain ⟨tk, -, he⟩ := exec_effect hi hc
        exact he.count hn hr
    refine ⟨fun he => ?_, fun he => ?_⟩
    · rw [(count he).1 rfl, Int.toNat_natCast]
      exact writeCount_spec 0 len
    · rw [(count he).2 rfl, Int.toNat_natCast]
      exact writeCount_spec (pre.inode i).size len

/-- Created, opened, written, and appended to. -/
def twoWrites : List Call :=
  [.create_file (some rootName) (some nameA), .open_file (some pathA) (some 0),
    .write_file (some 0) 1 3, .append_file (some 0) 1 2]

theorem content_replay_twoWrites :
    (∀ i, ((afterCalls twoWrites).inode i).type = .FILE →
      (afterCalls twoWrites).content i = (runCalls twoWrites).1.foldl (replayStep i) []) ∧
    (∀ i, ((afterCalls twoWrites).content i).length ≤ FILE_MAX_SIZE) := by
  have hb : ∀ st ∈ (runCalls twoWrites).1, st.event.Buffers := by
    intro st hst
    obtain ⟨c, hc, r, he⟩ := (runs_calls twoWrites).2 st hst
    rw [he]
    simp only [twoWrites, List.mem_cons, List.not_mem_nil, or_false] at hc
    rcases hc with rfl | rfl | rfl | rfl
    · trivial
    · trivial
    · exact (by decide : ∀ k < 3, ¬ InBlocks (1 + k))
    · exact (by decide : ∀ k < 2, ¬ InBlocks (1 + k))
  have h := Runs.content_replay (runs_calls twoWrites).1 hb
  exact ⟨h.1, h.2.1⟩

end ClbFilesystem
