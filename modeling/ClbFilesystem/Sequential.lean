import ClbFilesystem.Reads
import Mathlib.Algebra.GroupWithZero.Nat
/-!
# Reads one after the other

A slot has a read head, which an open puts to 0 and which no call moves on. So
every read of a descriptor begins at the start of the file: reads walk through a
file only where there is nothing to walk through, or nothing is asked for.
-/

namespace ClbFilesystem

open Lib

/-- A read: what was asked for, the buffer, and the count returned. -/
structure ReadMade where
  len : UInt32
  str : Nat
  count : Int

/-- The read that a step makes through slot `d`. -/
def readOn (d : Fin MAX_OPEN_FILES) (st : Step State Event) : Option ReadMade :=
  match st.event with
  | .call (.read_file (some v) str len) ⟨.count n, _⟩ => if v = d.val ∧ str ≠ 0 then some ⟨len, str, n⟩ else none
  | _ => none

/-- All that the reads of a run asked for. -/
def lengthsRead (d : Fin MAX_OPEN_FILES) (tr : List (Step State Event)) : Nat :=
  ((tr.filterMap (readOn d)).map fun x => x.len.toNat).sum

/-- The bytes a step reads, as they are in the buffer afterwards. -/
def received (d : Fin MAX_OPEN_FILES) (st : Step State Event) : List UInt8 :=
  match readOn d st with
  | some x => bytesAt st.post.mem x.str x.count.toNat
  | none => []

/-- The reads of a run through slot `d` walk through the content of its file. -/
structure Sequential (d : Fin MAX_OPEN_FILES) (content : List UInt8) (tr : List (Step State Event)) : Prop where
  bytes : (tr.map (received d)).flatten = content.take (min (lengthsRead d tr) content.length)
  advances : ∀ st ∈ tr, ∀ x, readOn d st = some x → ((st.post.slot d).next : Int) = (st.pre.slot d).next + x.count
  ends : ∀ tr' st x, tr' ++ [st] <+: tr → readOn d st = some x → content.length ≤ lengthsRead d tr' → x.count = 0

/-- The step does not close slot `d`, and neither writes to file `i` nor deletes it. -/
structure LeavesOpen (d : Fin MAX_OPEN_FILES) (i : Fin FS_NPAGES) (st : Step State Event) : Prop where
  notClosed : ∀ c r clear, st.event = .call c r → ¬ c.Closes d clear
  notWritten : ¬ WritesTo i st
  kept : (st.post.inode i).type = .FILE

theorem readOn_eq_some {d : Fin MAX_OPEN_FILES} {st : Step State Event} {x : ReadMade} (h : readOn d st = some x) :
    ∃ v, st.event = .call (.read_file (some (d.val : Int)) x.str x.len) ⟨.count x.count, v⟩ ∧ x.str ≠ 0 := by
  unfold readOn at h
  split at h
  · next v str len n w he =>
    split at h
    · next hv =>
      cases h
      exact ⟨w, by rw [he, hv.1], hv.2⟩
    · cases h
  · cases h

section OneStep
variable {s s' : State} {d : Fin MAX_OPEN_FILES} {i : Fin FS_NPAGES}

/-- The slot stays on the file and the file keeps its size. -/
theorem Effect.leavesOpen {c : Call} {r : Reply} (h : Effect s c r s') (hd : s.fileAt d = some i)
    (hk : LeavesOpen d i ⟨s, .call c r, s'⟩) :
    (s'.slot d).inode = some i ∧ (s'.inode i).size = (s.inode i).size := by
  obtain ⟨hslot, ht⟩ := State.fileAt_eq_some.1 hd
  cases h with
  | @created c path name type f j hc hn hp hkf hf => exact ⟨hslot, State.created_size ..⟩
  | @removed c path j hc hp hr =>
    refine ⟨hslot, ?_⟩
    have hkept := hk.kept
    dsimp only at hkept
    rw [State.removed_type] at hkept
    split at hkept
    · cases hkept
    · next hin => rw [State.removed_inode, if_neg hin]
  | @opened c path type set e j hc he hp hkf =>
    have hne : d ≠ e := by
      rintro rfl
      rw [(State.freeSlot_eq_some.1 he).1] at hslot
      cases hslot
    rw [State.opened_slot, if_neg hne, State.opened_inode]
    exact ⟨hslot, rfl⟩
  | @closed c e clear j hc he =>
    have hne : d ≠ e := by
      rintro rfl
      exact hk.notClosed _ _ _ rfl hc
    rw [State.closed_slot, if_neg hne, State.closed_inode]
    exact ⟨hslot, rfl⟩
  | @wrote c e str len base j hc hstr hf =>
    have hne : i ≠ j := by
      rintro rfl
      refine hk.notWritten ?_
      have href : s.Refers (some (e.val : Int)) i := ⟨e, rfl, (State.fileAt_eq_some.1 hf).1⟩
      cases hc
      · exact ⟨_, _, _, _, _, .inl rfl, Int.natCast_nonneg _, href⟩
      · exact ⟨_, _, _, _, _, .inr rfl, Int.natCast_nonneg _, href⟩
    rw [State.written_slot, State.written_inode, if_neg hne]
    exact ⟨hslot, rfl⟩
  | @listed e son_name j n hb he hkf hn =>
    refine ⟨?_, rfl⟩
    rw [State.listed_slot]
    split <;> exact hslot
  | _ => exact ⟨hslot, rfl⟩

theorem Next.leavesOpen {e : Event} (hi : Inv s) (h : Next s e s') (hd : s.fileAt d = some i) (hk : LeavesOpen d i ⟨s, e, s'⟩) :
    s'.fileAt d = some i ∧ (s'.inode i).size = (s.inode i).size := by
  cases h with
  | call hc =>
    obtain ⟨tk, -, he⟩ := exec_effect hi hc
    obtain ⟨hslot, hsize⟩ := he.leavesOpen hd ⟨hk.notClosed, hk.notWritten, hk.kept⟩
    exact ⟨State.fileAt_eq_some.2 ⟨hslot, hk.kept⟩, hsize⟩
  | user => exact ⟨hd, rfl⟩

/-- The count of a read is the same wherever it stands in a run. -/
theorem Next.count_of_read {e : Event} (hi : Inv s) (h : Next s e s') (hd : s.fileAt d = some i) {x : ReadMade}
    (hx : readOn d ⟨s, e, s'⟩ = some x) : x.count = readCount (s.inode i).size x.len := by
  obtain ⟨T, ht⟩ := hi.tree
  obtain ⟨v, he, hstr⟩ := readOn_eq_some hx
  obtain rfl : e = _ := he
  cases h with
  | call hc =>
    simp only [exec, read_file_eq ht (hi.next d) hstr, hd, Except.map, Reply.ofCount, Except.ok.injEq, Prod.mk.injEq,
      Reply.mk.injEq, Ret.count.injEq] at hc
    exact hc.1.1.symm

end OneStep

/-- All along such a run the slot is on the file, and the file has the size it had. -/
theorem Run.leavesOpen {s s' : State} {tr : List (Step State Event)} {d : Fin MAX_OPEN_FILES} {i : Fin FS_NPAGES} (hi : Inv s)
    (hd : s.fileAt d = some i) (h : Run Next s tr s') (hk : ∀ st ∈ tr, LeavesOpen d i st) :
    Inv s' ∧ s'.fileAt d = some i ∧ (s'.inode i).size = (s.inode i).size := by
  refine (h.restrict (LeavesOpen d i) hk).inv (fun t => Inv t ∧ t.fileAt d = some i ∧ (t.inode i).size = (s.inode i).size)
    ⟨hi, hd, rfl⟩ fun t e t' ht hr => ?_
  obtain ⟨hfile, hsize⟩ := hr.1.leavesOpen ht.1 ht.2.1 hr.2
  exact ⟨ht.1.next_step hr.1, hfile, hsize.trans ht.2.2⟩

/-- A read returns nothing exactly when there is nothing in the file, or nothing is asked for. -/
theorem readCount_eq_zero_iff (size : Nat) (len : UInt32) : readCount size len = 0 ↔ size = 0 ∨ len = 0 := by
  constructor
  · intro hzero
    by_contra hz
    have hpos := readCount_pos hz
    omega
  · intro hz
    unfold readCount
    rw [if_pos hz]

/-- In every run from an `open_file` on, in which the descriptor stays open and the file is neither written to nor
deleted, the reads of the descriptor walk through the file if and only if it is empty or each asks for nothing. -/
theorem Reachable.sequential_iff {s₀ s s' : State} (h : Reachable s₀) {path : CStr} {v : Int} {d : Fin MAX_OPEN_FILES}
    (hopen : exec (.open_file (some path) (some v)) s₀ = .ok ({ ret := .error .VFS_OK, fd := some (d.val : Int) }, s))
    {i : Fin FS_NPAGES} (hd : s.fileAt d = some i) {tr : List (Step State Event)} (hrun : Run Next s tr s')
    (hk : ∀ st ∈ tr, LeavesOpen d i st) :
    Sequential d (s.content i) tr ↔ s.content i = [] ∨ ∀ st ∈ tr, ∀ x, readOn d st = some x → x.len = 0 := by
  have hi := (h.call hopen).invariant
  have hempty : s.content i = [] ↔ (s.inode i).size = 0 := by rw [← List.length_eq_zero_iff, State.length_content]
  -- What a read of the run returns, and where the head is on its two sides.
  have hread : ∀ st ∈ tr, ∀ x, readOn d st = some x → x.count = readCount (s.inode i).size x.len ∧
      (st.pre.slot d).next = 0 ∧ (st.post.slot d).next = 0 := by
    intro st hst x hx
    obtain ⟨l, r, rfl⟩ := List.append_of_mem hst
    obtain ⟨u, hl, hr⟩ := hrun.split
    obtain ⟨rfl, hn, -⟩ := hr.of_cons
    obtain ⟨hu, hfile, hsize⟩ := Run.leavesOpen hi hd hl fun st hst => hk st (by simp [hst])
    have hcount := hn.count_of_read hu hfile hx
    rw [hsize] at hcount
    exact ⟨hcount, hu.next d, (hu.next_step hn).next d⟩
  constructor
  · intro hseq
    by_contra hno
    rw [not_or, hempty] at hno
    obtain ⟨hne, hsome⟩ := hno
    apply hsome
    intro st hst x hx
    obtain ⟨hcount, hpre, hpost⟩ := hread st hst x hx
    have hadv := hseq.advances st hst x hx
    rw [hpre, hpost, hcount] at hadv
    exact ((readCount_eq_zero_iff _ _).1 (by omega)).resolve_left hne
  · intro hnone
    have hzero : ∀ st ∈ tr, ∀ x, readOn d st = some x → x.count = 0 := by
      intro st hst x hx
      rw [(hread st hst x hx).1, (readCount_eq_zero_iff _ _).2]
      · rfl
      · exact hnone.imp hempty.1 fun hall => hall st hst x hx
    refine ⟨?_, fun st hst x hx => ?_, fun tr' st x hp hx _ => hzero st (hp.subset (by simp)) x hx⟩
    · have hbytes : (tr.map (received d)).flatten = [] := by
        rw [List.flatten_eq_nil_iff]
        intro l hl
        obtain ⟨st, hst, rfl⟩ := List.mem_map.1 hl
        unfold received
        split
        · next x hx => rw [hzero st hst x hx]; rfl
        · rfl
      rw [hbytes]
      rcases hnone with hnil | hall
      · rw [hnil, List.take_nil]
      · have hsum : lengthsRead d tr = 0 := by
          unfold lengthsRead
          rw [List.sum_eq_zero_iff_forall_eq_nat]
          intro n hn
          obtain ⟨x, hx, rfl⟩ := List.mem_map.1 hn
          obtain ⟨st, hst, hx⟩ := List.mem_filterMap.1 hx
          rw [hall st hst x hx]
          rfl
        rw [hsum, Nat.zero_min, List.take_zero]
    · obtain ⟨-, hpre, hpost⟩ := hread st hst x hx
      rw [hpre, hpost, hzero st hst x hx]
      rfl

/-- A read as a step. -/
def readStep (s : State) (d : Fin MAX_OPEN_FILES) (i : Fin FS_NPAGES) (str : Nat) (len : UInt32) : Step State Event where
  pre := s
  event := .call (.read_file (some (d.val : Int)) str len) ⟨.count (readCount (s.inode i).size len), some (d.val : Int)⟩
  post := { s with mem := s.fetched i str len }

/-- A read of an open file is a run of one step that leaves it open. -/
theorem readStep_run {s : State} (hi : Inv s) {d : Fin MAX_OPEN_FILES} {i : Fin FS_NPAGES} (hd : s.fileAt d = some i)
    {str : Nat} (hstr : str ≠ 0) (len : UInt32) : Run Next s [readStep s d i str len] { s with mem := s.fetched i str len } ∧
      ∀ st ∈ [readStep s d i str len], LeavesOpen d i st := by
  obtain ⟨T, ht⟩ := hi.tree
  constructor
  · refine Run.nil.snoc (.call ?_)
    simp only [exec, read_file_eq ht (hi.next d) hstr, hd]
    rfl
  · intro st hst
    obtain rfl := List.mem_singleton.1 hst
    refine ⟨fun c r clear he hc => ?_, ?_, (State.fileAt_eq_some.1 hd).2⟩
    · cases he
      cases hc
    · rintro ⟨_, _, _, _, _, he | he, -⟩ <;> cases he

theorem readOn_readStep (s : State) (d : Fin MAX_OPEN_FILES) (i : Fin FS_NPAGES) {str : Nat} (hstr : str ≠ 0) (len : UInt32) :
    readOn d (readStep s d i str len) = some ⟨len, str, readCount (s.inode i).size len⟩ := if_pos ⟨rfl, hstr⟩

/-- The file `a`, just created, is opened, and 5 bytes of it are asked for. -/
theorem sequential_empty : Sequential slot0 [] [readStep (afterCalls openedA) slot0 entry1 1 5] := by
  have hopen : exec (.open_file (some pathA) (some 0)) (afterCalls [.create_file (some rootName) (some nameA)]) =
      .ok ({ ret := .error .VFS_OK, fd := some (slot0.val : Int) }, afterCalls openedA) :=
    exec_afterCalls (by decide +kernel)
  obtain ⟨hrun, hk⟩ := readStep_run (reachable_afterCalls openedA).invariant fileAt_openedA (by decide : 1 ≠ 0) 5
  have hnil : (afterCalls openedA).content entry1 = [] := by
    rw [← List.length_eq_zero_iff, State.length_content]
    decide +kernel
  have hseq := (Reachable.sequential_iff (reachable_afterCalls _) hopen fileAt_openedA hrun hk).2 (.inl hnil)
  rwa [hnil] at hseq

/-- The second slot. -/
def slot1 : Fin MAX_OPEN_FILES := ⟨1, by decide⟩

/-- The file `a` with 3 bytes in it, opened once more. -/
def reopened : State := ({ threeBytes with token := threeBytes.tokenAfter pathA.chars } : State).opened
  (fun _ slot => { slot with next := 0 }) slot1 entry1

theorem exec_reopened : exec (.open_file (some pathA) (some 0)) threeBytes =
    .ok ({ ret := .error .VFS_OK, fd := some (slot1.val : Int) }, reopened) := by
  have hi := threeBytes_reachable.invariant
  exact exec_opens hi .open_file (by decide +kernel) (by decide +kernel) (State.fileAt_eq_some.1 threeBytes_fileAt).2

/-- One byte is read, and the read head stays where it is. -/
theorem sequential_fails : ¬ ∀ s₀, Reachable s₀ → ∀ (path : CStr) (v : Int) (d : Fin MAX_OPEN_FILES) s,
    exec (.open_file (some path) (some v)) s₀ = .ok ({ ret := .error .VFS_OK, fd := some (d.val : Int) }, s) →
    ∀ i, s.fileAt d = some i → ∀ tr s', Run Next s tr s' → (∀ st ∈ tr, LeavesOpen d i st) → Sequential d (s.content i) tr := by
  intro hall
  have hi := (threeBytes_reachable.call exec_reopened).invariant
  have hd : reopened.fileAt slot1 = some entry1 := by
    refine State.fileAt_eq_some.2 ⟨by rw [reopened, State.opened_slot, if_pos rfl], ?_⟩
    show reopened.kind entry1 = .FILE
    rw [reopened, State.opened_kind]
    exact (State.fileAt_eq_some.1 threeBytes_fileAt).2
  have hsize : (reopened.inode entry1).size = 3 := by
    rw [reopened, State.opened_inode]
    exact threeBytes_size
  obtain ⟨hrun, hk⟩ := readStep_run hi hd (by decide : 1 ≠ 0) 1
  have hseq := hall _ threeBytes_reachable _ _ _ _ exec_reopened _ hd _ _ hrun hk
  have hadv := hseq.advances _ (List.mem_singleton_self _) _ (readOn_readStep _ _ _ (by decide : 1 ≠ 0) _)
  simp only [readStep, hsize] at hadv
  have hpre : (reopened.slot slot1).next = 0 := hi.next slot1
  have hpost : (({ reopened with mem := reopened.fetched entry1 1 1 } : State).slot slot1).next = 0 := hi.next slot1
  rw [hpre, hpost] at hadv
  exact absurd hadv (by decide)

end ClbFilesystem
