import ClbFilesystem.Slots
/-!
# Reference counts

`ref` of an inode counts the slots open on it. The four calls that open and close
keep the count, `free_inode` sets it to 0 without a look at the slots: it stays
exact all along a run if and only if no deletion of the run removes an inode that
a slot is open on.
-/

namespace ClbFilesystem

open Lib

structure RefExact (s : State) : Prop where
  count : ∀ i, (s.inode i).ref = holders s.pointers i
  free : ∀ i, (s.inode i).type = .EMPTY → ∀ d, s.pointers d ≠ some i

/-- An exact count is never negative. -/
theorem RefExact.ref_nonneg {s : State} (h : RefExact s) (i : Fin FS_NPAGES) : 0 ≤ (s.inode i).ref := by
  rw [h.count]
  exact Int.natCast_nonneg _

/-- The call deletes an inode that a slot is open on, or a directory above one. -/
def Call.RemovesOpen (c : Call) (s : State) : Prop :=
  ∃ path i d j, c.Deletes path ∧ s.resolve path.chars = some i ∧ s.pointers d = some j ∧ j ∈ i :: s.below i

def RemovesOpen (st : Step State Event) : Prop :=
  match st.event with
  | .call c _ => c.RemovesOpen st.pre
  | .user => False

/-- A change of the table that keeps counts and types, while the pointers stay. -/
theorem RefExact.congr {s s' : State} (h : RefExact s) (hr : ∀ i, (s'.inode i).ref = (s.inode i).ref)
    (ht : ∀ i, (s'.inode i).type = .EMPTY → (s.inode i).type = .EMPTY) (hp : s'.pointers = s.pointers) : RefExact s' :=
  ⟨fun i => by rw [hr, hp, h.count], fun i hi d => hp ▸ h.free i (ht i hi) d⟩

theorem Effect.refExact {s s' : State} {c : Call} {r : Reply} (h : Effect s c r s') (hx : RefExact s)
    (hno : ¬ c.RemovesOpen s) : RefExact s' := by
  cases h with
  | @created c path name type d i hc hn hd hk hf =>
    refine hx.congr (fun j => State.created_ref ..) (fun j hj => ?_) rfl
    rw [State.created_type] at hj
    split at hj
    · exact absurd hj hc.type_ne
    · exact hj
  | @removed c path i hc hp hr =>
    have hclosed : ∀ j ∈ i :: s.below i, ∀ d, s.pointers d ≠ some j :=
      fun j hj d hd => hno ⟨path, i, d, j, hc, hp, hd, hj⟩
    refine ⟨fun j => ?_, fun j hj d => ?_⟩
    · rw [State.removed_inode]
      split
      · next hj =>
        -- What is given back has count 0, and was held by no slot.
        have hzero := holders_eq_zero.2 (hclosed j hj)
        exact congrArg Nat.cast hzero.symm
      · exact hx.count j
    · rw [State.removed_type] at hj
      split at hj
      · next hin => exact hclosed j hin d
      · exact hx.free j hj d
  | @opened c path type set d i hc hd hp hk =>
    refine ⟨fun j => ?_, fun j hj e => ?_⟩
    · rw [hc.pointers, holders_take (p := s.pointers) (State.freeSlot_eq_some.1 hd).1, State.opened_inode]
      have := hx.count j
      dsimp only
      split <;> push_cast <;> omega
    · rw [State.opened_inode] at hj
      rw [hc.pointers, setSlot, Function.update_apply]
      split
      · intro he
        obtain rfl := Option.some.inj he
        exact hc.type_ne (hk.symm.trans hj)
      · exact hx.free j hj e
  | @closed c d clear i hc hd =>
    refine ⟨fun j => ?_, fun j hj e => ?_⟩
    · have hcount := hx.count j
      rw [← holders_drop (p := s.pointers) hd] at hcount
      rw [hc.pointers, State.closed_inode]
      dsimp only
      split <;> simp_all
    · rw [State.closed_inode] at hj
      rw [hc.pointers, setSlot, Function.update_apply]
      split
      · simp
      · exact hx.free j hj e
  | @wrote c d str len base i hc hstr hf =>
    refine hx.congr (fun j => ?_) (fun j hj => ?_) rfl
    · rw [State.written_inode]; split <;> rfl
    · rw [State.written_inode] at hj; split at hj <;> exact hj
  | listed => exact hx.congr (fun _ => rfl) (fun _ => id) (State.listed_pointers ..)
  | _ => exact hx.congr (fun _ => rfl) (fun _ => id) rfl

/-- A step keeps the counts exact unless it removes an open inode, which it leaves free but open. -/
theorem Next.refExact_step {s s' : State} {e : Event} (hi : Inv s) (hx : RefExact s) (h : Next s e s') :
    RefExact s' ↔ ¬ RemovesOpen ⟨s, e, s'⟩ := by
  cases h with
  | user => exact iff_of_true ⟨hx.count, hx.free⟩ id
  | @call c r s' hc =>
    constructor
    · rintro hx' ⟨path, i, d, j, hdel, hp, hd, hj⟩
      rw [exec_deletes hi hdel hp] at hc
      split at hc
      · cases hc
      · cases hc
        refine hx'.free j ?_ d hd
        rw [State.removed_type]
        exact if_pos hj
    · intro hno
      obtain ⟨tk, -, he⟩ := exec_effect hi hc
      exact he.refExact ⟨hx.count, hx.free⟩ hno

/-- In every run the counts are exact in all states if and only if no deletion removes an open inode. -/
theorem Runs.refExact_iff {tr : List (Step State Event)} {s : State} (h : Runs tr s) :
    (∀ tr' s', tr' <+: tr → Runs tr' s' → RefExact s') ↔ ∀ st ∈ tr, ¬ RemovesOpen st := by
  refine h.forall_states_iff RefExact (fun st => ¬ RemovesOpen st) (fun mem => ?_)
    fun s e s' hr hx hn => hn.refExact_step hr.invariant hx
  have hfree : ∀ d i, (initial mem).pointers d ≠ some i := fun d i => by simp [State.pointers, initial_slot]
  refine ⟨fun i => ?_, fun i _ d => hfree d i⟩
  rw [holders_eq_zero.2 fun d => hfree d i, initial_inode]
  rfl

/-- Without a deletion the counts are exact, also after crossed closes. -/
theorem refExact_crossed : RefExact (afterCalls crossedCloses) := by
  refine (Runs.refExact_iff (runs_calls crossedCloses).1).2 (fun st hst hrem => ?_) _ _ (List.prefix_refl _)
    (runs_calls crossedCloses).1
  obtain ⟨c, hc, r, he⟩ := (runs_calls crossedCloses).2 st hst
  unfold RemovesOpen at hrem
  rw [he] at hrem
  obtain ⟨path, i, d, j, hdel, -⟩ := hrem
  simp only [crossedCloses, List.mem_cons, List.not_mem_nil, or_false] at hc
  rcases hc with rfl | rfl | rfl | rfl | rfl | rfl | rfl <;> cases hdel

/-- An open file that is deleted leaves a slot on a free inode. -/
theorem refExact_fails : ¬ ∀ s, Reachable s → RefExact s := by
  intro hall
  have hx := hall _ (reachable_afterCalls [.create_file (some rootName) (some nameA),
    .open_file (some pathA) (some 0), .delete_file (some pathA)])
  exact hx.free entry1 (by decide +kernel) slot0 (by decide +kernel)

end ClbFilesystem
