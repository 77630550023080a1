import ClbFilesystem.Effect
import ClbFilesystem.Lib.Handles
/-!
# Who holds which descriptor

A slot is in use while its inode pointer is set, and nothing else records it.
`SlotSpec` is what each call may do to the slots; `held` is the list of the
descriptors that processes got from an open and have not given to a close,
computed from the calls and their replies alone. It is the list of the slots in
use after every run, without a repetition.
-/

namespace ClbFilesystem

open Lib

/-- The inode pointers of the slots. -/
def State.pointers (s : State) (d : Fin MAX_OPEN_FILES) : InodePtr := (s.slot d).inode

/-! ## What a call does to the slots -/

namespace Call

inductive Opening : Call → Option CStr → Option Int → Prop
  | open_file {path fd} : Opening (.open_file path fd) path fd
  | open_dir {path fd} : Opening (.open_dir path fd) path fd

inductive Closing : Call → Option Int → Prop
  | close_file {fd} : Closing (.close_file fd) fd
  | close_dir {fd} : Closing (.close_dir fd) fd

/-- The descriptor a call is given; an open is given none. -/
def given : Call → Option Int
  | .close_file fd | .close_dir fd | .read_file fd _ _ | .write_file fd _ _ | .append_file fd _ _
  | .get_next_dir_son fd _ => fd
  | _ => none

theorem Opens.opening {c : Call} {path : CStr} {type : TypeFile} {set} (h : c.Opens path type set) :
    ∃ v, c.Opening (some path) (some v) := by
  cases h
  · exact ⟨_, .open_file⟩
  · exact ⟨_, .open_dir⟩

theorem Closes.given_eq {c : Call} {d : Fin MAX_OPEN_FILES} {clear} (h : c.Closes d clear) : c.given = some (d.val : Int) := by
  cases h <;> rfl

/-- Creations and deletions neither open nor close. -/
theorem Creates.no_slot {c : Call} {path name : CStr} {type : TypeFile} (h : c.Creates path name type) (p : Option CStr)
    (fd : Option Int) : ¬ (c.Opening p fd ∨ c.Closing fd) := by
  cases h <;> rintro (ho | ho) <;> cases ho

theorem Deletes.no_slot {c : Call} {path : CStr} (h : c.Deletes path) (p : Option CStr) (fd : Option Int) :
    ¬ (c.Opening p fd ∨ c.Closing fd) := by
  cases h <;> rintro (ho | ho) <;> cases ho

theorem Closing.given_eq {c : Call} {fd : Option Int} (h : c.Closing fd) : c.given = fd := by cases h <;> rfl

theorem Writes.given_eq {c : Call} {d : Fin MAX_OPEN_FILES} {str : Nat} {len : UInt32} {base} (h : c.Writes d str len base) :
    c.given = some (d.val : Int) := by cases h <;> rfl

end Call

structure SlotSpec (s : State) (c : Call) (r : Reply) (s' : State) : Prop where
  /-- A successful open stores the least descriptor that is not open, and fills its slot only. -/
  opened : ∀ path fd, c.Opening path fd → r.ret = .error .VFS_OK → ∃ d : Fin MAX_OPEN_FILES, r.fd = some (d.val : Int) ∧
    s.pointers d = none ∧ (∀ e < d, s.pointers e ≠ none) ∧ s'.pointers d ≠ none ∧ ∀ e, e ≠ d → s'.slot e = s.slot e
  full : ∀ path v, c.Opening path (some v) → (r.ret = .error .VFS_MAX_FD_REACHED ↔ ∀ d, s.pointers d ≠ none)
  failed : ∀ path fd, c.Opening path fd → r.ret ≠ .error .VFS_OK → ∀ e, s'.slot e = s.slot e
  /-- A close succeeds on an open descriptor, and frees its slot only. -/
  closed : ∀ d : Fin MAX_OPEN_FILES, c.Closing (some (d.val : Int)) →
    (r.ret = .error .VFS_OK ↔ s.pointers d ≠ none) ∧ s'.pointers d = none
  others : (∀ path fd, ¬ c.Opening path fd) → ∀ e : Fin MAX_OPEN_FILES, c.given ≠ some (e.val : Int) → s'.slot e = s.slot e

/-- Listing moves the cursor of a slot, not its inode pointer. -/
theorem State.listed_pointers (s : State) (mem : Mem) (d : Fin MAX_OPEN_FILES) (n : Fin FS_NPAGES) :
    (s.listed mem d n).pointers = s.pointers := by
  funext e
  unfold pointers
  rw [listed_slot]
  split <;> rfl

/-- The pointers of the slots change in a successful open and a successful close only. -/
inductive SlotStep (s : State) : Call → Reply → State → Prop
  | opened {c path type set d i} : Call.Opens c path type set → s.freeSlot = some d →
    s.resolve path.chars = some i → s.kind i = type →
    SlotStep s c { ret := .error .VFS_OK, fd := some (d.val : Int) } (s.opened set d i)
  | closed {c d clear i} : Call.Closes c d clear → s.pointers d = some i →
    SlotStep s c { ret := .error .VFS_OK, fd := some (-1) } (s.closed clear d i)
  | kept {c r s'} : s'.pointers = s.pointers →
    (∀ path fd, c.Opening path fd ∨ c.Closing fd → r.Refused ∧ s' = s) → SlotStep s c r s'

section Pointers
variable {s s' : State} {c : Call} {r : Reply}

theorem Call.Opens.pointers {path : CStr} {type : TypeFile} {set} (hc : c.Opens path type set) (d : Fin MAX_OPEN_FILES)
    (i : Fin FS_NPAGES) : (s.opened set d i).pointers = setSlot s.pointers d (some i) := by
  funext e
  unfold State.pointers setSlot
  rw [State.opened_slot, Function.update_apply]
  split
  · rw [hc.set_inode]
  · rfl

theorem Call.Closes.pointers {d : Fin MAX_OPEN_FILES} {clear} (hc : c.Closes d clear) (i : Fin FS_NPAGES) :
    (s.closed clear d i).pointers = setSlot s.pointers d none := by
  funext e
  unfold State.pointers setSlot
  rw [State.closed_slot, Function.update_apply]
  split
  · rw [hc.clear_inode]
  · rfl

theorem Effect.slotStep (h : Effect s c r s') : SlotStep s c r s' := by
  cases h with
  | opened hc hd hp hk => exact .opened hc hd hp hk
  | closed hc hd => exact .closed hc hd
  | refused hr => exact .kept rfl fun _ _ _ => ⟨hr, rfl⟩
  | created hc => exact .kept rfl fun path fd hoc => absurd hoc (hc.no_slot path fd)
  | removed hc => exact .kept rfl fun path fd hoc => absurd hoc (hc.no_slot path fd)
  | read => exact .kept rfl fun path fd hoc => by rcases hoc with ho | ho <;> cases ho
  | wrote hc => exact .kept rfl fun path fd hoc => by cases hc <;> rcases hoc with ho | ho <;> cases ho
  | listed => exact .kept (State.listed_pointers ..) fun path fd hoc => by rcases hoc with ho | ho <;> cases ho
  | ended => exact .kept rfl fun path fd hoc => by rcases hoc with ho | ho <;> cases ho

/-- A call given one descriptor leaves the other slots alone, and so does a call given none, but for an open. -/
theorem Effect.others (h : Effect s c r s') (hno : ∀ path fd, ¬ c.Opening path fd) {e : Fin MAX_OPEN_FILES}
    (he : c.given ≠ some (e.val : Int)) : s'.slot e = s.slot e := by
  have hne : ∀ {d : Fin MAX_OPEN_FILES}, c.given = some (d.val : Int) → e ≠ d := by
    rintro d hd rfl
    exact he hd
  cases h with
  | opened hc =>
    obtain ⟨v, ho⟩ := hc.opening
    exact absurd ho (hno _ _)
  | closed hc hd => rw [State.closed_slot, if_neg (hne hc.given_eq)]
  | listed hb hd => rw [State.listed_slot, if_neg (hne rfl)]
  | _ => rfl

end Pointers

/-- The error for a full table is returned exactly when it is full. -/
theorem openInode_max {s s' : State} {type : TypeFile} {invalid_path : VfsError}
    {set : Inode → FileDescriptor → FileDescriptor} {path : Option CStr} {v : Int} {x : VfsError × Option Int}
    (hi : Inv s) (hinv : invalid_path ≠ .VFS_MAX_FD_REACHED) (h : openInode type invalid_path set path (some v) s = .ok (x, s')) :
    x.1 = .VFS_MAX_FD_REACHED ↔ s.freeSlot = none := by
  obtain ⟨T, ht⟩ := hi.tree
  cases hd : s.freeSlot with
  | none =>
    rw [openInode_full hd] at h
    cases h
    simp
  | some d => cases path with
    | none =>
      unfold openInode at h
      simp only [get_next_fd_eq, hd, if_neg (show ¬ ((d.val : Int) < 0) by omega)] at h
      cases h
    | some path =>
      rw [openInode_eq ht hi.token hd path v, Except.ok.injEq] at h
      cases hp : s.resolve path.chars with
      | none => simp only [hp] at h; cases h; simpa using hinv
      | some i =>
        simp only [hp] at h
        split at h <;> (cases h; simp)

/-- A close looks at its slot only. -/
theorem exec_closing {c : Call} {d : Fin MAX_OPEN_FILES} (h : c.Closing (some (d.val : Int))) (s : State) :
    ∃ clear, c.Closes d clear ∧ exec c s = .ok (match s.pointers d with
      | none => ({ ret := .error .VFS_INVALID_FD, fd := some (-1) }, s)
      | some i => ({ ret := .error .VFS_OK, fd := some (-1) }, s.closed clear d i)) := by
  generalize hv : some (d.val : Int) = v at h
  cases h
  all_goals
    subst hv
    refine ⟨_, by constructor, ?_⟩
    simp only [exec, close_file, close_dir, close_eq, State.pointers]
    cases (s.slot d).inode <;> rfl

theorem exec_slotSpec {s s' : State} {c : Call} {r : Reply} (hi : Inv s) (h : exec c s = .ok (r, s')) : SlotSpec s c r s' := by
  obtain ⟨tk, htk, he⟩ := exec_effect hi h
  have hslot : ∀ e, ({ s with token := tk } : State).slot e = s.slot e := fun _ => rfl
  refine ⟨fun path fd ho hr => ?_, fun path v ho => ?_, fun path fd ho hr e => ?_, fun d hc => ?_, fun hno e hne => ?_⟩
  · generalize hs : ({ s with token := tk } : State) = s₁ at he hslot
    cases he.slotStep with
    | @opened p type set d i hc hd hp hk =>
      subst hs
      obtain ⟨hfree, hleast⟩ := State.freeSlot_eq_some.1 hd
      refine ⟨d, rfl, hfree, hleast, ?_, fun e hed => ?_⟩
      · rw [hc.pointers, setSlot, Function.update_self]
        simp
      · rw [State.opened_slot, if_neg hed]
        rfl
    | closed hc hd => cases hc <;> cases ho
    | kept hp hk => exact absurd (hk path fd (.inl ho)).1 (by simp [Reply.Refused, hr])
  · have hfull : (∀ d, s.pointers d ≠ none) ↔ s.freeSlot = none := State.freeSlot_eq_none.symm
    rw [hfull]
    cases ho
    all_goals
      obtain ⟨x, hx, heq⟩ := map_ok h
      cases heq
      exact (by simpa [Reply.ofFd] using openInode_max hi (by decide) hx)
  · generalize hs : ({ s with token := tk } : State) = s₁ at he hslot
    cases he.slotStep with
    | opened hc => exact absurd rfl hr
    | closed hc => exact absurd rfl hr
    | kept hp hk => rw [(hk path fd (.inl ho)).2, hslot]
  · obtain ⟨clear, hcl, heq⟩ := exec_closing hc s
    rw [heq, Except.ok.injEq] at h
    cases hd : s.pointers d with
    | none =>
      simp only [hd, Prod.mk.injEq] at h
      obtain ⟨rfl, rfl⟩ := h
      simp [hd]
    | some i =>
      simp only [hd, Prod.mk.injEq] at h
      obtain ⟨rfl, rfl⟩ := h
      rw [hcl.pointers, setSlot, Function.update_self]
      simp
  · exact (he.others hno hne).trans (hslot e)

/-- An open with a path and a variable returns. -/
theorem exec_opening_returns {s : State} (hi : Inv s) {c : Call} {path : CStr} {v : Int}
    (h : c.Opening (some path) (some v)) : ∃ r s', exec c s = .ok (r, s') := by
  obtain ⟨T, ht⟩ := hi.tree
  cases h
  all_goals
    simp only [exec, open_file, open_dir]
    cases hd : s.freeSlot with
    | none => rw [openInode_full hd]; exact ⟨_, _, rfl⟩
    | some d => rw [openInode_eq ht hi.token hd path v]; exact ⟨_, _, rfl⟩

/-! ## The descriptors handed out -/

/-- A successful open hands out a descriptor, a successful close takes it back. -/
def heldStep (l : List Int) (st : Step State Event) : List Int :=
  match st.event with
  | .call (.open_file _ _) ⟨.error .VFS_OK, some v⟩ | .call (.open_dir _ _) ⟨.error .VFS_OK, some v⟩ => v :: l
  | .call (.close_file (some v)) ⟨.error .VFS_OK, _⟩ | .call (.close_dir (some v)) ⟨.error .VFS_OK, _⟩ => l.erase v
  | _ => l

def held (tr : List (Step State Event)) : List Int := tr.foldl heldStep []

section Held
variable {s s' : State} {c : Call} {r : Reply} {l : List Int}

theorem heldStep_opens {path : CStr} {type : TypeFile} {set} (hc : c.Opens path type set) (v : Int) :
    heldStep l ⟨s, .call c ⟨.error .VFS_OK, some v⟩, s'⟩ = v :: l := by cases hc <;> rfl

theorem heldStep_closes {d : Fin MAX_OPEN_FILES} {clear} (hc : c.Closes d clear) (v : Option Int) :
    heldStep l ⟨s, .call c ⟨.error .VFS_OK, v⟩, s'⟩ = l.erase d.val := by cases hc <;> rfl

theorem heldStep_refused (hr : r.Refused) : heldStep l ⟨s, .call c r, s'⟩ = l := by
  obtain ⟨ret, v⟩ := r
  unfold heldStep
  split <;> simp_all [Reply.Refused]

theorem heldStep_other (hc : ∀ path fd, ¬ (c.Opening path fd ∨ c.Closing fd)) : heldStep l ⟨s, .call c r, s'⟩ = l := by
  cases c
  case open_file path fd => exact absurd (.inl .open_file) (hc path fd)
  case open_dir path fd => exact absurd (.inl .open_dir) (hc path fd)
  case close_file fd => exact absurd (.inr .close_file) (hc none fd)
  case close_dir fd => exact absurd (.inr .close_dir) (hc none fd)
  all_goals rfl

end Held

/-- The descriptors in `l` are the slots in use, each once. -/
structure Holds (l : List Int) (p : Fin MAX_OPEN_FILES → InodePtr) : Prop where
  nodup : l.Nodup
  mem : ∀ v, v ∈ l ↔ ∃ d : Fin MAX_OPEN_FILES, v = d.val ∧ p d ≠ none

theorem SlotStep.holds {s s' : State} {c : Call} {r : Reply} {l : List Int} (h : SlotStep s c r s') (hl : Holds l s.pointers) :
    Holds (heldStep l ⟨s, .call c r, s'⟩) s'.pointers := by
  have hval : ∀ {d e : Fin MAX_OPEN_FILES}, (d.val : Int) = e.val ↔ d = e := by
    intro d e
    rw [Fin.ext_iff]
    omega
  cases h with
  | @opened path type set d i hc hd hp hk =>
    have hfree := (State.freeSlot_eq_some.1 hd).1
    rw [heldStep_opens hc, hc.pointers]
    refine ⟨List.nodup_cons.2 ⟨fun hin => ?_, hl.nodup⟩, fun v => ?_⟩
    · obtain ⟨e, he, hopen⟩ := (hl.mem _).1 hin
      obtain rfl := hval.1 he
      exact hopen hfree
    · rw [List.mem_cons, hl.mem]
      constructor
      · rintro (rfl | ⟨e, rfl, he⟩)
        · exact ⟨d, rfl, by simp [setSlot]⟩
        · refine ⟨e, rfl, ?_⟩
          by_cases hed : e = d <;> simp [setSlot, hed, he]
      · rintro ⟨e, rfl, he⟩
        by_cases hed : e = d
        · exact .inl (hval.2 hed)
        · rw [setSlot, Function.update_of_ne hed] at he
          exact .inr ⟨e, rfl, he⟩
  | @closed d clear i hc hd =>
    rw [heldStep_closes hc, hc.pointers]
    refine ⟨hl.nodup.erase _, fun v => ?_⟩
    rw [hl.nodup.mem_erase_iff, hl.mem]
    constructor
    · rintro ⟨hne, e, rfl, he⟩
      have hed : e ≠ d := fun h => hne (hval.2 h)
      exact ⟨e, rfl, by rwa [setSlot, Function.update_of_ne hed]⟩
    · rintro ⟨e, rfl, he⟩
      have hed : e ≠ d := by
        rintro rfl
        simp [setSlot] at he
      rw [setSlot, Function.update_of_ne hed] at he
      exact ⟨fun h => hed (hval.1 h), e, rfl, he⟩
  | kept hp hk =>
    have hsame : heldStep l ⟨s, .call c r, s'⟩ = l := by
      by_cases hoc : ∃ path fd, c.Opening path fd ∨ c.Closing fd
      · obtain ⟨path, fd, hoc⟩ := hoc
        exact heldStep_refused (hk path fd hoc).1
      · exact heldStep_other fun path fd h => hoc ⟨path, fd, h⟩
    rw [hsame, hp]
    exact hl

/-- After every run the descriptors handed out are the slots in use, without a repetition, and every call
of the run treated the slots as it may. An open with a path and a variable always returns. -/
theorem Runs.descriptors {tr : List (Step State Event)} {s : State} (h : Runs tr s) :
    ((held tr).Nodup ∧ ∀ v, v ∈ held tr ↔ ∃ d : Fin MAX_OPEN_FILES, v = d.val ∧ s.pointers d ≠ none) ∧
    (∀ st ∈ tr, ∀ c r, st.event = .call c r → SlotSpec st.pre c r st.post) ∧
    ∀ c path v, c.Opening (some path) (some v) → ∃ r s', exec c s = .ok (r, s') ∧ SlotSpec s c r s' := by
  have hi := Reachable.invariant ⟨tr, h⟩
  refine ⟨?_, fun st hst c r he => ?_, fun c path v hc => ?_⟩
  · obtain ⟨mem, s₀, hboot, hrun⟩ := h
    have hall : Holds (held tr) s.pointers := by
      refine hrun.history [] heldStep (fun l t => Holds l t.pointers) ?_ fun tr' l t e t' hrun' hl hn => ?_
      · rw [init_fs_boot, Except.ok.injEq] at hboot
        subst hboot
        exact ⟨List.nodup_nil, fun v => by simp [State.pointers, initial_slot]⟩
      · cases hn with
        | call hc =>
          have ht := hrun'.inv Inv (boot_inv hboot) fun _ _ _ => Inv.next_step
          obtain ⟨tk, htk, he⟩ := exec_effect ht hc
          exact he.slotStep.holds hl
        | user => exact hl
    exact ⟨hall.nodup, hall.mem⟩
  · obtain ⟨hr, hn⟩ := h.of_mem st hst
    obtain ⟨pre, event, post⟩ := st
    subst he
    cases hn with
    | call hc => exact exec_slotSpec hr.invariant hc
  · obtain ⟨r, s', hex⟩ := exec_opening_returns hi hc
    exact ⟨r, s', hex, exec_slotSpec hi hex⟩

/-- The root and a file, opened, closed each with the call for the other, and opened again. -/
def crossedCloses : List Call :=
  [.create_file (some rootName) (some nameA), .open_dir (some rootName) (some 0),
    .open_file (some pathA) (some 0), .close_file (some 0), .close_dir (some 1),
    .open_dir (some rootName) (some 0), .open_file (some pathA) (some 0)]

theorem descriptors_crossed :
    held (runCalls crossedCloses).1 = [1, 0] ∧ (held (runCalls crossedCloses).1).Nodup ∧
    ∀ v, v ∈ held (runCalls crossedCloses).1 ↔
      ∃ d : Fin MAX_OPEN_FILES, v = d.val ∧ (afterCalls crossedCloses).pointers d ≠ none :=
  ⟨by decide +kernel, (Runs.descriptors (runs_calls crossedCloses).1).1⟩

end ClbFilesystem
