import ClbFilesystem.Slots
/-!
# Calls on a descriptor that is not open

The six calls that take a descriptor test its sign and then look up the slot;
nothing compares it with `MAX_OPEN_FILES`. A negative or a closed descriptor is
turned away before anything changes, one past the table is an access outside
`open_inodes`, unless a null buffer was turned away before.
-/

namespace ClbFilesystem

namespace Call

/-- The buffer the call is given is the null pointer. -/
def NullBuffer : Call → Prop
  | .read_file _ str _ | .write_file _ str _ | .append_file _ str _ => str = 0
  | .get_next_dir_son _ son_name => son_name = 0
  | _ => False

instance (c : Call) : Decidable c.NullBuffer := by
  cases c <;> unfold NullBuffer <;> infer_instance

/-- The error the call has for a bad descriptor; a null name buffer has one of its own. -/
def badFd : Call → Ret
  | .read_file .. | .write_file .. | .append_file .. => .count (-1)
  | .get_next_dir_son _ son_name => .error (if son_name = 0 then .VFS_NULL_POINTER else .VFS_INVALID_FD)
  | _ => .error .VFS_INVALID_FD

theorem badFd_refused (c : Call) (fd : Option Int) : Reply.Refused { ret := c.badFd, fd := fd } := by
  unfold badFd Reply.Refused
  cases c <;> simp
  split <;> simp

end Call

/-- The call returns its error and leaves everything as it was. -/
def TurnedAway (s : State) (c : Call) : Prop := ∃ fd, exec c s = .ok ({ ret := c.badFd, fd := fd }, s)

section Guards
variable {s : State} {c : Call} {v : Int}

theorem fileOf_negative (h : 0 > v) (str : Nat) (s : State) : fileOf (some v) str s = .ok none := by
  unfold fileOf
  simp only [h, if_true]
  split <;> rfl

theorem fileOf_null (fd : Option Int) (s : State) : fileOf fd 0 s = .ok none := by
  cases fd <;> rfl

theorem fileOf_closed {d : Fin MAX_OPEN_FILES} (h : s.pointers d = none) (str : Nat) :
    fileOf (some (d.val : Int)) str s = .ok none := by
  have hd : (s.slot d).inode = none := h
  unfold fileOf
  simp only [if_neg (show ¬ 0 > (d.val : Int) by omega), fdIndex_val, bind, Except.bind, pure, Except.pure, hd]
  split <;> rfl

theorem fileOf_outside (hpos : ¬ 0 > v) (h : fdIndex v = .error .outOfBounds) {str : Nat} (hstr : str ≠ 0) :
    fileOf (some v) str s = .error .outOfBounds := by
  unfold fileOf
  simp only [hstr, hpos, if_false, h]
  rfl

/-- A transfer whose checks fail returns -1. -/
theorem exec_of_fileOf_none {str : Nat} (h : fileOf (some v) str s = .ok none) (len : UInt32) :
    exec (.read_file (some v) str len) s = .ok ({ ret := .count (-1), fd := some v }, s) ∧
    exec (.write_file (some v) str len) s = .ok ({ ret := .count (-1), fd := some v }, s) ∧
    exec (.append_file (some v) str len) s = .ok ({ ret := .count (-1), fd := some v }, s) := by
  simp only [exec, read_file, write_file, append_file, h]
  exact ⟨rfl, rfl, rfl⟩

/-- A negative descriptor is turned away, and stays in the caller's variable. -/
theorem exec_negative (hv : c.given = some v) (h : 0 > v) : exec c s = .ok ({ ret := c.badFd, fd := some v }, s) := by
  cases c <;> cases hv
  case close_file => simp only [exec, close_file, close_negative h]; rfl
  case close_dir => simp only [exec, close_dir, close_negative h]; rfl
  case read_file str len => exact (exec_of_fileOf_none (fileOf_negative h str s) len).1
  case write_file str len => exact (exec_of_fileOf_none (fileOf_negative h str s) len).2.1
  case append_file str len => exact (exec_of_fileOf_none (fileOf_negative h str s) len).2.2
  case get_next_dir_son son_name =>
    simp only [exec, get_next_dir_son, Call.badFd, h, if_true]
    split <;> rfl

/-- A null buffer is turned away whatever the descriptor. -/
theorem exec_nullBuffer (hv : c.given = some v) (h : c.NullBuffer) : TurnedAway s c := by
  cases c <;> cases hv <;> cases h
  case read_file len => exact ⟨_, (exec_of_fileOf_none (fileOf_null _ s) len).1⟩
  case write_file len => exact ⟨_, (exec_of_fileOf_none (fileOf_null _ s) len).2.1⟩
  case append_file len => exact ⟨_, (exec_of_fileOf_none (fileOf_null _ s) len).2.2⟩
  case get_next_dir_son => exact ⟨some v, rfl⟩

/-- A closed descriptor is turned away; the null inode pointer is all that says it is closed. -/
theorem exec_closed {d : Fin MAX_OPEN_FILES} (hv : c.given = some (d.val : Int)) (h : s.pointers d = none) :
    TurnedAway s c := by
  have hd : (s.slot d).inode = none := h
  cases c <;> cases hv
  case close_file => exact ⟨some (-1), by simp only [exec, close_file, close_eq, hd]; rfl⟩
  case close_dir => exact ⟨some (-1), by simp only [exec, close_dir, close_eq, hd]; rfl⟩
  case read_file str len => exact ⟨_, (exec_of_fileOf_none (fileOf_closed h str) len).1⟩
  case write_file str len => exact ⟨_, (exec_of_fileOf_none (fileOf_closed h str) len).2.1⟩
  case append_file str len => exact ⟨_, (exec_of_fileOf_none (fileOf_closed h str) len).2.2⟩
  case get_next_dir_son son_name =>
    by_cases hb : son_name = 0
    · exact exec_nullBuffer (v := d.val) rfl hb
    · refine ⟨some (-1), ?_⟩
      simp only [exec, get_next_dir_son, Call.badFd, hb, if_false, if_neg (show ¬ 0 > (d.val : Int) by omega),
        fdIndex_val, bind, Except.bind, pure, Except.pure, hd]
      rfl

/-- Past the table the slot is looked up all the same. -/
theorem exec_outside (hv : c.given = some v) (hpos : ¬ 0 > v) (h : fdIndex v = .error .outOfBounds)
    (hb : ¬ c.NullBuffer) : exec c s = .error .outOfBounds := by
  cases c <;> cases hv
  case close_file => simp only [exec, close_file, close, hpos, if_false, h]; rfl
  case close_dir => simp only [exec, close_dir, close, hpos, if_false, h]; rfl
  case read_file str len => simp only [exec, read_file, fileOf_outside hpos h hb]; rfl
  case write_file str len => simp only [exec, write_file, fileOf_outside hpos h hb]; rfl
  case append_file str len => simp only [exec, append_file, fileOf_outside hpos h hb]; rfl
  case get_next_dir_son son_name =>
    have hson : son_name ≠ 0 := hb
    simp only [exec, get_next_dir_son, hson, hpos, if_false, h]
    rfl

end Guards

/-- In every state a call given a descriptor that is not open is turned away if and only if the descriptor is
below `MAX_OPEN_FILES` or the buffer is null. Otherwise it reaches outside `open_inodes`. -/
theorem turnedAway_iff (s : State) {c : Call} {v : Int} (hv : c.given = some v)
    (hclosed : ∀ d : Fin MAX_OPEN_FILES, v = d.val → s.pointers d = none) :
    (TurnedAway s c ↔ v < MAX_OPEN_FILES ∨ c.NullBuffer) ∧
    (exec c s = .error .outOfBounds ↔ ¬ (v < MAX_OPEN_FILES ∨ c.NullBuffer)) := by
  have away : v < MAX_OPEN_FILES ∨ c.NullBuffer → TurnedAway s c := by
    rintro (hlt | hb)
    · rcases fdIndex_cases v with hneg | ⟨d, rfl⟩ | ⟨hpos, hout⟩
      · exact ⟨_, exec_negative hv hneg⟩
      · exact exec_closed hv (hclosed d rfl)
      · unfold fdIndex at hout
        rw [dif_pos (by omega)] at hout
        cases hout
    · exact exec_nullBuffer hv hb
  have outside : ¬ (v < MAX_OPEN_FILES ∨ c.NullBuffer) → exec c s = .error .outOfBounds := by
    rintro hno
    rw [not_or] at hno
    have hpos : (0 : Int) ≤ MAX_OPEN_FILES := Int.natCast_nonneg _
    apply exec_outside hv (by omega) _ hno.2
    unfold fdIndex
    rw [dif_neg (by omega)]
  constructor
  · refine ⟨fun ⟨fd, hfd⟩ => ?_, away⟩
    by_contra hno
    rw [outside hno] at hfd
    cases hfd
  · refine ⟨fun herr hin => ?_, outside⟩
    obtain ⟨fd, hfd⟩ := away hin
    rw [hfd] at herr
    cases herr

/-- At boot no slot is open: descriptor 127 is turned away. -/
theorem turnedAway_last : TurnedAway (afterCalls []) (.read_file (some 127) 1 1) :=
  (turnedAway_iff (afterCalls []) rfl fun _ _ => rfl).1.2 (.inl (by decide))

/-- `close_file` on descriptor 128 at boot. -/
theorem turnedAway_fails : ¬ ∀ s, Reachable s → ∀ (c : Call) (v : Int), c.given = some v →
    (∀ d : Fin MAX_OPEN_FILES, v = d.val → s.pointers d = none) → TurnedAway s c := by
  intro hall
  obtain ⟨fd, hfd⟩ := hall _ (reachable_afterCalls []) (.close_file (some 128)) 128 rfl fun _ _ => rfl
  rw [exec_outside rfl (by decide) rfl (by rintro ⟨⟩)] at hfd
  cases hfd

end ClbFilesystem
