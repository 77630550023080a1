import ClbFilesystem.Guards
import ClbFilesystem.Paths
/-!
# The variable of a failed open

An open writes the slot it found to `*fd` before it looks at the path. If the
path is bad the variable keeps the number of a slot that is still free, and the
next open, of anybody, takes that slot: from then on the variable is good for
whatever it was opened on. Only a full table leaves -1 behind.
-/

namespace ClbFilesystem

open Lib

/-! ## A run around one variable -/

inductive VarEvent where
  /-- A step in which the variable is not used. -/
  | other (e : Event)
  /-- A call made with the variable. -/
  | own (c : Call) (r : Reply)

/-- A step of the system and the value of the variable; a call made with it may change it. -/
inductive VarNext : State × Int → VarEvent → State × Int → Prop
  | other {s e s' v} : Next s e s' → VarNext (s, v) (.other e) (s', v)
  | own {s c r s' v} : c.given = some v → exec c s = .ok (r, s') →
    VarNext (s, v) (.own c r) (s', r.fd.getD v)

/-- Whatever happens, every call made with a variable of value `v` fails and changes nothing. -/
def NoAccess (s : State) (v : Int) : Prop :=
  ∀ tr s' v', Run VarNext (s, v) tr (s', v') →
    ∀ c : Call, c.given = some v' → ∃ r, r.Refused ∧ exec c s' = .ok (r, s')

/-- A negative variable stays so. -/
theorem VarNext.negative {x y : State × Int} {e : VarEvent} (h : VarNext x e y) (hx : 0 > x.2) : 0 > y.2 := by
  cases h with
  | other hn => exact hx
  | own hv hex =>
    rw [exec_negative hv hx, Except.ok.injEq] at hex
    cases hex
    exact hx

theorem noAccess_negative (s : State) {v : Int} (h : 0 > v) : NoAccess s v := by
  intro tr s' v' hrun c hv
  have hneg : 0 > v' := hrun.inv (fun x => 0 > x.2) h fun x e y hx hn => hn.negative hx
  exact ⟨_, c.badFd_refused _, exec_negative hv hneg⟩

/-! ## What the variable gets -/

/-- An open that fails leaves the variable -1 if the table is full, else the first free slot. -/
theorem openInode_failed {s s' : State} {type : TypeFile} {invalid_path : VfsError}
    {set : Inode → FileDescriptor → FileDescriptor} {path : Option CStr} {v : Int} {x : VfsError × Option Int}
    (hi : Inv s) (h : openInode type invalid_path set path (some v) s = .ok (x, s')) (hx : x.1 ≠ .VFS_OK) :
    ∃ tk, s' = { s with token := tk } ∧ tk.length = MAX_SIZE_NAME + 1 ∧
      x.2 = match s.freeSlot with | some d => some (d.val : Int) | none => some (-1) := by
  obtain ⟨T, ht⟩ := hi.tree
  cases hd : s.freeSlot with
  | none =>
    rw [openInode_full hd] at h
    cases h
    exact ⟨s.token, rfl, hi.token, rfl⟩
  | some d => cases path with
    | none =>
      unfold openInode at h
      simp only [get_next_fd_eq, hd, if_neg (show ¬ ((d.val : Int) < 0) by omega)] at h
      cases h
    | some path =>
      rw [openInode_eq ht hi.token hd path v, Except.ok.injEq] at h
      have hlen := length_tokenAfter ht hi.token path
      cases hp : s.resolve path.chars with
      | none => simp only [hp] at h; cases h; exact ⟨_, rfl, hlen, rfl⟩
      | some i =>
        simp only [hp] at h
        split at h
        · cases h; exact ⟨_, rfl, hlen, rfl⟩
        · cases h; exact absurd rfl hx

theorem exec_opening_failed {s s' : State} {c : Call} {path : Option CStr} {v : Int} {r : Reply} (hi : Inv s)
    (hc : c.Opening path (some v)) (h : exec c s = .ok (r, s')) (hr : r.ret ≠ .error .VFS_OK) :
    ∃ tk, s' = { s with token := tk } ∧ tk.length = MAX_SIZE_NAME + 1 ∧
      r.fd = match s.freeSlot with | some d => some (d.val : Int) | none => some (-1) := by
  cases hc
  all_goals
    obtain ⟨x, hx, heq⟩ := map_ok h
    obtain ⟨rfl, rfl⟩ := Prod.mk.inj heq
    exact openInode_failed hi hx fun he => hr (by simp [he])

/-- The root is always there to be opened, on the first free slot. -/
theorem exec_open_root {s : State} (hi : Inv s) {d : Fin MAX_OPEN_FILES} (hd : s.freeSlot = some d) :
    ∃ s', exec (.open_dir (some rootName) (some 0)) s = .ok ({ ret := .error .VFS_OK, fd := some (d.val : Int) }, s') ∧
      s'.pointers d ≠ none := by
  obtain ⟨T, ht⟩ := hi.tree
  have hroot : s.resolve rootName.chars = some ROOT_INODE :=
    (ht.resolve_root_iff _).2 ⟨by simp [rootName], by simp [rootName, slash]⟩
  have hopens : Call.Opens (.open_dir (some rootName) (some 0)) rootName .FOLDER _ := .open_dir
  refine ⟨_, exec_opens hi hopens hd hroot ht.root, ?_⟩
  rw [hopens.pointers, setSlot, Function.update_self]
  simp

/-- The number of a free slot gives access in the end: somebody opens the root, and the variable closes it. -/
theorem access_of_freeSlot {s : State} (hi : Inv s) {d : Fin MAX_OPEN_FILES} (hd : s.freeSlot = some d) :
    ¬ NoAccess s d.val := by
  intro hno
  obtain ⟨s', hopen, hp⟩ := exec_open_root hi hd
  have hrun : Run VarNext (s, (d.val : Int)) _ (s', (d.val : Int)) := Run.nil.snoc (.other (.call hopen))
  obtain ⟨r, hr, hex⟩ := hno _ _ _ hrun (.close_dir (some d.val)) rfl
  obtain ⟨clear, -, hclose⟩ := exec_closing (c := .close_dir (some (d.val : Int))) .close_dir s'
  rw [hclose, Except.ok.injEq] at hex
  cases hd' : s'.pointers d with
  | none => exact hp hd'
  | some i =>
    simp only [hd', Prod.mk.injEq] at hex
    obtain ⟨rfl, -⟩ := hex
    exact hr rfl

/-- After an open that fails its variable gives no access if and only if all slots were open; then, and only
then, it is negative. -/
theorem Reachable.failed_open_iff {s s' : State} (h : Reachable s) {c : Call} {path : Option CStr} {v : Int}
    {r : Reply} (hc : c.Opening path (some v)) (hex : exec c s = .ok (r, s')) (hr : r.ret ≠ .error .VFS_OK) :
    ∃ w, r.fd = some w ∧ (NoAccess s' w ↔ ∀ d, s.pointers d ≠ none) ∧ (w < 0 ↔ ∀ d, s.pointers d ≠ none) := by
  have hi := h.invariant
  have hfull : (∀ d, s.pointers d ≠ none) ↔ s.freeSlot = none := State.freeSlot_eq_none.symm
  rw [hfull]
  obtain ⟨tk, rfl, htk, hfd⟩ := exec_opening_failed hi hc hex hr
  cases hd : s.freeSlot with
  | none =>
    rw [hd] at hfd
    exact ⟨-1, hfd, by simp [noAccess_negative _ (show 0 > (-1 : Int) by decide)], by simp⟩
  | some d =>
    rw [hd] at hfd
    have hno := access_of_freeSlot (hi.congr htk) (d := d) hd
    exact ⟨d.val, hfd, by simp [hno], by simp⟩

/-- `open_file("/a", &fd)` at boot: there is no such file. -/
theorem exec_open_missing : exec (.open_file (some pathA) (some 0)) (afterCalls []) =
    .ok ({ ret := .error .VFS_INVALID_PATH_FILE, fd := some 0 }, afterCalls [.open_file (some pathA) (some 0)]) :=
  exec_afterCalls (by decide +kernel)

theorem failed_open_boot : ∃ w : Int, (0 : Int) = w ∧
    (NoAccess (afterCalls [.open_file (some pathA) (some 0)]) w ↔ ∀ d, (afterCalls []).pointers d ≠ none) := by
  obtain ⟨w, hw, hno, -⟩ := Reachable.failed_open_iff (reachable_afterCalls []) .open_file exec_open_missing (by decide)
  exact ⟨w, Option.some.inj hw, hno⟩

/-- There all slots are free, and the variable is left with the first. -/
theorem failed_open_fails : ¬ ∀ s, Reachable s → ∀ (c : Call) path v r s', c.Opening path (some v) →
    exec c s = .ok (r, s') → r.ret ≠ .error .VFS_OK → ∃ w, r.fd = some w ∧ NoAccess s' w := by
  intro hall
  obtain ⟨w, hw, hno⟩ := hall _ (reachable_afterCalls []) _ _ _ _ _ .open_file exec_open_missing (by decide)
  obtain rfl := Option.some.inj hw
  have hd : (afterCalls [.open_file (some pathA) (some 0)]).freeSlot = some slot0 := by decide +kernel
  exact access_of_freeSlot (reachable_afterCalls _).invariant hd hno

end ClbFilesystem
