import ClbFilesystem.Content
import ClbFilesystem.Slots
/-!
# Descriptors and the files they were opened on

An inode is given out again after its file has been deleted, so a file is an
inode together with the number of times it has been given out. `instances` keeps
these numbers along a run, and for each descriptor from `open_file` the file it
was opened on. Deletion leaves the descriptors of a file where they are; they keep
to their file exactly as long as no creation takes an inode one of them is on.
-/

namespace ClbFilesystem

open Lib

abbrev FileInstances := Instances (Fin MAX_OPEN_FILES) (Fin FS_NPAGES)

/-- Inode `i` is given out in a step. -/
def Appears (st : Step State Event) (i : Fin FS_NPAGES) : Prop :=
  (st.pre.inode i).type = .EMPTY ∧ (st.post.inode i).type ≠ .EMPTY

instance (st : Step State Event) : DecidablePred (Appears st) := fun _ => inferInstanceAs (Decidable (_ ∧ _))

/-- A successful `open_file` takes a descriptor on a file, a successful close drops one. -/
def bindStep (g : FileInstances) (st : Step State Event) : FileInstances :=
  match st.event with
  | .call (.open_file (some path) _) ⟨.error .VFS_OK, some v⟩ =>
    match fdIndex v, st.pre.resolve path.chars with
    | .ok d, some i => g.take d i
    | _, _ => g
  | .call (.close_file (some v)) ⟨.error .VFS_OK, _⟩ | .call (.close_dir (some v)) ⟨.error .VFS_OK, _⟩ =>
    match fdIndex v with
    | .ok d => g.drop d
    | .error _ => g
  | _ => g

def instanceStep (g : FileInstances) (st : Step State Event) : FileInstances := bindStep (g.renew (Appears st)) st

def instances (tr : List (Step State Event)) : FileInstances := tr.foldl instanceStep ⟨fun _ => 0, fun _ => none⟩

/-- Every descriptor from `open_file` is on the file it was opened on, still there or deleted. -/
structure Faithful (g : FileInstances) (s : State) : Prop where
  current : g.Current s.pointers
  file : ∀ d i n, g.taken d = some (i, n) → s.kind i ≠ .FOLDER

/-- The step creates a file or directory in an inode that a descriptor from `open_file` is on. -/
def Reuses (g : FileInstances) (st : Step State Event) : Prop :=
  ∃ c r name d i e n, st.event = .call c r ∧ c.CreatesAt st.pre name d i ∧ g.taken e = some (i, n)

theorem instances_snoc (tr : List (Step State Event)) (st : Step State Event) :
    instances (tr ++ [st]) = instanceStep (instances tr) st := by
  unfold instances
  rw [List.foldl_append]
  rfl

/-! ## One step -/

section OneStep
variable {s s' : State} {c : Call} {r : Reply} {g : FileInstances}

theorem bindStep_refused (hr : r.Refused) : bindStep g ⟨s, .call c r, s'⟩ = g := by
  obtain ⟨ret, v⟩ := r
  unfold bindStep
  split <;> simp_all [Reply.Refused]

theorem bindStep_other (hc : ∀ path fd, ¬ (c.Opening path fd ∨ c.Closing fd)) : bindStep g ⟨s, .call c r, s'⟩ = g := by
  cases c
  case open_file path fd => exact absurd (.inl .open_file) (hc path fd)
  case open_dir path fd => exact absurd (.inl .open_dir) (hc path fd)
  case close_file fd => exact absurd (.inr .close_file) (hc none fd)
  case close_dir fd => exact absurd (.inr .close_dir) (hc none fd)
  all_goals rfl

theorem bindStep_closes {d : Fin MAX_OPEN_FILES} {clear} (hc : c.Closes d clear) (v : Option Int) :
    bindStep g ⟨s, .call c ⟨.error .VFS_OK, v⟩, s'⟩ = g.drop d := by
  cases hc <;> simp [bindStep]

/-- A step in which no free inode gets a type. -/
theorem instanceStep_eq {e : Event} (ht : ∀ i, s'.kind i = .EMPTY ∨ s'.kind i = s.kind i) :
    instanceStep g ⟨s, e, s'⟩ = bindStep g ⟨s, e, s'⟩ := by
  unfold instanceStep
  rw [g.renew_none fun i hi => hi.2 ((ht i).elim id fun h => h.trans hi.1)]

/-- Nor does one that binds and moves no descriptor take one off its file. -/
theorem Faithful.keep {e : Event} (hf : Faithful g s) (ht : ∀ i, s'.kind i = .EMPTY ∨ s'.kind i = s.kind i)
    (hb : bindStep g ⟨s, e, s'⟩ = g) (hp : s'.pointers = s.pointers) : Faithful (instanceStep g ⟨s, e, s'⟩) s' := by
  rw [instanceStep_eq ht, hb]
  refine ⟨hp ▸ hf.current, fun d i n hd => ?_⟩
  rcases ht i with h | h <;> rw [h]
  · decide
  · exact hf.file d i n hd

theorem Call.Opens.faithful {path : CStr} {type : TypeFile} {set} {d : Fin MAX_OPEN_FILES} {i : Fin FS_NPAGES}
    (hc : c.Opens path type set) (hd : s.freeSlot = some d) (hp : s.resolve path.chars = some i) (hk : s.kind i = type)
    (hf : Faithful g s) : Faithful (bindStep g ⟨s, .call c ⟨.error .VFS_OK, some (d.val : Int)⟩, s.opened set d i⟩)
      (s.opened set d i) := by
  refine ⟨?_, fun e j n he => ?_⟩
  · rw [hc.pointers]
    cases hc with
    | open_file =>
      simp only [bindStep, fdIndex_val, hp]
      exact Instances.current_take hf.current
    | open_dir => exact Instances.current_set hf.current (State.freeSlot_eq_some.1 hd).1 _
  · rw [State.opened_kind]
    cases hc with
    | open_file =>
      simp only [bindStep, fdIndex_val, hp, Instances.take, Function.update_apply] at he
      split at he
      · obtain ⟨rfl, -⟩ := Prod.mk.inj (Option.some.inj he)
        rw [hk]
        decide
      · exact hf.file e j n he
    | open_dir => exact hf.file e j n he

theorem Call.Closes.faithful {d : Fin MAX_OPEN_FILES} {clear} {i : Fin FS_NPAGES} (hc : c.Closes d clear) {v : Option Int}
    (hf : Faithful g s) : Faithful (bindStep g ⟨s, .call c ⟨.error .VFS_OK, v⟩, s.closed clear d i⟩) (s.closed clear d i) := by
  rw [bindStep_closes hc]
  refine ⟨?_, fun e j n he => ?_⟩
  · rw [hc.pointers]
    exact Instances.current_drop hf.current
  · rw [State.closed_kind]
    simp only [Instances.drop, Function.update_apply] at he
    split at he
    · cases he
    · exact hf.file e j n he

theorem Effect.faithful (h : Effect s c r s') (hf : Faithful g s) (hno : ¬ Reuses g ⟨s, .call c r, s'⟩) :
    Faithful (instanceStep g ⟨s, .call c r, s'⟩) s' := by
  cases h with
  | @created c path name type d i hc hn hd hk hfree =>
    have hfresh : ∀ e n, g.taken e ≠ some (i, n) :=
      fun e n he => hno ⟨c, _, name, d, i, e, n, rfl, ⟨path, type, hc, hn, hd, hk, hfree⟩, he⟩
    unfold instanceStep
    rw [bindStep_other hc.no_slot]
    refine ⟨(Instances.current_renew hf.current).2 fun e j n he happ => ?_, fun e j n he => ?_⟩
    · have hnew := happ.2
      rw [State.created_type] at hnew
      split at hnew
      · next hji => subst hji; exact hfresh e n he
      · exact hnew happ.1
    · unfold State.kind
      rw [State.created_type]
      split
      · next hji => subst hji; exact absurd he (hfresh e n)
      · exact hf.file e j n he
  | @removed c path i hc hp hr =>
    refine hf.keep (fun j => ?_) (bindStep_other hc.no_slot) rfl
    unfold State.kind
    rw [State.removed_type]
    split
    · exact .inl rfl
    · exact .inr rfl
  | @opened c path type set d i hc hd hp hk =>
    rw [instanceStep_eq fun j => .inr (State.opened_kind ..)]
    exact hc.faithful hd hp hk hf
  | @closed c d clear i hc hd =>
    rw [instanceStep_eq fun j => .inr (State.closed_kind ..)]
    exact hc.faithful hf
  | wrote hc => exact hf.keep (fun j => .inr (State.written_kind ..)) (by cases hc <;> rfl) rfl
  | listed => exact hf.keep (fun _ => .inr rfl) rfl (State.listed_pointers ..)
  | refused hr => exact hf.keep (fun _ => .inr rfl) (bindStep_refused hr) rfl
  | read hstr hfile => exact hf.keep (fun _ => .inr rfl) rfl rfl
  | ended hb hd hk hn => exact hf.keep (fun _ => .inr rfl) rfl rfl

/-- What a step that reuses an inode leaves: a slot on an inode given out since it was taken. -/
theorem Reuses.next {e : Event} (hi : Inv s) (h : Next s e s') (hr : Reuses g ⟨s, e, s'⟩) :
    ∃ d i n, g.taken d = some (i, n) ∧ Appears ⟨s, e, s'⟩ i ∧ s'.pointers = s.pointers ∧
      instanceStep g ⟨s, e, s'⟩ = g.renew (Appears ⟨s, e, s'⟩) := by
  obtain ⟨c, r, name, d, i, e', n, rfl, hcr, hd⟩ := hr
  obtain ⟨tk, type, htype, heq⟩ := exec_creates hi hcr
  obtain ⟨path, _, hcs, -, -, -, hfree⟩ := hcr
  cases h with
  | call hc =>
    rw [heq, Except.ok.injEq, Prod.mk.injEq] at hc
    obtain ⟨rfl, rfl⟩ := hc
    refine ⟨e', i, n, hd, ⟨(State.freeEntry_eq_some.1 hfree).1, ?_⟩, rfl, ?_⟩
    · dsimp only
      rw [State.created_type, if_pos rfl]
      exact htype
    · exact bindStep_other hcs.no_slot

/-- A step keeps the descriptors on their files unless it reuses an inode one of them is on. -/
theorem Next.faithful_iff {e : Event} (hi : Inv s) (hf : Faithful g s) (h : Next s e s') :
    Faithful (instanceStep g ⟨s, e, s'⟩) s' ↔ ¬ Reuses g ⟨s, e, s'⟩ := by
  constructor
  · intro hf' hr
    obtain ⟨d, i, n, hd, happ, hp, heq⟩ := hr.next hi h
    have hcur := hf'.current
    rw [heq, hp] at hcur
    exact (Instances.current_renew hf.current).1 hcur d i n hd happ
  · intro hno
    cases h with
    | user => exact hf.keep (fun _ => .inr rfl) rfl rfl
    | call hc =>
      obtain ⟨tk, -, he⟩ := exec_effect hi hc
      exact he.faithful ⟨hf.current, hf.file⟩ hno

end OneStep

/-! ## What a descriptor does to its file -/

/-- The call reads, writes or appends through slot `d`, with its buffer at `str`. -/
inductive Call.Uses : Call → Fin MAX_OPEN_FILES → Nat → Prop
  | read_file {d str len} : Uses (.read_file (some (d.val : Int)) str len) d str
  | write_file {d str len} : Uses (.write_file (some (d.val : Int)) str len) d str
  | append_file {d str len} : Uses (.append_file (some (d.val : Int)) str len) d str

theorem Call.Uses.given_eq {c : Call} {d : Fin MAX_OPEN_FILES} {str : Nat} (h : c.Uses d str) :
    c.given = some (d.val : Int) := by cases h <;> rfl

/-- The call reads from the page of inode `i`, or writes there. -/
inductive ActsOn (s : State) (i : Fin FS_NPAGES) : Call → Reply → State → Prop
  | read {d : Fin MAX_OPEN_FILES} {str len} : ActsOn s i (.read_file (some (d.val : Int)) str len)
      { ret := .count (readCount (s.inode i).size len), fd := some (d.val : Int) } { s with mem := s.fetched i str len }
  | write {c d str len base} : Call.Writes c d str len base → ActsOn s i c
      { ret := .count (writeCount (base (s.inode i)) len), fd := some (d.val : Int) }
      (s.written i str (base (s.inode i)) (writeCount (base (s.inode i)) len))

/-- Slot `d` keeps to the file that was given out as the `n`-th in inode `i`. -/
structure KeepsTo (g : FileInstances) (s : State) (d : Fin MAX_OPEN_FILES) (i : Fin FS_NPAGES) (n : Nat) : Prop where
  /-- While the file is there, a use with a buffer acts on it. -/
  acts : g.count i = n → s.kind i = .FILE → ∀ c str, c.Uses d str → str ≠ 0 →
    ∃ r s', exec c s = .ok (r, s') ∧ ActsOn s i c r s'
  /-- When it has been deleted, a use returns -1. -/
  gone : ¬ (g.count i = n ∧ s.kind i = .FILE) → ∀ c str, c.Uses d str → ∃ v, exec c s = .ok (⟨.count (-1), v⟩, s)
  others : ∀ c str r s', c.Uses d str → exec c s = .ok (r, s') → ∀ j, j ≠ i →
    s'.inode j = s.inode j ∧ (c.Buffers → s.kind j = .FILE → s'.content j = s.content j)
  /-- A close changes the count of the file at most. -/
  close : ∀ c, c.Closing (some (d.val : Int)) → ∃ r s', exec c s = .ok (r, s') ∧
    ∀ j, (s'.inode j).ref ≠ (s.inode j).ref → j = i ∧ g.count i = n

section KeepsTo
variable {s s' : State} {g : FileInstances} {d : Fin MAX_OPEN_FILES} {i : Fin FS_NPAGES} {n : Nat}

/-- A use through a slot that is on no file, or without a buffer, is refused. -/
theorem exec_uses_refused (hi : Inv s) {c : Call} {str : Nat} (hu : c.Uses d str) (h : str = 0 ∨ s.fileAt d = none) :
    exec c s = .ok (⟨.count (-1), some (d.val : Int)⟩, s) := by
  obtain ⟨T, ht⟩ := hi.tree
  by_cases hstr : str = 0
  · subst hstr
    cases hu <;> rfl
  · have hf := h.resolve_left hstr
    cases hu
    · simp only [exec, read_file_eq ht (hi.next d) hstr, hf]; rfl
    · simp only [exec, write_file_eq ht hstr, hf]; rfl
    · simp only [exec, append_file_eq ht hstr, hf]; rfl

theorem exec_uses_acts (hi : Inv s) {c : Call} {str : Nat} (hu : c.Uses d str) (hstr : str ≠ 0) (hf : s.fileAt d = some i) :
    ∃ r s', exec c s = .ok (r, s') ∧ ActsOn s i c r s' := by
  obtain ⟨T, ht⟩ := hi.tree
  cases hu
  · simp only [exec, read_file_eq ht (hi.next d) hstr, hf]; exact ⟨_, _, rfl, .read⟩
  · simp only [exec, write_file_eq ht hstr, hf]; exact ⟨_, _, rfl, .write .write_file⟩
  · simp only [exec, append_file_eq ht hstr, hf]; exact ⟨_, _, rfl, .write .append_file⟩

theorem ActsOn.count {c : Call} {r : Reply} (h : ActsOn s i c r s') : ∃ k : Nat, r.ret = .count k := by
  cases h <;> exact ⟨_, rfl⟩

theorem ActsOn.inode {c : Call} {r : Reply} (h : ActsOn s i c r s') {j : Fin FS_NPAGES} (hj : j ≠ i) :
    s'.inode j = s.inode j := by
  cases h with
  | read => rfl
  | write hc => rw [State.written_inode, if_neg hj]

/-- A use through a slot on inode `i` leaves the content of every other file as it is. -/
theorem exec_uses_content (hi : Inv s) {c : Call} {r : Reply} {str : Nat} (hu : c.Uses d str) (h : exec c s = .ok (r, s'))
    (hp : s.pointers d = some i) {j : Fin FS_NPAGES} (hj : j ≠ i) (hb : c.Buffers) (hk : s.kind j = .FILE)
    (hk' : s'.kind j = .FILE) : s'.content j = s.content j := by
  rw [Next.content hi (.call h) hb hk' fun _ => rfl]
  apply replayStep_keep _ (by rw [show (s.inode j).type = .FILE from hk]; decide)
  rintro ⟨fd, str', len, m, v, hev, -, d', rfl, hd'⟩
  have hgiven : some (d'.val : Int) = some (d.val : Int) := by rcases hev with hev | hev <;> cases hev <;> exact hu.given_eq
  obtain rfl : d' = d := Fin.ext (Int.ofNat_inj.1 (Option.some.inj hgiven))
  exact hj (Option.some.inj (hd'.symm.trans hp))

/-- A descriptor on the file it was opened on keeps to it. -/
theorem Faithful.keepsTo (hi : Inv s) (hf : Faithful g s) (hd : g.taken d = some (i, n)) : KeepsTo g s d i n := by
  obtain ⟨hp, hn⟩ := hf.current d i n hd
  refine ⟨fun _ hk c str hu hstr => exec_uses_acts hi hu hstr (State.fileAt_eq_some.2 ⟨hp, hk⟩), fun hgone c str hu => ?_,
    fun c str r s' hu h j hj => ?_, fun c hc => ?_⟩
  · refine ⟨_, exec_uses_refused hi hu (.inr ?_)⟩
    cases hfile : s.fileAt d with
    | none => rfl
    | some j =>
      obtain ⟨hp', hk⟩ := State.fileAt_eq_some.1 hfile
      obtain rfl := Option.some.inj (hp.symm.trans hp')
      exact absurd ⟨hn, hk⟩ hgone
  · have hinode : s'.inode j = s.inode j := by
      by_cases hacts : str = 0 ∨ s.fileAt d = none
      · rw [exec_uses_refused hi hu hacts] at h
        cases h
        rfl
      · rw [not_or] at hacts
        obtain ⟨k, hk⟩ := Option.ne_none_iff_exists'.1 hacts.2
        obtain rfl := Option.some.inj ((State.fileAt_eq_some.1 hk).1.symm.trans hp)
        obtain ⟨r', s₁, heq, hact⟩ := exec_uses_acts hi hu hacts.1 hk
        rw [heq] at h
        cases h
        exact hact.inode hj
    refine ⟨hinode, fun hb hk => exec_uses_content hi hu h hp hj hb hk ?_⟩
    unfold State.kind
    rw [hinode]
    exact hk
  · obtain ⟨clear, -, heq⟩ := exec_closing hc s
    rw [hp] at heq
    refine ⟨_, _, heq, fun j hj => ⟨?_, hn⟩⟩
    by_contra hji
    rw [State.closed_inode, if_neg hji] at hj
    exact hj rfl

/-- A descriptor on an inode that has been given out again does not: closing it changes the new count. -/
theorem Reuses.not_keepsTo {e : Event} (hi : Inv s) (hf : Faithful g s) (h : Next s e s') (hr : Reuses g ⟨s, e, s'⟩) :
    ∃ d i n, (instanceStep g ⟨s, e, s'⟩).taken d = some (i, n) ∧ ¬ KeepsTo (instanceStep g ⟨s, e, s'⟩) s' d i n := by
  obtain ⟨d, i, n, hd, happ, hp, heq⟩ := hr.next hi h
  refine ⟨d, i, n, by rw [heq]; exact hd, fun hkeep => ?_⟩
  obtain ⟨hslot, hn⟩ := hf.current d i n hd
  rw [← hp] at hslot
  obtain ⟨clear, -, hex⟩ := exec_closing (c := .close_file (some (d.val : Int))) .close_file s'
  rw [hslot] at hex
  obtain ⟨r, s₁, hex', hclose⟩ := hkeep.close _ .close_file
  rw [hex] at hex'
  cases hex'
  have hcount := (hclose i (by rw [State.closed_inode, if_pos rfl]; dsimp only; omega)).2
  rw [heq, Instances.renew] at hcount
  simp only [happ, if_true] at hcount
  omega

end KeepsTo

/-! ## Whole runs -/

/-- At first no descriptor is on a file. -/
theorem faithful_nil (s : State) : Faithful (instances []) s := by
  constructor <;> intro d i n hd <;> cases hd

theorem Runs.faithful_iff {tr : List (Step State Event)} {s : State} (h : Runs tr s) :
    (∀ tr' s', tr' <+: tr → Runs tr' s' → Faithful (instances tr') s') ↔
      ∀ tr' st, tr' ++ [st] <+: tr → ¬ Reuses (instances tr') st := by
  refine h.forall_prefix_iff (fun tr s => Faithful (instances tr) s) (fun tr st => ¬ Reuses (instances tr) st)
    (fun mem => faithful_nil _) fun tr s e s' hr hf hn => ?_
  rw [instances_snoc]
  exact hn.faithful_iff (Reachable.invariant ⟨tr, hr⟩) hf

/-- Along a run every descriptor from `open_file` keeps to the file it was opened on until it is closed, if
and only if no creation of the run reuses an inode such a descriptor is on. -/
theorem Runs.keepsTo_iff {tr : List (Step State Event)} {s : State} (h : Runs tr s) :
    (∀ tr' s', tr' <+: tr → Runs tr' s' → ∀ d i n, (instances tr').taken d = some (i, n) →
      KeepsTo (instances tr') s' d i n) ↔ ∀ tr' st, tr' ++ [st] <+: tr → ¬ Reuses (instances tr') st := by
  rw [← h.faithful_iff]
  constructor
  · intro hall tr' s' hp hr
    -- By induction on the prefix: a step that reuses an inode leaves a descriptor that does not keep to its file.
    induction tr' using List.reverseRecOn generalizing s' with
    | nil => exact faithful_nil s'
    | append_singleton tr₁ st ih =>
      obtain ⟨hr₁, hn, rfl⟩ := hr.of_snoc
      have hi := Reachable.invariant ⟨tr₁, hr₁⟩
      have hf := ih _ ((List.prefix_append _ _).trans hp) hr₁
      rw [instances_snoc]
      apply (hn.faithful_iff hi hf).2
      intro hreuse
      obtain ⟨d, i, n, hd, hnot⟩ := hreuse.not_keepsTo hi hf hn
      rw [← instances_snoc tr₁ st] at hd hnot
      exact hnot (hall _ _ hp hr d i n hd)
  · intro hall tr' s' hp hr d i n hd
    exact (hall tr' s' hp hr).keepsTo (Reachable.invariant ⟨tr', hr⟩) hd

/-- A file is created, opened and deleted. -/
def deletedOpen : List Call := [.create_file (some rootName) (some nameA),
  .open_file (some pathA) (some 0), .delete_file (some pathA)]

/-- No creation comes after: the descriptor keeps to the file, that is, to none. -/
theorem keepsTo_deleted : KeepsTo (instances (runCalls deletedOpen).1) (afterCalls deletedOpen) slot0 entry1 1 := by
  have hlen : (runCalls deletedOpen).1.length = 3 := by decide +kernel
  -- In each state before a step, the entry that a creation would get is none that a slot is on.
  have hfree : ∀ k < 3, ∀ e, ∀ i n, ((instances ((runCalls deletedOpen).1.take k)).taken e) = some (i, n) →
      ((runCalls deletedOpen).1[k]?).map (·.pre.freeEntry) ≠ some (some i) := by
    have hall : ∀ k < 3, ∀ e, ((instances ((runCalls deletedOpen).1.take k)).taken e).map Prod.fst = none ∨
        some (((instances ((runCalls deletedOpen).1.take k)).taken e).map Prod.fst) ≠
          ((runCalls deletedOpen).1[k]?).map (·.pre.freeEntry) := by decide +kernel
    intro k hk e i n he hf
    have := hall k hk e
    rw [he, hf] at this
    simp at this
  refine (Runs.keepsTo_iff (runs_calls deletedOpen).1).2 ?_ _ _ (List.prefix_refl _) (runs_calls deletedOpen).1 _ _ _
    (by decide +kernel)
  rintro tr' st hp ⟨c, r, name, d, i, e, n, -, ⟨_, _, -, -, -, -, hf⟩, hd⟩
  have hk : tr'.length < 3 := by
    have := hp.length_le
    rw [hlen, List.length_append, List.length_singleton] at this
    omega
  have htake : (runCalls deletedOpen).1.take tr'.length = tr' := by
    obtain ⟨rest, hrest⟩ := hp
    rw [← hrest, List.append_assoc, List.take_left']
    rfl
  have hget : (runCalls deletedOpen).1[tr'.length]? = some st := by
    obtain ⟨rest, hrest⟩ := hp
    rw [← hrest]
    simp
  apply hfree _ hk e i n (by rw [htake]; exact hd)
  rw [hget, Option.map_some, hf]

/-- Another file is created, in the same inode. -/
def reusedOpen : List Call := deletedOpen ++ [.create_file (some rootName) (some nameB)]

/-- A write through the descriptor goes to that file. -/
theorem keepsTo_fails : ¬ ∀ tr s, Runs tr s → ∀ d i n, (instances tr).taken d = some (i, n) → KeepsTo (instances tr) s d i n := by
  intro hall
  have hkeep := hall _ _ (runs_calls reusedOpen).1 slot0 entry1 1 (by decide +kernel)
  have hf : (afterCalls reusedOpen).fileAt slot0 = some entry1 := by decide +kernel
  have huse : (Call.write_file (some 0) 1 1).Uses slot0 1 := Call.Uses.write_file (d := slot0)
  obtain ⟨v, hgone⟩ := hkeep.gone (by decide +kernel) _ _ huse
  obtain ⟨r, s', hacts, hact⟩ := exec_uses_acts (reachable_afterCalls _).invariant huse (by decide) hf
  rw [hgone, Except.ok.injEq, Prod.mk.injEq] at hacts
  obtain ⟨k, hk⟩ := hact.count
  rw [← hacts.1] at hk
  simp at hk

end ClbFilesystem
