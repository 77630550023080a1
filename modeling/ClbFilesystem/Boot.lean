import ClbFilesystem.System
/-!
# The state `init_fs` leaves

`init_fs` at boot takes the first pages of the allocator one by one. The state
after `k` of its turns is given outright. Every run starts from the last one, so
the rules for whole runs are stated here.
-/

namespace ClbFilesystem

open Lib

/-- The name field of the root: `"/"`, then zeros. -/
def rootNameField : Vector UInt8 MAX_SIZE_NAME := (Vector.replicate MAX_SIZE_NAME 0).set 0 47 (by decide)

/-- Entry `i` after `init_fs`. -/
def initialInode (i : Fin FS_NPAGES) : Inode where
  id := i
  ref := 0
  type := if i = ROOT_INODE then .FOLDER else .EMPTY
  size := 0
  father := none
  brother := none
  first_son := none
  name := if i = ROOT_INODE then rootNameField else Vector.replicate _ 0
  data_block := pageAddr i

/-- The state after `k` turns of `init_fs`. -/
def bootStep (mem : Mem) (k : Nat) : State :=
  { boot mem with
    mem := fun a => if pageAddr 0 ≤ a ∧ a < pageAddr k then 0 else mem a
    mem_map := fun p => if p.val < k then 1 else 0
    RAM_inodes_table := fun i => if i.val < k then initialInode i else (boot mem).inode i }

/-- The state `init_fs` leaves at boot. -/
def initial (mem : Mem) : State := bootStep mem FS_NPAGES

theorem allocate_bootStep (mem : Mem) {k : Nat} (hk : k < FS_NPAGES) :
    allocate_kernel_page (bootStep mem k).toMm = (pageAddr k, (bootStep mem (k + 1)).toMm) := by
  have hkp : k < PAGING_PAGES := by rw [PAGING_PAGES_eq]; simp only [FS_NPAGES] at hk; omega
  rw [allocate_kernel_page_eq (bootStep mem k).toMm hkp (by simp [bootStep])
    fun j h hj => by simp [bootStep, hj]]
  refine Prod.ext rfl (Mm.ext ?_ ?_)
  · funext a
    have hlow : pageAddr 0 ≤ pageAddr k := by simp only [pageAddr_eq]; omega
    have hnext : pageAddr (k + 1) = pageAddr k + PAGE_SIZE := by simp only [pageAddr_eq, PAGE_SIZE_eq]; omega
    simp only [bootStep, hnext]
    generalize pageAddr k = p at *
    split_ifs <;> first | omega | rfl
  · funext p
    simp only [bootStep, Function.update_apply, Fin.ext_iff]
    split_ifs <;> first | rfl | omega

theorem setName_root (n : Inode) (hn : n.name = Vector.replicate _ 0) (hb : n.data_block = 0) :
    n.setName rootName = .ok { n with name := rootNameField } := by
  obtain ⟨id, ref, type, size, father, brother, first_son, name, data_block⟩ := n
  simp only at hn hb
  subst hn hb
  rw [Inode.setName, strcpy_eq rootName _ (by simp [rootName, MAX_SIZE_NAME])]
  simp only [Except.map, Inode.withRegion, Inode.nameRegion, Except.ok.injEq, Inode.mk.injEq, true_and]
  exact ⟨by decide, by decide⟩

/-- One turn of the loop of `init_fs`. -/
theorem init_inode_bootStep (mem : Mem) {k : Nat} (hk : k < FS_NPAGES) :
    init_inode (bootStep mem k) ⟨k, hk⟩ = .ok (bootStep mem (k + 1)) := by
  have htable : ∀ n, n = initialInode ⟨k, hk⟩ →
      Function.update (bootStep mem k).RAM_inodes_table ⟨k, hk⟩ n = (bootStep mem (k + 1)).RAM_inodes_table := by
    rintro n rfl
    funext i
    simp only [Function.update_apply, bootStep]
    by_cases hi : i = ⟨k, hk⟩
    · subst hi; simp
    · have : i.val ≠ k := fun h => hi (Fin.ext h)
      rw [if_neg hi]
      split_ifs <;> first | rfl | omega
  simp only [init_inode, allocate_bootStep mem hk]
  by_cases h0 : (⟨k, hk⟩ : Fin FS_NPAGES) = ROOT_INODE
  · have hname := setName_root ((bootStep mem k).inode ⟨k, hk⟩) (by simp [State.inode, bootStep, boot])
      (by simp [State.inode, bootStep, boot])
    simp only [State.inode] at hname
    simp only [h0, if_true, State.inode, bind, Except.bind, pure, Except.pure, State.modInode,
      Function.update_self, Function.update_idem]
    rw [← h0, hname]
    refine congrArg Except.ok (State.ext rfl rfl (htable _ ?_) rfl rfl)
    simp [initialInode, h0]
  · simp only [h0, if_false, bind, Except.bind, pure, Except.pure, State.modInode,
      Function.update_self, Function.update_idem]
    refine congrArg Except.ok (State.ext rfl rfl (htable _ ?_) rfl rfl)
    simp [initialInode, h0, bootStep, boot, State.inode]

theorem init_fs_from (mem : Mem) {k : Nat} (hk : k ≤ FS_NPAGES) :
    ((List.finRange FS_NPAGES).drop k).foldlM init_inode (bootStep mem k) = .ok (initial mem) := by
  induction hj : FS_NPAGES - k generalizing k with
  | zero =>
    obtain rfl : k = FS_NPAGES := by omega
    rw [List.drop_of_length_le (by simp)]
    rfl
  | succ j ih =>
    have hlt : k < FS_NPAGES := by omega
    rw [List.drop_eq_getElem_cons (by simpa using hlt), List.foldlM_cons]
    simp only [List.getElem_finRange, Fin.cast_mk, init_inode_bootStep mem hlt]
    exact ih (by omega) (by omega)

/-- Booting leaves the initial state: every call that follows starts from there. -/
theorem init_fs_boot (mem : Mem) : init_fs (boot mem) = .ok (initial mem) := by
  have h0 : bootStep mem 0 = boot mem := by
    refine State.ext (funext fun a => ?_) (funext fun p => ?_) (funext fun i => ?_) rfl rfl
    · exact if_neg (by omega)
    · simp [bootStep, boot]
    · simp [bootStep, State.inode]
  have h := init_fs_from mem (Nat.zero_le FS_NPAGES)
  rw [h0] at h
  simpa [init_fs] using h

theorem initial_inode (mem : Mem) (i : Fin FS_NPAGES) : (initial mem).inode i = initialInode i := by
  simp [initial, bootStep, State.inode]

theorem initial_slot (mem : Mem) (d : Fin MAX_OPEN_FILES) : (initial mem).slot d = ⟨none, 0, none⟩ := rfl

theorem runs_iff {tr : List (Step State Event)} {s : State} : Runs tr s ↔ ∃ mem, Run Next (initial mem) tr s := by
  constructor
  · rintro ⟨mem, s₀, hb, hr⟩
    rw [init_fs_boot, Except.ok.injEq] at hb
    exact ⟨mem, hb ▸ hr⟩
  · rintro ⟨mem, hr⟩
    exact ⟨mem, _, init_fs_boot mem, hr⟩

/-- A property that holds at boot holds in every state a run goes through if and only if its steps all meet
`K`, when a step keeps it exactly when it does. -/
theorem Runs.forall_prefix_iff {tr : List (Step State Event)} {s : State} (h : Runs tr s)
    (P : List (Step State Event) → State → Prop) (K : List (Step State Event) → Step State Event → Prop)
    (h₀ : ∀ mem, P [] (initial mem))
    (hstep : ∀ tr s e s', Runs tr s → P tr s → Next s e s' → (P (tr ++ [⟨s, e, s'⟩]) s' ↔ K tr ⟨s, e, s'⟩)) :
    (∀ tr' s', tr' <+: tr → Runs tr' s' → P tr' s') ↔ ∀ tr' st, tr' ++ [st] <+: tr → K tr' st := by
  obtain ⟨mem, hr⟩ := runs_iff.1 h
  rw [← Run.forall_prefix_iff (B := fun s₀ => ∃ mem, s₀ = initial mem) P K (by rintro _ ⟨mem, rfl⟩; exact h₀ mem)
    (by rintro tr _ s e s' ⟨mem, rfl⟩ hr; exact hstep tr s e s' (runs_iff.2 ⟨mem, hr⟩)) ⟨mem, rfl⟩ hr]
  constructor
  · rintro hall tr' _ s' hp ⟨mem, rfl⟩ hr
    exact hall tr' s' hp (runs_iff.2 ⟨mem, hr⟩)
  · intro hall tr' s' hp hr
    obtain ⟨mem, hr⟩ := runs_iff.1 hr
    exact hall tr' _ s' hp ⟨mem, rfl⟩ hr

/-- The same, for a property of states. -/
theorem Runs.forall_states_iff {tr : List (Step State Event)} {s : State} (h : Runs tr s) (P : State → Prop)
    (K : Step State Event → Prop) (h₀ : ∀ mem, P (initial mem))
    (hstep : ∀ s e s', Reachable s → P s → Next s e s' → (P s' ↔ K ⟨s, e, s'⟩)) :
    (∀ tr' s', tr' <+: tr → Runs tr' s' → P s') ↔ ∀ st ∈ tr, K st := by
  obtain ⟨mem, hr⟩ := runs_iff.1 h
  rw [← Run.forall_states_iff (B := fun s₀ => ∃ mem, s₀ = initial mem) P K (by rintro _ ⟨mem, rfl⟩; exact h₀ mem)
    (by rintro tr _ s e s' ⟨mem, rfl⟩ hr; exact hstep s e s' ⟨tr, runs_iff.2 ⟨mem, hr⟩⟩) ⟨mem, rfl⟩ hr]
  constructor
  · rintro hall tr' _ s' hp ⟨mem, rfl⟩ hr
    exact hall tr' s' hp (runs_iff.2 ⟨mem, hr⟩)
  · intro hall tr' s' hp hr
    obtain ⟨mem, hr⟩ := runs_iff.1 hr
    exact hall tr' _ s' hp ⟨mem, rfl⟩ hr

/-- The run that calls make from `s`; a call that does not return is left out. -/
def callsFrom (s : State) (cs : List Call) : List (Step State Event) × State :=
  cs.foldl (fun x c => match exec c x.2 with
    | .ok (r, s') => (x.1 ++ [⟨x.2, .call c r, s'⟩], s')
    | .error _ => x) ([], s)

/-- The run that calls make from boot, on a memory of zeros. -/
def runCalls (cs : List Call) : List (Step State Event) × State := callsFrom (initial fun _ => 0) cs

def afterCalls (cs : List Call) : State := (runCalls cs).2

/-- It is a run, of these calls. -/
theorem run_callsFrom (s : State) (cs : List Call) : Run Next s (callsFrom s cs).1 (callsFrom s cs).2 ∧
    ∀ st ∈ (callsFrom s cs).1, ∃ c ∈ cs, ∃ r, st.event = .call c r := by
  induction cs using List.reverseRecOn with
  | nil => exact ⟨.nil, by simp [callsFrom]⟩
  | append_singleton cs c ih =>
    have hlast : callsFrom s (cs ++ [c]) = match exec c (callsFrom s cs).2 with
        | .ok (r, s') => ((callsFrom s cs).1 ++ [⟨(callsFrom s cs).2, .call c r, s'⟩], s')
        | .error _ => callsFrom s cs := by
      unfold callsFrom
      rw [List.foldl_append, List.foldl_cons, List.foldl_nil]
    obtain ⟨hrun, hcalls⟩ := ih
    rw [hlast]
    cases hc : exec c (callsFrom s cs).2 with
    | error e => exact ⟨hrun, fun st hst => by
        obtain ⟨c', hc', hr⟩ := hcalls st hst
        exact ⟨c', by simp [hc'], hr⟩⟩
    | ok x =>
      refine ⟨hrun.snoc (.call hc), fun st hst => ?_⟩
      rcases List.mem_append.1 hst with hst | hst
      · obtain ⟨c', hc', hr⟩ := hcalls st hst
        exact ⟨c', by simp [hc'], hr⟩
      · obtain rfl := List.mem_singleton.1 hst
        exact ⟨c, by simp, x.1, rfl⟩

theorem runs_calls (cs : List Call) :
    Runs (runCalls cs).1 (afterCalls cs) ∧ ∀ st ∈ (runCalls cs).1, ∃ c ∈ cs, ∃ r, st.event = .call c r := by
  obtain ⟨hrun, hcalls⟩ := run_callsFrom (initial fun _ => 0) cs
  exact ⟨⟨_, _, init_fs_boot _, hrun⟩, hcalls⟩

/-- A call of the run is one of the calls. -/
theorem mem_callsFrom {s : State} {cs : List Call} {st : Step State Event} (hst : st ∈ (callsFrom s cs).1) {c : Call} {r : Reply}
    (he : st.event = .call c r) : c ∈ cs := by
  obtain ⟨c', hc', r', he'⟩ := (run_callsFrom s cs).2 st hst
  rw [he', Event.call.injEq] at he
  exact he.1 ▸ hc'

/-- One more call, from where the calls before it led. -/
theorem exec_callsFrom {s : State} {cs : List Call} {c : Call} {r : Reply}
    (h : (exec c (callsFrom s cs).2).toOption.map (·.1) = some r) :
    exec c (callsFrom s cs).2 = .ok (r, (callsFrom s (cs ++ [c])).2) := by
  have hlast : (callsFrom s (cs ++ [c])).2 = match exec c (callsFrom s cs).2 with
      | .ok (_, s') => s'
      | .error _ => (callsFrom s cs).2 := by
    unfold callsFrom
    rw [List.foldl_append, List.foldl_cons, List.foldl_nil]
    split <;> rfl
  rw [hlast]
  cases hx : exec c (callsFrom s cs).2 with
  | error e => rw [hx] at h; cases h
  | ok x =>
    rw [hx] at h
    obtain rfl := Option.some.inj h
    rfl

theorem exec_afterCalls {cs : List Call} {c : Call} {r : Reply} (h : (exec c (afterCalls cs)).toOption.map (·.1) = some r) :
    exec c (afterCalls cs) = .ok (r, afterCalls (cs ++ [c])) := exec_callsFrom h

theorem reachable_afterCalls (cs : List Call) : Reachable (afterCalls cs) := ⟨_, (runs_calls cs).1⟩

/-! ## Names for the runs shown in the modules below -/

/-- `"a"`. -/
def nameA : CStr := ⟨[97], by decide⟩
def nameB : CStr := ⟨[98], by decide⟩
def nameC : CStr := ⟨[99], by decide⟩

/-- `"a/b"`. -/
def nameAB : CStr := ⟨[97, 47, 98], by decide⟩

/-- `"/a"`. -/
def pathA : CStr := ⟨[47, 97], by decide⟩
def pathB : CStr := ⟨[47, 98], by decide⟩

/-- `"//"`. -/
def slashes : CStr := ⟨[47, 47], by decide⟩

/-- The first inodes to be given out, and the first slot. -/
def entry1 : Fin FS_NPAGES := ⟨1, by decide⟩
def entry2 : Fin FS_NPAGES := ⟨2, by decide⟩
def slot0 : Fin MAX_OPEN_FILES := ⟨0, by decide⟩

/-- A file `a`, open on the first slot. -/
def openedA : List Call := [.create_file (some rootName) (some nameA), .open_file (some pathA) (some 0)]

end ClbFilesystem
