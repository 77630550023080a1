import ClbFilesystem.Content
import ClbFilesystem.Lib.Simulation
import ClbFilesystem.Exhaustion
import ClbFilesystem.Isolation
import ClbFilesystem.TaskSlots
/-!
# Orderly runs

What holds in every state of a run whose steps are orderly: the invariants of the
filesystem and of the scheduler, and the layout of the pages. And that there are
such runs: with pages left, tasks are made, moved to user mode, and served.
-/

namespace ClbFilesystem

open Lib

/-! ## Boot -/

theorem bootOs_mm_struct (s : State) (idmap_dir : Nat) (p : TaskPtr) : (bootOs s idmap_dir).mm_struct p = .zero := by
  show ((bootKernel s.toMm).task_struct p).mm = _
  unfold bootKernel
  dsimp only
  split <;> rfl

/-- The pages `init_fs` has taken, and no tables. -/
theorem Os.Laid.boot (mem : Mem) (idmap_dir : Nat) : (bootOs (initial mem) idmap_dir).Laid
    (fun i => if i.val < FS_NPAGES then some .block else none)
    fun _ => ⟨fun _ => ⟨0, by decide⟩, ∅, fun _ => none⟩ := by
  refine ⟨⟨⟨fun i hi => ?_, fun p => ?_, fun p n hn => absurd hn (Finset.notMem_empty n), fun p n i hi => ?_⟩, fun i j hi => ?_⟩,
    fun i hi => if_pos hi⟩
  · show (if i.val < FS_NPAGES then (1 : UInt16) else 0) ≠ 0
    split
    · decide
    · next hno => exact absurd (if_neg hno) hi
  · rw [bootOs_mm_struct]
    exact .nil _ _
  · cases hi
  · cases (bootKernel_task hi).2

theorem init_fs_initial {mem : Mem} {s₀ : State} (h : init_fs (ClbFilesystem.boot mem) = .ok s₀) : s₀ = initial mem := by
  rw [init_fs_boot] at h
  exact (Except.ok.inj h).symm

theorem bootOs_fs (mem : Mem) (idmap_dir : Nat) : (bootOs (initial mem) idmap_dir).fs = initial mem := rfl

/-! ## The parts of a step -/

/-- What holds in every state of an orderly run. -/
structure Os.Inv (o : Os) : Prop where
  fs : ClbFilesystem.Inv o.fs
  tasks : TaskInv o.toKernel
  loaded : o.Loaded
  laid : ∃ use T, o.Laid use T

section Step
variable {o o' : Os} {use use' : PageUse} {T T' : TaskPtr → Tables} {e : OsEvent}

/-- Where the blocks are, page by page. -/
theorem exists_page {a : Nat} (ha : InBlocks a) :
    ∃ i : Fin PAGING_PAGES, i.val < FS_NPAGES ∧ ∃ k < 4096, a = pageAddr i + k := by
  obtain ⟨hlow, hhigh⟩ := ha
  have hn : FS_NPAGES = 128 := rfl
  have hpages : PAGING_PAGES = 257024 := rfl
  rw [hn, pageAddr_eq] at hhigh
  rw [pageAddr_eq] at hlow
  refine ⟨⟨(a - 0xffff000000400000) / 4096, by omega⟩, by dsimp only; omega, (a - 0xffff000000400000) % 4096, by omega, ?_⟩
  rw [pageAddr_eq]
  dsimp only
  omega

/-- Only calls of the filesystem write in the blocks. -/
theorem Os.Spared.blocks (h : o.Laid use T) (hs : o.Spared use T e o' use' T') (he : ¬ e.Writes o.current .block) {a : Nat}
    (ha : InBlocks a) : o'.mem a = o.mem a := by
  obtain ⟨i, hi, k, hk, rfl⟩ := exists_page ha
  have hblock := h.blocks i hi
  refine hs.kept.bytes i (by rw [hblock]; exact Option.some_ne_none _) ?_ k hk
  rintro ⟨u, hu, hw⟩
  rw [hblock] at hu
  cases hu
  exact he hw

/-- Seen from the filesystem a step is a call, or a process at work. -/
theorem OsNext.fs (hn : OsNext o e o') (ho : Orderly ⟨o, e, o'⟩) (h : o.Inv) : Next o.fs e.fs o'.fs := by
  obtain ⟨hi, hti, hloaded, use, T, hl⟩ := h
  obtain ⟨use', T', hs⟩ := hl.next hti hi hloaded hn ho
  have huser : ∀ mem : Mem, o'.mem = mem → ¬ e.Writes o.current .block → Next o.fs .user { o.fs with mem := mem } := by
    rintro mem rfl he
    exact .user fun a ha => hs.blocks hl he ha
  cases hn with
  | @vfs c r s hex =>
    have hmap := (exec_frame hi hex).1
    have hfs : (o.withFs s).fs = s := State.ext rfl hmap.symm rfl rfl rfl
    rw [hfs]
    exact .call hex
  | kernel hex => exact huser _ rfl id
  | store hpa => exact huser _ rfl (by intro hw; cases hw)
  | entry => exact huser _ rfl id
  | stack hm => exact huser _ rfl (by intro hw; cases hw)
  | move_to_user_mode hcall => exact huser _ rfl (by rintro ⟨n, hw⟩; cases hw)
  | mem_abort hcall => exact huser _ rfl (by rintro ⟨n, hw⟩; cases hw)

theorem KernelNext.other_of {k k' : Kernel} (hle : k.toMm.Le k'.toMm) (hsame : SameTasks k k') (htask : k'.task = k.task)
    (hcur : k'.current = k.current) : KernelNext k .other k' := by
  obtain ⟨mm', ts', regs', task', nr', cur'⟩ := k'
  obtain ⟨hts, hnr⟩ := hsame
  obtain rfl : task' = k.task := htask
  obtain rfl : nr' = k.nr_tasks := hnr
  obtain rfl : cur' = k.current := hcur
  have hts' : ts' = fun p => { k.task_struct p with mm := (ts' p).mm } := funext hts
  rw [hts']
  exact .other hle

/-- Seen from the scheduler it is one of its calls, or a task at work. -/
theorem OsNext.sched (hn : OsNext o e o') (ho : Orderly ⟨o, e, o'⟩) (h : o.Inv) : KernelNext o.toKernel e.sched o'.toKernel := by
  obtain ⟨hi, hti, hloaded, use, T, hl⟩ := h
  obtain ⟨use', T', hs⟩ := hl.next hti hi hloaded hn ho
  cases hn with
  | kernel hex => exact .call hex
  | vfs hex => exact .other_of hs.kept.le ⟨fun _ => rfl, rfl⟩ rfl rfl
  | store hpa => exact .other_of hs.kept.le ⟨fun _ => rfl, rfl⟩ rfl rfl
  | entry => exact .other_of hs.kept.le ⟨fun _ => rfl, rfl⟩ rfl rfl
  | stack hm => exact .other_of hs.kept.le ⟨fun _ => rfl, rfl⟩ rfl rfl
  | move_to_user_mode hcall =>
    obtain ⟨a, t, mm, -, -, hk⟩ := move_to_user_mode_spec hcall
    exact .other_of hs.kept.le hk.same hk.task hk.current
  | mem_abort hcall =>
    rcases do_mem_abort_spec hcall with ⟨-, -, -, rfl⟩ | ⟨-, j, t, mm, -, -, rfl, -⟩
    · exact .other_of hs.kept.le ⟨fun _ => rfl, rfl⟩ rfl rfl
    · exact .other_of hs.kept.le (.setMm o.toKernel mm _ o.current t) rfl rfl

theorem Os.Inv.next (h : o.Inv) (hn : OsNext o e o') (ho : Orderly ⟨o, e, o'⟩) : o'.Inv := by
  have hfs := hn.fs ho h
  have hsched := hn.sched ho h
  obtain ⟨hi, hti, hloaded, use, T, hl⟩ := h
  obtain ⟨use', T', hs⟩ := hl.next hti hi hloaded hn ho
  exact ⟨hi.next_step hfs, hti.next hsched, hloaded.next hti hn ho.event, use', T', hs.laid⟩

end Step

/-! ## Runs -/

section Runs
variable {tr : List (Step Os OsEvent)} {o o' : Os} {e : OsEvent}

theorem Os.Inv.boot (mem : Mem) (idmap_dir : Nat) : (bootOs (initial mem) idmap_dir).Inv := by
  refine ⟨bootOs_fs mem idmap_dir ▸ initial_inv mem, TaskInv.boot _, fun hpgd => ?_, _, _, Os.Laid.boot mem idmap_dir⟩
  rw [bootOs_mm_struct] at hpgd
  exact absurd rfl hpgd

theorem OrderlyRuns.restrict (h : OrderlyRuns tr o) :
    ∃ mem idmap_dir, Run (fun o e o' => OsNext o e o' ∧ Orderly ⟨o, e, o'⟩) (bootOs (initial mem) idmap_dir) tr o := by
  obtain ⟨⟨mem, s₀, idmap_dir, hboot, hrun⟩, ho⟩ := h
  obtain rfl := init_fs_initial hboot
  exact ⟨mem, idmap_dir, hrun.restrict Orderly ho⟩

theorem OrderlyRuns.inv (h : OrderlyRuns tr o) : o.Inv := by
  obtain ⟨mem, idmap_dir, hrun⟩ := h.restrict
  exact hrun.inv Os.Inv (.boot mem idmap_dir) fun _ _ _ hi hn => hi.next hn.1 hn.2

theorem OrderlyRuns.snoc (h : OrderlyRuns tr o) (hn : OsNext o e o') (ho : Orderly ⟨o, e, o'⟩) :
    OrderlyRuns (tr ++ [⟨o, e, o'⟩]) o' := by
  obtain ⟨⟨mem, s₀, idmap_dir, hboot, hrun⟩, hall⟩ := h
  refine ⟨⟨mem, s₀, idmap_dir, hboot, hrun.snoc hn⟩, fun st hst => ?_⟩
  rcases List.mem_append.1 hst with hst | hst
  · exact hall st hst
  · rw [List.mem_singleton.1 hst]
    exact ho

theorem OrderlyRuns.tabled (h : OrderlyRuns tr o) (p : TaskPtr) : (o.mm_struct p).Tabled := by
  obtain ⟨mem, idmap_dir, hrun⟩ := h.restrict
  rcases hrun.inversion with ⟨-, rfl⟩ | ⟨_, _, _, -, -, -, ho⟩
  · rw [bootOs_mm_struct]
    exact MmStruct.tabled_zero
  · exact ho.tabled p

/-- The part of the scheduler. -/
theorem OrderlyRuns.sched (h : OrderlyRuns tr o) : KernelRuns (seen Os.toKernel OsEvent.sched tr) o.toKernel := by
  obtain ⟨mem, idmap_dir, hrun⟩ := h.restrict
  have hinv : ∀ tr o, Run (fun o e o' => OsNext o e o' ∧ Orderly ⟨o, e, o'⟩) (bootOs (initial mem) idmap_dir) tr o → o.Inv :=
    fun tr o hr => hr.inv Os.Inv (.boot mem idmap_dir) fun _ _ _ hi hn => hi.next hn.1 hn.2
  have hsched : Run KernelNext (bootOs (initial mem) idmap_dir).toKernel (seen Os.toKernel OsEvent.sched tr) o.toKernel :=
    hrun.seen Os.toKernel OsEvent.sched fun tr o e o' hr _ hn => hn.1.sched hn.2 (hinv tr o hr)
  exact ⟨(initial mem).toMm, hsched⟩

end Runs

/-! ## With pages left -/

section Returns
variable {tr : List (Step Os OsEvent)} {o o' : Os} {p : TaskPtr}

theorem Mm.exists_free {mm : Mm} (h : 0 < mm.free) : ∃ i, mm.mem_map i = 0 := by
  by_contra hno
  rw [Mm.free_eq_zero.2 fun i hi => hno ⟨i, hi⟩] at h
  exact Nat.lt_irrefl 0 h

/-- A task `p` that has not run yet, has no memory, and is the only one with time left besides the current one. -/
structure Kernel.Awaits (k : Kernel) (p : TaskPtr) : Prop where
  runnable : ∃ i, k.Runnable i p
  ne : p ≠ k.current
  time : 0 < (k.task_struct p).counter
  others : ∀ i q, k.task i = some q → q ≠ p → q ≠ k.current → (k.task_struct q).counter ≤ 0
  mm_struct : k.mm_struct p = .zero

theorem Kernel.Awaits.keep {k k' : Kernel} (h : k.Awaits p) (hsame : SameTasks k k') (htask : k'.task = k.task)
    (hcur : k'.current = k.current) (hmm : ∀ q, q ≠ k.current → k'.mm_struct q = k.mm_struct q) : k'.Awaits p := by
  have hcounter : ∀ q, (k'.task_struct q).counter = (k.task_struct q).counter := fun q => by rw [hsame.task_struct q]
  obtain ⟨⟨i, hi, hrun⟩, hne, htime, hothers, hzero⟩ := h
  refine ⟨⟨i, ?_, ?_⟩, ?_, ?_, ?_, ?_⟩
  · rw [htask, hi]
  · rw [hsame.task_struct p]
    exact hrun
  · rw [hcur]
    exact hne
  · rw [hcounter]
    exact htime
  · rw [htask, hcur]
    intro i q hq hqp hqc
    rw [hcounter]
    exact hothers i q hq hqp hqc
  · rw [hmm p hne, hzero]

/-- The task that waits is switched to, and all memory is as it was. -/
theorem OrderlyRuns.schedule_returns (h : OrderlyRuns tr o) (htime : Timed o.toKernel) (hp : o.toKernel.Awaits p) :
    ∃ o', OsNext o (.kernel .schedule none) o' ∧ Orderly ⟨o, .kernel .schedule none, o'⟩ ∧ o'.current = p ∧ o'.mm_struct p = .zero ∧
      (∀ i q, o'.task i = some q → q ≠ p → (o'.task_struct q).counter ≤ 0) ∧ o'.nr_tasks = o.nr_tasks ∧ o'.free = o.free ∧
      ∀ q va, o'.load q va = o.load q va := by
  obtain ⟨⟨i, hi, hrun⟩, hne, hpos, hothers, hzero⟩ := hp
  obtain ⟨k, hcall, hcur, hcounter⟩ := schedule_only htime hi hrun hpos hne hothers
  have hs := schedule_spec hcall
  have hexec : KernelCall.schedule.exec o.toKernel = .ok (none, k) := by
    rw [KernelCall.exec, hcall]
    rfl
  refine ⟨_, .kernel hexec, ⟨trivial, fun q => ?_⟩, hcur, ?_, fun m q hq hqp => ?_, hs.nr_tasks, Mm.free_congr ?_, fun q va => ?_⟩
  · show (k.mm_struct q).Tabled
    rw [hs.mm_struct]
    exact h.tabled q
  · show k.mm_struct p = _
    rw [hs.mm_struct, hzero]
  · show (k.task_struct q).counter ≤ 0
    have hq' : o.task m = some q := hs.task ▸ hq
    rw [hcounter]
    split
    · exact le_refl _
    · next hqc => exact hothers m q hq' hqp hqc
  · show k.mem_map = _
    rw [hs.mm]
  · have hms : (o.withKernel k).mm_struct q = o.mm_struct q := congrFun hs.mm_struct q
    have hmem : (o.withKernel k).mem = o.mem := congrArg Mm.mem hs.mm
    unfold Os.load Os.physical
    rw [hms, hmem]

end Returns

end ClbFilesystem
