import ClbFilesystem.Orderly
/-!
# Whole runs

What orderly runs come to, stated without the layout: the runs of the filesystem
and of the scheduler in them, where the addresses of processes lead, what another
task's steps leave alone, and what the data abort does.
-/

namespace ClbFilesystem

open Lib

/-! ## The data abort -/

/-- A data abort after which the process goes on. -/
def OsEvent.Served (e : OsEvent) : Prop := ∃ addr esr, e = .mem_abort addr esr 0

theorem do_mem_abort_iff {addr esr : Nat} {ind r ind' : Int} {k k' : Kernel} (h : do_mem_abort addr esr ind k = .ok (r, ind', k'))
    (hind : 1 ≤ ind) : (r = 0 ↔ TranslationFault esr ∧ (∃ i, k.mem_map i = 0) ∧ ind = 1) ∧
      (r = 0 ∧ ind' = 2 ∨ r = -1 ∧ (ind' = ind ∨ 2 ≤ ind ∧ ind' = ind + 1)) := by
  rcases do_mem_abort_spec h with ⟨hno, rfl, rfl, -⟩ | ⟨hfault, j, t, mm, hj, -, -, rfl, hr⟩
  · refine ⟨iff_of_false (by decide) ?_, .inr ⟨rfl, .inl rfl⟩⟩
    rintro ⟨hfault, ⟨i, hi⟩, -⟩
    rcases hno with hno | hall
    · exact hno hfault
    · exact hall i hi
  · by_cases hfirst : ind = 1
    · subst hfirst
      exact ⟨iff_of_true hr ⟨hfault, ⟨j, hj⟩, rfl⟩, .inl ⟨hr, rfl⟩⟩
    · have hr' : r = -1 := hr.trans (if_pos (by omega))
      refine ⟨iff_of_false (by omega) fun hc => hfirst hc.2.2, .inr ⟨hr', .inr ⟨by omega, rfl⟩⟩⟩

/-- `ind` is 1 until an abort is served. -/
theorem OsRuns.ind {tr : List (Step Os OsEvent)} {o : Os} (h : OsRuns tr o) :
    o.ind = 1 ∧ (∀ st ∈ tr, ¬ st.event.Served) ∨ 2 ≤ o.ind ∧ ∃ st ∈ tr, st.event.Served := by
  obtain ⟨mem, s₀, idmap_dir, -, hrun⟩ := h
  induction hrun with
  | nil => exact .inl ⟨rfl, by simp⟩
  | @snoc tr o e o' hrun hn ih =>
    have hkeep : o'.ind = o.ind → ¬ e.Served → o'.ind = 1 ∧ (∀ st ∈ tr ++ [⟨o, e, o'⟩], ¬ st.event.Served) ∨
        2 ≤ o'.ind ∧ ∃ st ∈ tr ++ [⟨o, e, o'⟩], st.event.Served := by
      intro hind he
      rw [hind]
      refine ih.imp (fun hnone => ⟨hnone.1, fun st hst => ?_⟩) fun ⟨hle, st, hst, hserved⟩ => ⟨hle, st, by simp [hst], hserved⟩
      rcases List.mem_append.1 hst with hst | hst
      · exact hnone.2 st hst
      · rw [List.mem_singleton.1 hst]
        exact he
    cases hn with
    | kernel | vfs | store | entry | stack | move_to_user_mode => exact hkeep rfl (by rintro ⟨_, _, heq⟩; cases heq)
    | @mem_abort addr esr r ind k hcall =>
      have hone : 1 ≤ o.ind := by omega
      rcases (do_mem_abort_iff hcall hone).2 with ⟨rfl, rfl⟩ | ⟨rfl, heq | ⟨hle, heq⟩⟩
      · exact .inr ⟨le_refl _, _, List.mem_append_right _ (List.mem_singleton_self _), addr, esr, rfl⟩
      · exact hkeep heq (by rintro ⟨_, _, heq⟩; cases heq)
      · have hserved : ∃ st ∈ tr, st.event.Served := by
          rcases ih with ⟨hind, -⟩ | ⟨-, hserved⟩
          · omega
          · exact hserved
        obtain ⟨st, hst, hs⟩ := hserved
        refine .inr ⟨?_, st, by simp [hst], hs⟩
        show 2 ≤ ind
        omega

/-- A page table of the task, on level `l` from the top, at a physical address. -/
inductive Os.Table (o : Os) (p : TaskPtr) : Nat → Nat → Prop
  | pgd : (o.mm_struct p).pgd ≠ 0 → Os.Table o p 0 (o.mm_struct p).pgd
  | next {l a b va : Nat} : Os.Table o p l a → l < 3 → descend o.mem a (PGD_SHIFT - l * TABLE_SHIFT) va = some b →
    Os.Table o p (l + 1) b

/-- The page is in use, neither for the content of a file nor for a task. -/
def Os.Separate (o : Os) (i : Fin PAGING_PAGES) : Prop :=
  o.mem_map i ≠ 0 ∧ FS_NPAGES ≤ i.val ∧ ∀ m, o.task m ≠ some (.page (pageAddr i))

/-- Addresses lead to memory of one process, at one address, and page tables are tables of one task, on one level;
none of these pages is used for anything else. -/
structure Os.Isolated (o : Os) : Prop where
  memory : ∀ p va a, o.physical p va = some a → ∃ i : Fin PAGING_PAGES, a = physAddr i + va % PAGE_SIZE ∧ o.Separate i ∧
    ∀ q l, ¬ o.Table q l (physAddr i)
  own : ∀ p q va va' a, o.physical p va = some a → o.physical q va' = some a → p = q ∧ va % 2 ^ 48 = va' % 2 ^ 48
  tables : ∀ p l a, o.Table p l a → ∃ i : Fin PAGING_PAGES, a = physAddr i ∧ o.Separate i
  table : ∀ p q l l' a, o.Table p l a → o.Table q l' a → p = q ∧ l = l'

section Isolated
variable {o : Os} {use : PageUse} {T : TaskPtr → Tables}

theorem Os.Laid.table (h : o.Laid use T) {p : TaskPtr} {l a : Nat} (ht : o.Table p l a) :
    l ≤ 3 ∧ ∃ n ∈ (T p).nodes, n.length = l ∧ a = physAddr ((T p).place n) := by
  have htree := h.kernel.uses.tree p
  induction ht with
  | pgd hpgd =>
    have hroot : [] ∈ (T p).nodes := by
      by_contra hno
      exact hpgd (htree.root.trans (if_neg hno))
    exact ⟨by omega, [], hroot, rfl, htree.root.trans (if_pos hroot)⟩
  | @next l a b va ht hl hdesc ih =>
    obtain ⟨-, n, hn, hlen, rfl⟩ := ih
    rw [htree.descend hn (by omega)] at hdesc
    obtain ⟨hmem, rfl⟩ := htree.of_nextTable hn (by omega) hdesc
    exact ⟨by omega, _, hmem, by simp [hlen], rfl⟩

/-- A page used by a process is no block and no task. -/
theorem Os.Laid.separate (h : o.Laid use T) {i : Fin PAGING_PAGES} {u : Use} (hu : use i = some u)
    (hblock : u ≠ .block) (htask : u ≠ .task) :
    o.Separate i := by
  refine ⟨h.kernel.uses.taken i (by rw [hu]; exact Option.some_ne_none _), ?_, fun m hm => ?_⟩
  · by_contra hlt
    rw [h.blocks i (by omega)] at hu
    exact hblock (Option.some.inj hu).symm
  · rw [h.kernel.tasks m i hm] at hu
    exact htask (Option.some.inj hu).symm

theorem Os.Laid.apart (h : o.Laid use T) : o.Isolated := by
  have huses := h.kernel.uses
  have hleaf : ∀ p va a, o.physical p va = some a →
      ∃ i : Fin PAGING_PAGES, a = physAddr i + va % PAGE_SIZE ∧ use i = some (.user p (tablePath va)) := by
    intro p va a ha
    rw [h.physical] at ha
    obtain ⟨i, hi, heq⟩ := Option.map_eq_some_iff.1 ha
    exact ⟨i, heq.symm, huses.user p _ i hi⟩
  have htable : ∀ p l a, o.Table p l a →
      ∃ i : Fin PAGING_PAGES, a = physAddr i ∧ ∃ n, n.length = l ∧ use i = some (.table p n) := by
    intro p l a ha
    obtain ⟨-, n, hn, hlen, heq⟩ := h.table ha
    exact ⟨_, heq, n, hlen, huses.table p n hn⟩
  refine ⟨fun p va a ha => ?_, fun p q va va' a ha ha' => ?_, fun p l a ha => ?_, fun p q l l' a ha ha' => ?_⟩
  · obtain ⟨i, heq, hu⟩ := hleaf p va a ha
    refine ⟨i, heq, h.separate hu (by rintro ⟨⟩) (by rintro ⟨⟩), fun q l hq => ?_⟩
    obtain ⟨j, hj, n, -, hu'⟩ := htable q l _ hq
    obtain rfl : i = j := Fin.ext (physAddr_inj hj)
    rw [hu] at hu'
    cases Option.some.inj hu'
  · obtain ⟨i, heq, hu⟩ := hleaf p va a ha
    obtain ⟨j, heq', hu'⟩ := hleaf q va' a ha'
    have hoff := offset_lt va
    have hoff' := offset_lt va'
    rw [PAGE_SIZE_eq] at *
    rw [physAddr_eq] at heq heq'
    obtain rfl : i = j := Fin.ext (by omega)
    rw [hu] at hu'
    obtain ⟨hpq, hpath⟩ := Use.user.inj (Option.some.inj hu')
    refine ⟨hpq, ?_⟩
    have hpage := (tablePath_eq_iff va va').1 hpath
    unfold pageNumber at hpage
    rw [PAGE_SIZE_eq] at hpage
    omega
  · obtain ⟨i, heq, n, -, hu⟩ := htable p l a ha
    exact ⟨i, heq, h.separate hu (by rintro ⟨⟩) (by rintro ⟨⟩)⟩
  · obtain ⟨i, heq, n, hn, hu⟩ := htable p l a ha
    obtain ⟨j, heq', n', hn', hu'⟩ := htable q l' a ha'
    obtain rfl : i = j := Fin.ext (physAddr_inj (heq.symm.trans heq'))
    rw [hu] at hu'
    obtain ⟨hpq, rfl⟩ := Use.table.inj (Option.some.inj hu')
    exact ⟨hpq, hn.symm.trans hn'⟩

end Isolated

theorem OsNext.slot {o o' : Os} {e : OsEvent} {q : TaskPtr} (h : o.Inv) (hn : OsNext o e o') (ho : Orderly ⟨o, e, o'⟩)
    (hq : ∃ i, o.task i = some q) : ∃ i, o'.task i = some q := by
  obtain ⟨i, hi⟩ := hq
  rcases (hn.sched ho h).slots with ⟨-, htask, -⟩ | ⟨j, p, hj, -, htask, -⟩
  · exact ⟨i, by rw [htask, hi]⟩
  · refine ⟨i, ?_⟩
    rw [htask, Function.update_of_ne, hi]
    rintro rfl
    have hlt := (h.tasks.filled i).1 (by rw [hi]; exact Option.some_ne_none _)
    omega

end ClbFilesystem
