import ClbFilesystem.Lib.Runs
import ClbFilesystem.PageTree
/-!
# Translations

Tasks get pages and map them, in any order. What the tables of a task then say of
an address is what the last `map_page` on that task for its page has asked. The
walk is that of `map_table`: four indices, and the descriptors without their
flags.
-/

namespace ClbFilesystem

open Lib

/-! ## The walk -/

/-- The table or page an entry leads to. -/
def nextTable (m : Mem) (table shift va : Nat) : Option Nat :=
  let entry := m.word (table + VA_START + 8 * tableIndex va shift)
  if entry = 0 then none else some (entry &&& PAGE_MASK)

/-- The page the tables under `pgd` have for an address. -/
def walkTables (m : Mem) (pgd va : Nat) : Option Nat :=
  if pgd = 0 then none
  else do
    let pud ← nextTable m pgd PGD_SHIFT va
    let pmd ← nextTable m pud PUD_SHIFT va
    let pte ← nextTable m pmd PMD_SHIFT va
    nextTable m pte PAGE_SHIFT va

theorem walkTables_eq (m : Mem) {pgd : Nat} (hpgd : pgd ≠ 0) (va : Nat) : walkTables m pgd va =
    (nextTable m pgd PGD_SHIFT va).bind fun pud => (nextTable m pud PUD_SHIFT va).bind fun pmd =>
    (nextTable m pmd PMD_SHIFT va).bind fun pte => nextTable m pte PAGE_SHIFT va := if_neg hpgd

/-- The page number of an address: of the 48 bits the indices are taken from. -/
def pageNumber (va : Nat) : Nat := va % 2 ^ 48 / PAGE_SIZE

theorem tablePath_eq_iff (va va' : Nat) : tablePath va = tablePath va' ↔ pageNumber va = pageNumber va' := by
  simp only [tablePath, entryIndex, tableIndex_eq, pageNumber, PAGE_SIZE_eq, List.cons.injEq, Fin.mk.injEq, and_true,
    show PGD_SHIFT = 39 from rfl, show PUD_SHIFT = 30 from rfl, show PMD_SHIFT = 21 from rfl, show PAGE_SHIFT = 12 from rfl]
  omega

section Walk
variable {mm : Mm} {pgd : Nat} {place : List (Fin 512) → Fin PAGING_PAGES} {N : Finset (List (Fin 512))}
  {leaf : List (Fin 512) → Option (Fin PAGING_PAGES)} {n : List (Fin 512)}

theorem nextTable_eq (mm : Mm) (i : Fin PAGING_PAGES) (shift va : Nat) : nextTable mm.mem (physAddr i) shift va =
    if mm.entry i (tableIndex va shift) = 0 then none else some (mm.entry i (tableIndex va shift) &&& PAGE_MASK) := by
  unfold nextTable Mm.entry
  rw [physAddr_add]

theorem PageTree.nextTable (h : PageTree mm pgd place N leaf) (hn : n ∈ N) (hlen : n.length < 3) (shift va : Nat) :
    ClbFilesystem.nextTable mm.mem (physAddr (place n)) shift va =
      if n ++ [entryIndex va shift] ∈ N then some (physAddr (place (n ++ [entryIndex va shift]))) else none := by
  have hedge : mm.entry (place n) (tableIndex va shift) =
      if n ++ [entryIndex va shift] ∈ N then enc n.length (place (n ++ [entryIndex va shift])) else 0 :=
    h.stored.edge n hn hlen (entryIndex va shift)
  rw [nextTable_eq, hedge]
  split
  · rw [if_neg (enc_ne_zero _ _), enc_page]
  · rfl

theorem PageTree.lastTable (h : PageTree mm pgd place N leaf) (hn : n ∈ N) (hlen : n.length = 3) (shift va : Nat) :
    ClbFilesystem.nextTable mm.mem (physAddr (place n)) shift va = (leaf (n ++ [entryIndex va shift])).map (physAddr ·) := by
  have hleaf : mm.entry (place n) (tableIndex va shift) = (leaf (n ++ [entryIndex va shift])).elim 0 (enc 3) :=
    h.leaves n hn hlen (entryIndex va shift)
  rw [nextTable_eq, hleaf]
  cases leaf (n ++ [entryIndex va shift]) with
  | none => rfl
  | some d => exact (if_neg (enc_ne_zero 3 d)).trans (congrArg some (enc_page 3 d))

/-- The walk finds the leaf. -/
theorem PageTree.walk (h : PageTree mm pgd place N leaf) (va : Nat) :
    walkTables mm.mem pgd va = (leaf (tablePath va)).map (physAddr ·) := by
  obtain ⟨n₁, hn₁⟩ : ∃ n, n = [] ++ [entryIndex va PGD_SHIFT] := ⟨_, rfl⟩
  obtain ⟨n₂, hn₂⟩ : ∃ n, n = n₁ ++ [entryIndex va PUD_SHIFT] := ⟨_, rfl⟩
  obtain ⟨n₃, hn₃⟩ : ∃ n, n = n₂ ++ [entryIndex va PMD_SHIFT] := ⟨_, rfl⟩
  have hpath : tablePath va = n₃ ++ [entryIndex va PAGE_SHIFT] := by rw [hn₃, hn₂, hn₁]; rfl
  -- Without the table on the last level there is no leaf.
  have hmissing : n₃ ∉ N → (leaf (tablePath va)).map (physAddr ·) = none := by
    intro hn
    rw [hpath, h.bare n₃ hn]
    rfl
  have h₂₃ : n₃ ∈ N → n₂ ∈ N := fun hn => h.stored.closed n₂ _ (hn₃ ▸ hn)
  have h₁₂ : n₂ ∈ N → n₁ ∈ N := fun hn => h.stored.closed n₁ _ (hn₂ ▸ hn)
  have h₀₁ : n₁ ∈ N → [] ∈ N := fun hn => h.stored.closed [] _ (hn₁ ▸ hn)
  by_cases hroot : [] ∈ N
  swap
  · rw [h.root, if_neg hroot, hmissing fun hn => hroot (h₀₁ (h₁₂ (h₂₃ hn)))]
    rfl
  rw [h.root, if_pos hroot, walkTables_eq _ (physAddr_pos _).ne', h.nextTable hroot (by simp), ← hn₁]
  by_cases hmem₁ : n₁ ∈ N
  swap
  · rw [if_neg hmem₁, Option.bind_none, hmissing fun hn => hmem₁ (h₁₂ (h₂₃ hn))]
  rw [if_pos hmem₁, Option.bind_some, h.nextTable hmem₁ (by simp [hn₁]), ← hn₂]
  by_cases hmem₂ : n₂ ∈ N
  swap
  · rw [if_neg hmem₂, Option.bind_none, hmissing fun hn => hmem₂ (h₂₃ hn)]
  rw [if_pos hmem₂, Option.bind_some, h.nextTable hmem₂ (by simp [hn₂, hn₁]), ← hn₃]
  by_cases hmem₃ : n₃ ∈ N
  swap
  · rw [if_neg hmem₃, Option.bind_none, hmissing hmem₃]
  rw [if_pos hmem₃, Option.bind_some, h.lastTable hmem₃ (by simp [hn₃, hn₂, hn₁]), ← hpath]

end Walk

/-! ## Runs -/

/-- What the page allocator and the tables work on, and the pages `get_free_page` has handed to its callers. -/
structure Vm extends Mm where
  mm_struct : TaskPtr → MmStruct
  handed : Set Nat

/-- No task has a table yet; any pages may be taken. -/
def bootVm (mm : Mm) : Vm where
  toMm := mm
  mm_struct _ := .zero
  handed := ∅

inductive VmEvent where
  | get (page : Nat)
  | map (p : TaskPtr) (va page : Nat)
  /-- Memory is written, but for the pages of the allocator that no caller has. -/
  | other

inductive VmNext : Vm → VmEvent → Vm → Prop
  | get {v : Vm} {page : Nat} {mm : Mm} : get_free_page v.toMm = (page, mm) → page ≠ 0 →
    VmNext v (.get page) { v with toMm := mm, handed := insert page v.handed }
  | map {v : Vm} {p : TaskPtr} {va page : Nat} {t : MmStruct} {mm : Mm} : page ∈ v.handed →
    map_page (v.mm_struct p) va page v.toMm = .ok (t, mm) → t.Tabled →
    VmNext v (.map p va page) { v with toMm := mm, mm_struct := Function.update v.mm_struct p t }
  | other {v : Vm} {m : Mem} : (∀ i : Fin PAGING_PAGES, physAddr i ∉ v.handed → ∀ o < PAGE_SIZE,
      m (pageAddr i + o) = v.mem (pageAddr i + o)) →
    VmNext v .other { v with mem := m }

/-- A run of the callers of the allocator and of `map_page` in which no table allocation fails. -/
def VmRuns (tr : List (Step Vm VmEvent)) (v : Vm) : Prop := ∃ mm, Run VmNext (bootVm mm) tr v

/-- The page the tables of a task have for an address. -/
def Vm.walk (v : Vm) (p : TaskPtr) (va : Nat) : Option Nat := walkTables v.mem (v.mm_struct p).pgd va

/-- The page a step maps at the page of an address of a task. -/
def mappedTo (p : TaskPtr) (va : Nat) : VmEvent → Option Nat
  | .map q va' page => if q = p ∧ pageNumber va' = pageNumber va then some page else none
  | _ => none

/-- The page of the last `map_page` on the task for an address with this page number. -/
def lastPage (p : TaskPtr) (va : Nat) (tr : List (Step Vm VmEvent)) : Option Nat :=
  (tr.filterMap fun st => mappedTo p va st.event).getLast?

/-- The tables of all tasks are in different pages, and no caller has one of these. -/
structure TaskTables (v : Vm) (place : TaskPtr → List (Fin 512) → Fin PAGING_PAGES) (N : TaskPtr → Finset (List (Fin 512)))
    (leaf : TaskPtr → List (Fin 512) → Option (Fin PAGING_PAGES)) : Prop where
  tree : ∀ p, PageTree v.toMm (v.mm_struct p).pgd (place p) (N p) (leaf p)
  apart : ∀ p q, p ≠ q → ∀ m ∈ N p, ∀ n ∈ N q, place p m ≠ place q n
  handed : ∀ page ∈ v.handed, ∃ i : Fin PAGING_PAGES, page = physAddr i ∧ v.mem_map i ≠ 0
  closed : ∀ p, ∀ n ∈ N p, physAddr (place p n) ∉ v.handed

section TaskTables
variable {v v' : Vm} {place : TaskPtr → List (Fin 512) → Fin PAGING_PAGES} {N : TaskPtr → Finset (List (Fin 512))}
  {leaf : TaskPtr → List (Fin 512) → Option (Fin PAGING_PAGES)}

theorem TaskTables.boot (mm : Mm) (place : TaskPtr → List (Fin 512) → Fin PAGING_PAGES) :
    TaskTables (bootVm mm) place (fun _ => ∅) fun _ _ => none :=
  ⟨fun p => .nil mm (place p), by simp, by simp [bootVm], by simp⟩

theorem TaskTables.walk_eq (h : TaskTables v place N leaf) (p : TaskPtr) (va : Nat) :
    v.walk p va = (leaf p (tablePath va)).map (physAddr ·) := (h.tree p).walk va

/-- A page is handed out: it is no table. -/
theorem TaskTables.get (h : TaskTables v place N leaf) {page : Nat} {mm : Mm} (hget : get_free_page v.toMm = (page, mm))
    (hpage : page ≠ 0) :
    TaskTables { v with toMm := mm, handed := insert page v.handed } place N leaf := by
  rcases get_free_page_cases v.toMm with ⟨j, hj, hget'⟩ | ⟨-, hget'⟩
  · rw [hget'] at hget
    cases hget
    refine ⟨fun p => (h.tree p).take hj, h.apart, fun page hp => ?_, fun p n hn hp => ?_⟩
    · rcases hp with rfl | hp
      · exact ⟨j, rfl, Mm.take_used _ j⟩
      · obtain ⟨i, hi, hused⟩ := h.handed page hp
        exact ⟨i, hi, Mm.le_take _ j i hused⟩
    · rcases hp with heq | hp
      · exact (h.tree p).place_ne hj n hn (Fin.ext (physAddr_inj heq))
      · exact h.closed p n hn hp
  · rw [hget'] at hget
    cases hget
    exact absurd rfl hpage

/-- Only pages handed out are written, or other memory. -/
theorem TaskTables.other (h : TaskTables v place N leaf) {m : Mem} (hm : ∀ i : Fin PAGING_PAGES, physAddr i ∉ v.handed →
    ∀ o < PAGE_SIZE, m (pageAddr i + o) = v.mem (pageAddr i + o)) : TaskTables { v with mem := m } place N leaf :=
  ⟨fun p => (h.tree p).keep (fun _ hi => hi) fun n hn o ho => hm (place p n) (h.closed p n hn) o ho, h.apart, h.handed, h.closed⟩

/-- A page is mapped: the new tables are in pages that were free, those of other tasks are left alone. -/
theorem TaskTables.map (h : TaskTables v place N leaf) {p : TaskPtr} {va page : Nat} {t : MmStruct} {mm : Mm} (hpage : page ∈ v.handed)
    (hmap : map_page (v.mm_struct p) va page v.toMm = .ok (t, mm)) (htabled : t.Tabled) :
    ∃ place' N', ∃ d : Fin PAGING_PAGES, page = physAddr d ∧
      TaskTables { v with toMm := mm, mm_struct := Function.update v.mm_struct p t } (Function.update place p place')
        (Function.update N p N') (Function.update leaf p (Function.update (leaf p) (tablePath va) (some d))) := by
  obtain ⟨d, rfl, -⟩ := h.handed page hpage
  obtain ⟨t', mm', hmap', hcases⟩ := (h.tree p).map_page (map_page_count hmap) va d
  rw [hmap'] at hmap
  cases hmap
  obtain ⟨place', N', htree, hgrown, -⟩ := hcases.resolve_right fun hno => hno.2 htabled
  have hout : ∀ q, q ≠ p → ∀ n ∈ N q, ∀ m ∈ N p, place p m ≠ place q n := fun q hq n hn m hm => h.apart p q (Ne.symm hq) m hm n hn
  have hnew : ∀ q, q ≠ p → ∀ n ∈ N q, ∀ m ∈ N', place' m ≠ place q n := by
    intro q hq n hn m hm
    rcases hgrown.places m hm with ⟨hm, heq⟩ | hfree
    · rw [heq]
      exact hout q hq n hn m hm
    · intro heq
      rw [heq] at hfree
      exact (h.tree q).used n hn hfree
  refine ⟨place', N', d, rfl, fun q => ?_, fun q r hqr m hm n hn => ?_, fun page hp => ?_, fun q n hn => ?_⟩
  · show PageTree mm (Function.update v.mm_struct p t q).pgd _ _ _
    simp only [Function.update_apply]
    split
    · exact htree
    · next hq => exact (h.tree q).keep hgrown.le fun n hn => hgrown.kept _ ((h.tree q).used n hn) (hout q hq n hn)
  · simp only [Function.update_apply] at hm hn ⊢
    split at hm
    · next hq =>
      have hr : r ≠ p := fun hr => hqr (hq.trans hr.symm)
      rw [if_neg hr] at hn
      rw [if_pos hq, if_neg hr]
      exact hnew r hr n hn m hm
    · next hq =>
      rw [if_neg hq]
      split at hn
      · next hr =>
        rw [if_pos hr]
        exact (hnew q hq m hm n hn).symm
      · next hr =>
        rw [if_neg hr]
        exact h.apart q r hqr m hm n hn
  · obtain ⟨i, hi, hused⟩ := h.handed page hp
    exact ⟨i, hi, hgrown.le i hused⟩
  · simp only [Function.update_apply] at hn ⊢
    split at hn
    · next hq =>
      rw [if_pos hq]
      rcases hgrown.places n hn with ⟨hn, heq⟩ | hfree
      · rw [heq]
        exact h.closed p n hn
      · -- A page a caller has was not free.
        intro hp
        obtain ⟨i, hi, hused⟩ := h.handed _ hp
        rw [Fin.ext (physAddr_inj hi)] at hfree
        exact hused hfree
    · next hq =>
      rw [if_neg hq]
      exact h.closed q n hn

/-- A step keeps the tables apart, and changes what the tables say where it has mapped a page. -/
theorem TaskTables.next (h : TaskTables v place N leaf) {e : VmEvent} (hn : VmNext v e v') :
    (∃ place' N' leaf', TaskTables v' place' N' leaf') ∧ ∀ p va, v'.walk p va = (mappedTo p va e).or (v.walk p va) := by
  cases hn with
  | get hget hpage =>
    have h' := h.get hget hpage
    refine ⟨⟨_, _, _, h'⟩, fun p va => ?_⟩
    rw [h'.walk_eq, h.walk_eq]
    rfl
  | other hm =>
    have h' := h.other hm
    refine ⟨⟨_, _, _, h'⟩, fun p va => ?_⟩
    rw [h'.walk_eq, h.walk_eq]
    rfl
  | @map p va page t mm hpage hmap htabled =>
    obtain ⟨place', N', d, rfl, h'⟩ := h.map hpage hmap htabled
    refine ⟨⟨_, _, _, h'⟩, fun q va' => ?_⟩
    rw [h'.walk_eq, h.walk_eq]
    show _ = (if p = q ∧ pageNumber va = pageNumber va' then some (physAddr d) else none).or _
    by_cases hq : q = p
    · subst hq
      rw [Function.update_self]
      by_cases hva : pageNumber va = pageNumber va'
      · rw [if_pos ⟨rfl, hva⟩, (tablePath_eq_iff va va').2 hva, Function.update_self]
        rfl
      · rw [if_neg fun hp => hva hp.2, Function.update_of_ne fun hpath => hva ((tablePath_eq_iff va va').1 hpath.symm)]
        rfl
    · rw [Function.update_of_ne hq, if_neg fun hp => hq hp.1.symm]
      rfl

end TaskTables

theorem lastPage_snoc (p : TaskPtr) (va : Nat) (tr : List (Step Vm VmEvent)) (st : Step Vm VmEvent) :
    lastPage p va (tr ++ [st]) = (mappedTo p va st.event).or (lastPage p va tr) := by
  unfold lastPage
  rw [List.filterMap_append]
  cases hmapped : mappedTo p va st.event with
  | none => simp [hmapped]
  | some page => simp [hmapped]

theorem VmRuns.taskTables {tr : List (Step Vm VmEvent)} {v : Vm} (h : VmRuns tr v) : ∃ place N leaf, TaskTables v place N leaf := by
  obtain ⟨mm, hrun⟩ := h
  refine hrun.inv (fun v => ∃ place N leaf, TaskTables v place N leaf) ⟨_, _, _, .boot mm fun _ _ => ⟨0, by decide⟩⟩ ?_
  rintro v e v' ⟨place, N, leaf, hf⟩ hn
  exact (hf.next hn).1

theorem VmRuns.walk_eq {tr : List (Step Vm VmEvent)} {v : Vm} (h : VmRuns tr v) (p : TaskPtr) (va : Nat) :
    v.walk p va = lastPage p va tr := by
  obtain ⟨mm, hrun⟩ := h
  induction hrun with
  | nil => rfl
  | snoc hrun hn ih =>
    obtain ⟨place, N, leaf, hf⟩ := VmRuns.taskTables ⟨mm, hrun⟩
    rw [(hf.next hn).2, lastPage_snoc, ih]

theorem VmRuns.tabled {tr : List (Step Vm VmEvent)} {v : Vm} (h : VmRuns tr v) (p : TaskPtr) : (v.mm_struct p).Tabled := by
  obtain ⟨mm, hrun⟩ := h
  refine hrun.inv (fun v => (v.mm_struct p).Tabled) MmStruct.tabled_zero ?_
  intro v e v' ht hn
  cases hn with
  | get | other => exact ht
  | @map q va page t mm hpage hmap htabled =>
    show (Function.update v.mm_struct q t p).Tabled
    rw [Function.update_apply]
    split
    · exact htabled
    · exact ht

/-- A call returns as long as the task has room for the page and its tables find pages. -/
theorem VmRuns.map_next {tr : List (Step Vm VmEvent)} {v : Vm} (h : VmRuns tr v) {p : TaskPtr} {page : Nat}
    (hpage : page ∈ v.handed) (hcount : (v.mm_struct p).user_pages_count < MAX_PROCESS_PAGES) (hfree : 4 ≤ v.free) (va : Nat) :
    ∃ v', VmNext v (.map p va page) v' := by
  obtain ⟨place, N, leaf, hf⟩ := h.taskTables
  obtain ⟨d, rfl, -⟩ := hf.handed page hpage
  obtain ⟨t, mm, hmap, ⟨_, _, -, -, htabled, -⟩ | ⟨hlt, -⟩⟩ := (hf.tree p).map_page hcount va d
  · exact ⟨_, .map hpage hmap (htabled (h.tabled p))⟩
  · exact absurd hfree (Nat.not_le.2 hlt)

/-- After every run the tables of every task lead every address to the page of the last `map_page` on that task for its
page number, and to none if there was none; and no such call changes what the tables say of another task or page. -/
theorem VmRuns.translates {tr : List (Step Vm VmEvent)} {v : Vm} (h : VmRuns tr v) :
    (∀ p va, v.walk p va = lastPage p va tr) ∧
    ∀ st ∈ tr, ∀ p va page, st.event = .map p va page → ∀ q va', q ≠ p ∨ pageNumber va' ≠ pageNumber va →
      st.post.walk q va' = st.pre.walk q va' := by
  refine ⟨h.walk_eq, fun st hst p va page hevent q va' hne => ?_⟩
  obtain ⟨mm, hrun⟩ := h
  obtain ⟨tr', hpre, hn⟩ := hrun.of_mem st hst
  obtain ⟨place, N, leaf, hf⟩ := VmRuns.taskTables ⟨mm, hpre⟩
  have hother : mappedTo q va' st.event = none := by
    rw [hevent]
    refine if_neg ?_
    rintro ⟨rfl, hva⟩
    exact hne.elim (fun hq => hq rfl) fun hpage => hpage hva.symm
  rw [(hf.next hn).2, hother]
  rfl

/-- One page, mapped at 0. -/
theorem translates_one : ∃ tr v page, VmRuns tr v ∧ v.walk .init_task 0 = some page ∧ v.walk .init_task PAGE_SIZE = none := by
  obtain ⟨mm, hmap, hfree⟩ := Mm.exists_taken 0 (Nat.zero_le _)
  have hpages : PAGING_PAGES = 257024 := rfl
  rcases get_free_page_cases mm with ⟨j, hj, hget⟩ | ⟨hall, -⟩
  swap
  · exact absurd ((hmap ⟨0, by decide⟩).1 (hall _)) (Nat.not_lt_zero _)
  have hrun : Run VmNext (bootVm mm) _ _ := Run.nil.snoc (.get hget (physAddr_pos j).ne')
  have hleft : 4 ≤ (mm.take j).free := by
    have := Mm.free_take hj
    omega
  have hcount : MmStruct.zero.user_pages_count < MAX_PROCESS_PAGES := by decide
  obtain ⟨v, hn⟩ := VmRuns.map_next ⟨mm, hrun⟩ (p := .init_task) (Set.mem_insert _ _) hcount hleft 0
  have hwalk := (VmRuns.translates ⟨mm, hrun.snoc hn⟩).1
  refine ⟨_, v, physAddr j, ⟨mm, hrun.snoc hn⟩, ?_, ?_⟩
  · rw [hwalk, lastPage_snoc]
    rfl
  · rw [hwalk, lastPage_snoc]
    rfl

end ClbFilesystem
