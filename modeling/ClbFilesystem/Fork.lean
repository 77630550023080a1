import ClbFilesystem.AddressSpace
import ClbFilesystem.Select
/-!
# Forks of user tasks

A fork takes a page for the task, one for each user page, and one for each table
on the way to them. With so many free the child gets a copy of every page; with
fewer it is published without some. And it starts on zeroed registers, whatever
those of the parent: they are copied the wrong way.
-/

namespace ClbFilesystem

open Lib

/-! ## The pages of a task -/

/-- What a task has mapped: pages of its own, through tables of its own. -/
structure UserSpace (mm : Mm) (t : MmStruct) : Prop where
  count : t.user_pages_count ≤ MAX_PROCESS_PAGES
  aligned : ∀ i : Fin MAX_PROCESS_PAGES, i.val < t.user_pages_count → (t.user_pages i).virt_addr % 4096 = 0
  bounded : ∀ i : Fin MAX_PROCESS_PAGES, i.val < t.user_pages_count → (t.user_pages i).virt_addr < 2 ^ 48
  distinct : ∀ i j : Fin MAX_PROCESS_PAGES, i.val < t.user_pages_count → j.val < t.user_pages_count →
    (t.user_pages i).virt_addr = (t.user_pages j).virt_addr → i = j
  mapped : ∀ i : Fin MAX_PROCESS_PAGES, i.val < t.user_pages_count → ∃ d, Mapped mm t.pgd (t.user_pages i).virt_addr d

/-- The paths of the first `n` pages. -/
def pathsTo (t : MmStruct) (n : Nat) : List (List (Fin 512)) :=
  ((List.finRange MAX_PROCESS_PAGES).take n).map fun i => tablePath (t.user_pages i).virt_addr

/-- The pages a copy needs, tables and user pages. -/
def needed (t : MmStruct) : Nat := (spanned (pathsTo t t.user_pages_count)).card

/-- Without the tables that only the last user page needs. -/
def neededFirst (t : MmStruct) : Nat := (spanned (pathsTo t (t.user_pages_count - 1))).card + min t.user_pages_count 1

section Paths
variable {t : MmStruct} {n : Nat} {p : List (Fin 512)}

theorem mem_pathsTo : p ∈ pathsTo t n ↔ ∃ i : Fin MAX_PROCESS_PAGES, i.val < n ∧ p = tablePath (t.user_pages i).virt_addr := by
  simp only [pathsTo, List.mem_map, List.mem_take_iff_getElem, List.length_finRange, List.getElem_finRange]
  constructor
  · rintro ⟨i, ⟨m, hm, rfl⟩, rfl⟩
    exact ⟨_, by simp; omega, rfl⟩
  · rintro ⟨i, hi, rfl⟩
    exact ⟨i, ⟨i.val, by have := i.isLt; omega, by simp⟩, rfl⟩

theorem pathsTo_succ {i : Fin MAX_PROCESS_PAGES} : pathsTo t (i.val + 1) = pathsTo t i.val ++ [tablePath (t.user_pages i).virt_addr] := by
  unfold pathsTo
  rw [List.take_succ_eq_append_getElem (by simp), List.map_append]
  simp

theorem length_of_mem_pathsTo (h : p ∈ pathsTo t n) : p.length = 4 := by
  obtain ⟨i, -, rfl⟩ := mem_pathsTo.1 h
  rfl

/-- Two page addresses with the same indices are the same. -/
theorem tablePath_inj {va va' : Nat} (ha : va % 4096 = 0) (hb : va < 2 ^ 48) (ha' : va' % 4096 = 0) (hb' : va' < 2 ^ 48)
    (h : tablePath va = tablePath va') : va = va' := by
  simp only [tablePath, List.cons.injEq, entryIndex, Fin.mk.injEq, tableIndex_eq, and_true] at h
  obtain ⟨h₁, h₂, h₃, h₄⟩ := h
  have e₁ : 2 ^ PGD_SHIFT = 549755813888 := by decide
  have e₂ : 2 ^ PUD_SHIFT = 1073741824 := by decide
  have e₃ : 2 ^ PMD_SHIFT = 2097152 := by decide
  have e₄ : 2 ^ PAGE_SHIFT = 4096 := by decide
  rw [e₁] at h₁
  rw [e₂] at h₂
  rw [e₃] at h₃
  rw [e₄] at h₄
  omega

end Paths

theorem UserSpace.path_inj {mm : Mm} {t : MmStruct} (h : UserSpace mm t) {i j : Fin MAX_PROCESS_PAGES}
    (hi : i.val < t.user_pages_count) (hj : j.val < t.user_pages_count)
    (heq : tablePath (t.user_pages i).virt_addr = tablePath (t.user_pages j).virt_addr) : i = j :=
  h.distinct i j hi hj (tablePath_inj (h.aligned i hi) (h.bounded i hi) (h.aligned j hj) (h.bounded j hj) heq)

/-- The path of a page is none of those before it. -/
theorem UserSpace.path_new {mm : Mm} {t : MmStruct} (h : UserSpace mm t) {i : Fin MAX_PROCESS_PAGES}
    (hi : i.val < t.user_pages_count) : tablePath (t.user_pages i).virt_addr ∉ spanned (pathsTo t i.val) := by
  intro hmem
  obtain ⟨k, hk, heq⟩ := mem_pathsTo.1 (mem_of_mem_spanned (fun p => length_of_mem_pathsTo) hmem rfl)
  have := h.path_inj hi (by omega) heq
  omega

theorem UserSpace.neededFirst_le {mm : Mm} {t : MmStruct} (h : UserSpace mm t) : neededFirst t ≤ needed t := by
  unfold neededFirst needed
  cases hcount : t.user_pages_count with
  | zero => exact Nat.le_refl _
  | succ n =>
    obtain ⟨i, hi⟩ : ∃ i : Fin MAX_PROCESS_PAGES, i.val = n := ⟨⟨n, by have := h.count; omega⟩, rfl⟩
    have hnew := h.path_new (i := i) (by omega)
    have hlast : tablePath (t.user_pages i).virt_addr ∈ spanned (pathsTo t (i.val + 1)) :=
      mem_spanned.2 ⟨_, mem_pathsTo.2 ⟨i, Nat.lt_succ_self _, rfl⟩, List.prefix_refl _⟩
    have hsub : spanned (pathsTo t i.val) ⊆ spanned (pathsTo t (i.val + 1)) := by
      rw [pathsTo_succ, spanned_snoc]
      exact Finset.subset_union_left
    have hlt := Finset.card_lt_card ⟨hsub, fun hback => hnew (hback hlast)⟩
    rw [hi] at hlt
    rw [Nat.add_sub_cancel]
    omega

/-! ## The loop over the pages -/

/-- The first `n` pages of `src` are copied to `dst`; `b` pages were free at the start. -/
def LoopInv (mm₀ : Mm) (src : MmStruct) (b n : Nat) (dst : MmStruct) (mm : Mm) : Prop :=
  ∃ place content, Space mm₀ mm dst.pgd place content (spanned (pathsTo src n)) ∧ Budget mm (spanned (pathsTo src n)) b ∧
    dst.user_pages_count = n ∧ ∀ k : Fin MAX_PROCESS_PAGES, k.val < n →
      dst.user_pages k = ⟨physAddr (place (tablePath (src.user_pages k).virt_addr)), (src.user_pages k).virt_addr⟩ ∧
      ∃ d, Mapped mm₀ src.pgd (src.user_pages k).virt_addr d ∧
        ∀ o < 4096, content (tablePath (src.user_pages k).virt_addr) o = mm₀.byte d o

section Loop
variable {mm₀ mm : Mm} {src dst : MmStruct} {b : Nat}

theorem LoopInv.start (mm₀ : Mm) (src : MmStruct) : LoopInv mm₀ src mm₀.free 0 .zero mm₀ := by
  refine ⟨fun _ => ⟨0, by decide⟩, fun _ _ => 0, Space.nil .., ?_, rfl, fun k hk => absurd hk (Nat.not_lt_zero _)⟩
  exact Nat.add_zero _

/-- One turn: a page with its tables, and its bytes. -/
theorem LoopInv.turn (hsrc : UserSpace mm₀ src) {i : Fin MAX_PROCESS_PAGES} (hi : i.val < src.user_pages_count)
    (h : LoopInv mm₀ src b i.val dst mm) :
    (∃ a dst' mm' m', allocate_user_page dst (src.user_pages i).virt_addr mm = .ok (a, dst', mm') ∧ a ≠ 0 ∧
      memcpy_user src.pgd mm'.mem (src.user_pages i).virt_addr a PAGE_SIZE = .ok m' ∧
      LoopInv mm₀ src b (i.val + 1) dst' { mm' with mem := m' }) ∨
    (allocate_user_page dst (src.user_pages i).virt_addr mm = .ok (0, dst, mm) ∨
      (∃ a dst' mm', allocate_user_page dst (src.user_pages i).virt_addr mm = .ok (a, dst', mm') ∧ a ≠ 0 ∧
        (∀ i, mm'.mem_map i ≠ 0) ∧ dst'.user_pages_count = i.val + 1) ∧ (spanned (pathsTo src i.val)).card < b) ∧
      b < needed src := by
  obtain ⟨place, content, hs, hb, hcount, hpages⟩ := h
  have hlt : dst.user_pages_count < MAX_PROCESS_PAGES := hcount ▸ i.isLt
  have hold : ∀ k : Fin MAX_PROCESS_PAGES, k.val < i.val → tablePath (src.user_pages k).virt_addr ∈ spanned (pathsTo src i.val) :=
    fun k hk => mem_spanned.2 ⟨_, mem_pathsTo.2 ⟨k, hk, rfl⟩, List.prefix_refl _⟩
  have hnew := hsrc.path_new hi
  have hgrow : spanned (pathsTo src (i.val + 1)) =
      spanned (pathsTo src i.val) ∪ (tablePath (src.user_pages i).virt_addr).inits.toFinset := by
    rw [pathsTo_succ, spanned_snoc]
  rcases allocate_user_page_spec hs hb hnew hlt with
    ⟨place', content', dst', mm', halloc, hs', hb', hagree, hcount', hpages'⟩ | ⟨hfail, hshort⟩
  · rw [← hgrow] at hs' hb'
    obtain ⟨d, hd⟩ := hsrc.mapped i hi
    have hmem : tablePath (src.user_pages i).virt_addr ∈ spanned (pathsTo src (i.val + 1)) :=
      mem_spanned.2 ⟨_, mem_pathsTo.2 ⟨i, Nat.lt_succ_self _, rfl⟩, List.prefix_refl _⟩
    obtain ⟨m', hcopy, hs''⟩ := hs'.copy hd (hsrc.aligned i hi) hmem rfl
    refine .inl ⟨_, dst', mm', m', halloc, pageAddr_ne_zero _, hcopy, place', _, hs'', hb', by rw [hcount', hcount], fun k hk => ?_⟩
    rw [hpages' k, hcount]
    by_cases hki : k = i
    · subst hki
      rw [if_pos rfl]
      exact ⟨rfl, d, hd, fun o _ => by rw [Function.update_self]⟩
    · have hval : k.val ≠ i.val := fun heq => hki (Fin.ext heq)
      have hklt : k.val < i.val := by omega
      obtain ⟨hpage, d', hd', hbytes⟩ := hpages k hklt
      have hne : tablePath (src.user_pages k).virt_addr ≠ tablePath (src.user_pages i).virt_addr :=
        fun heq => hki (hsrc.path_inj (by omega) hi heq)
      obtain ⟨hplace, hcontent⟩ := hagree _ (hold k hklt)
      rw [if_neg hval, hpage, hplace]
      refine ⟨rfl, d', hd', fun o ho => ?_⟩
      rw [Function.update_of_ne hne, hcontent]
      exact hbytes o ho
  · refine .inr ⟨hfail.imp And.left fun ⟨⟨a, dst', mm', halloc, ha, hall, hcount'⟩, hlow⟩ =>
      ⟨⟨a, dst', mm', halloc, ha, hall, by rw [hcount', hcount]⟩, hlow⟩, lt_of_lt_of_le hshort ?_⟩
    rw [← hgrow]
    refine Finset.card_le_card (spanned_mono fun p hp => ?_)
    obtain ⟨k, hk, rfl⟩ := mem_pathsTo.1 hp
    exact mem_pathsTo.2 ⟨k, by omega, rfl⟩

theorem copyLoop_turn (hsrc : src.user_pages_count ≤ MAX_PROCESS_PAGES) {i : Nat} (hlt : i < src.user_pages_count) (n : Nat) :
    copyLoop src (n + 1) i dst mm =
      (allocate_user_page dst (src.user_pages ⟨i, hlt.trans_le hsrc⟩).virt_addr mm).bind fun r =>
        if r.1 = 0 then .ok (-1, r.2.1, r.2.2)
        else (memcpy_user src.pgd r.2.2.mem (src.user_pages ⟨i, hlt.trans_le hsrc⟩).virt_addr r.1 PAGE_SIZE).bind fun m' =>
          copyLoop src n (i + 1) r.2.1 { r.2.2 with mem := m' } := by
  rw [copyLoop, if_pos hlt, dif_pos (hlt.trans_le hsrc)]
  rfl

/-- With no page left the loop is at its end, or gives up. -/
theorem copyLoop_full (hsrc : src.user_pages_count ≤ MAX_PROCESS_PAGES) (hall : ∀ i, mm.mem_map i ≠ 0) (n i : Nat) :
    copyLoop src (n + 1) i dst mm = .ok (if i < src.user_pages_count then -1 else 0, dst, mm) := by
  by_cases hlt : i < src.user_pages_count
  · have halloc : ∀ va, allocate_user_page dst va mm = .ok (0, dst, mm) := by
      intro va
      unfold allocate_user_page
      rw [(get_free_page_cases mm).resolve_left (fun ⟨j, hj, _⟩ => hall j hj) |>.2]
      exact if_pos rfl
    rw [copyLoop_turn hsrc hlt, halloc, ok_bind, if_pos rfl, if_pos hlt]
  · rw [copyLoop, if_neg hlt, if_neg hlt]

/-- How a loop ends for which there are too few pages: with an error, or without a table for the last page. -/
inductive CopyFails (src dst : MmStruct) (b n i : Nat) (mm : Mm) : Prop
  | fault {e} : copyLoop src n i dst mm = .error e → CopyFails src dst b n i mm
  | page {dst' mm'} : copyLoop src n i dst mm = .ok (-1, dst', mm') → dst'.user_pages_count < src.user_pages_count →
    CopyFails src dst b n i mm
  | table {dst' mm'} : copyLoop src n i dst mm = .ok (0, dst', mm') → neededFirst src ≤ b → CopyFails src dst b n i mm

/-- The loop copies all pages, or needs more pages than were free. -/
theorem copyLoop_spec (hsrc : UserSpace mm₀ src) {n i : Nat} (hn : src.user_pages_count < n + i) (hi : i ≤ src.user_pages_count)
    (h : LoopInv mm₀ src b i dst mm) :
    (∃ dst' mm', copyLoop src n i dst mm = .ok (0, dst', mm') ∧ LoopInv mm₀ src b src.user_pages_count dst' mm') ∨
    CopyFails src dst b n i mm ∧ b < needed src := by
  induction n generalizing i dst mm with
  | zero => omega
  | succ n ih =>
    by_cases hlt : i < src.user_pages_count
    · have hturn : copyLoop src (n + 1) i dst mm = _ := copyLoop_turn hsrc.count hlt n
      rcases LoopInv.turn (i := ⟨i, hlt.trans_le hsrc.count⟩) hsrc hlt h with
        ⟨a, dst', mm', m', halloc, ha, hcopy, h'⟩ | ⟨hfail, hshort⟩
      · rw [halloc, ok_bind, if_neg ha, hcopy, ok_bind] at hturn
        have h' : LoopInv mm₀ src b (i + 1) dst' { mm' with mem := m' } := h'
        rcases ih (by omega) (by omega) h' with ⟨dst'', mm'', hrest, hend⟩ | ⟨hrest | ⟨hrest, hless⟩ | ⟨hrest, hlow⟩, hshort⟩
        · exact .inl ⟨dst'', mm'', hturn.trans hrest, hend⟩
        · exact .inr ⟨.fault (hturn.trans hrest), hshort⟩
        · exact .inr ⟨.page (hturn.trans hrest) hless, hshort⟩
        · exact .inr ⟨.table (hturn.trans hrest) hlow, hshort⟩
      · refine .inr ⟨?_, hshort⟩
        rcases hfail with halloc | ⟨⟨a, dst', mm', halloc, ha, hall, hcount'⟩, hlow⟩
        · rw [halloc, ok_bind, if_pos rfl] at hturn
          obtain ⟨place, content, -, -, hcount, -⟩ := h
          exact .page hturn (by rw [hcount]; exact hlt)
        · -- The page was the last one there was: if the loop goes on, the next turn finds none.
          rw [halloc, ok_bind, if_neg ha] at hturn
          cases hcopy : memcpy_user src.pgd mm'.mem (src.user_pages ⟨i, hlt.trans_le hsrc.count⟩).virt_addr a PAGE_SIZE with
          | error e =>
            rw [hcopy] at hturn
            exact .fault hturn
          | ok m' =>
            obtain ⟨l, rfl⟩ : ∃ l, n = l + 1 := ⟨n - 1, by omega⟩
            have hall' : ∀ i, ({ mm' with mem := m' } : Mm).mem_map i ≠ 0 := hall
            rw [hcopy, ok_bind, copyLoop_full hsrc.count hall'] at hturn
            by_cases hnext : i + 1 < src.user_pages_count
            · rw [if_pos hnext] at hturn
              exact .page hturn (by rw [hcount']; exact hnext)
            · rw [if_neg hnext] at hturn
              refine .table hturn ?_
              obtain rfl : i = src.user_pages_count - 1 := by omega
              unfold neededFirst
              dsimp only at hlow
              omega
    · obtain rfl : i = src.user_pages_count := by omega
      exact .inl ⟨dst, mm, by rw [copyLoop, if_neg hlt], h⟩

end Loop

/-! ## Copies of a memory image -/

/-- What a load from a user address gets. -/
def userByte (m : Mem) (pgd va : Nat) : Option UInt8 := (translate m pgd va).map fun pa => m (pa + VA_START)

/-- `dst` has the pages of `src`, on physical pages of its own that were free before, with the same bytes. -/
structure Duplicated (mm mm' : Mm) (src dst : MmStruct) : Prop where
  count : dst.user_pages_count = src.user_pages_count
  virt_addr : ∀ i : Fin MAX_PROCESS_PAGES, i.val < src.user_pages_count →
    (dst.user_pages i).virt_addr = (src.user_pages i).virt_addr
  fresh : ∀ i : Fin MAX_PROCESS_PAGES, i.val < src.user_pages_count →
    ∃ j : Fin PAGING_PAGES, (dst.user_pages i).phys_addr = physAddr j ∧ mm.mem_map j = 0 ∧ mm'.mem_map j ≠ 0
  apart : ∀ i j : Fin MAX_PROCESS_PAGES, i.val < src.user_pages_count → j.val < src.user_pages_count →
    (dst.user_pages i).phys_addr = (dst.user_pages j).phys_addr → i = j
  backed : ∀ i : Fin MAX_PROCESS_PAGES, i.val < src.user_pages_count → ∀ o < PAGE_SIZE,
    translate mm'.mem dst.pgd ((src.user_pages i).virt_addr + o) = some ((dst.user_pages i).phys_addr + o)
  bytes : ∀ i : Fin MAX_PROCESS_PAGES, i.val < src.user_pages_count → ∀ o < PAGE_SIZE,
    userByte mm'.mem dst.pgd ((src.user_pages i).virt_addr + o) = userByte mm.mem src.pgd ((src.user_pages i).virt_addr + o)
  source : ∀ i : Fin MAX_PROCESS_PAGES, i.val < src.user_pages_count → ∀ o < PAGE_SIZE,
    userByte mm'.mem src.pgd ((src.user_pages i).virt_addr + o) = userByte mm.mem src.pgd ((src.user_pages i).virt_addr + o)

section Duplicated
variable {mm mm' : Mm} {src dst : MmStruct} {pgd va : Nat} {d j : Fin PAGING_PAGES} {b : Nat}

theorem Mapped.userByte (h : Mapped mm pgd va d) (hva : va % 4096 = 0) {o : Nat} (ho : o < 4096) :
    userByte mm.mem pgd (va + o) = some (mm.byte d o) := by
  unfold ClbFilesystem.userByte Mm.byte
  rw [h.translate hva ho, Option.map_some, ← physAddr_add, Nat.add_right_comm]

theorem Mapped.used (h : Mapped mm pgd va d) : mm.mem_map d ≠ 0 := by
  obtain ⟨a, b, c, e, hused, -⟩ := h
  exact hused d (by simp)

theorem byte_take_used {i : Fin PAGING_PAGES} (hj : mm.mem_map j = 0) (hi : mm.mem_map i ≠ 0) {o : Nat} (ho : o < 4096) :
    (mm.take j).byte i o = mm.byte i o := by
  rw [Mm.byte_take ho, if_neg]
  rintro rfl
  exact hi hj

theorem UserSpace.take (h : UserSpace mm src) (hj : mm.mem_map j = 0) : UserSpace (mm.take j) src := by
  refine ⟨h.count, h.aligned, h.bounded, h.distinct, fun i hi => ?_⟩
  obtain ⟨d, hd⟩ := h.mapped i hi
  exact ⟨d, hd.keep (Mm.le_take mm j) fun i hi o ho => byte_take_used hj hi ho⟩

/-- The loop at its end, begun with page `j` just taken. -/
theorem LoopInv.duplicated (hsrc : UserSpace mm src) (hj : mm.mem_map j = 0)
    (h : LoopInv (mm.take j) src b src.user_pages_count dst mm') : Duplicated mm mm' src dst := by
  obtain ⟨place, content, hs, -, hcount, hpages⟩ := h
  have hmem : ∀ i : Fin MAX_PROCESS_PAGES, i.val < src.user_pages_count →
      tablePath (src.user_pages i).virt_addr ∈ spanned (pathsTo src src.user_pages_count) :=
    fun i hi => mem_spanned.2 ⟨_, mem_pathsTo.2 ⟨i, hi, rfl⟩, List.prefix_refl _⟩
  have hmapped := fun i hi => hs.mapped (hmem i hi)
  have hkeep : ∀ i, mm.mem_map i ≠ 0 → ∀ o < 4096, mm'.byte i o = mm.byte i o := by
    intro i hi o ho
    rw [hs.kept i (Mm.le_take mm j i hi) o ho]
    exact byte_take_used hj hi ho
  refine ⟨hcount, fun i hi => by rw [(hpages i hi).1], fun i hi => ⟨_, by rw [(hpages i hi).1], ?_, hs.used _ (hmem i hi)⟩,
    fun i i' hi hi' heq => ?_, fun i hi o ho => ?_, fun i hi o ho => ?_, fun i hi o ho => ?_⟩
  · by_contra hne
    exact Mm.le_take mm j _ hne (hs.fresh _ (hmem i hi))
  · rw [(hpages i hi).1, (hpages i' hi').1] at heq
    exact hsrc.path_inj hi hi' (hs.stored.inj _ (hmem i hi) _ (hmem i' hi') (Fin.ext (physAddr_inj heq)))
  · rw [(hpages i hi).1]
    exact (hmapped i hi).translate (hsrc.aligned i hi) ho
  · obtain ⟨-, d, hd, hbytes⟩ := hpages i hi
    obtain ⟨d₀, hd₀⟩ := hsrc.mapped i hi
    have hsame : (mm.take j).byte d o = (mm.take j).byte d₀ o := by
      have htake := hd₀.keep (Mm.le_take mm j) fun i hi o ho => byte_take_used hj hi ho
      exact Option.some.inj ((hd.userByte (hsrc.aligned i hi) ho).symm.trans (htake.userByte (hsrc.aligned i hi) ho))
    rw [(hmapped i hi).userByte (hsrc.aligned i hi) ho, hd₀.userByte (hsrc.aligned i hi) ho, hs.leaves _ (hmem i hi) rfl o ho,
      hbytes o ho, hsame, byte_take_used hj hd₀.used ho]
  · obtain ⟨d₀, hd₀⟩ := hsrc.mapped i hi
    have hafter : Mapped mm' src.pgd (src.user_pages i).virt_addr d₀ :=
      hd₀.keep (fun i hi => hs.le i (Mm.le_take mm j i hi)) hkeep
    rw [hafter.userByte (hsrc.aligned i hi) ho, hd₀.userByte (hsrc.aligned i hi) ho, hkeep d₀ hd₀.used o ho]

end Duplicated

/-! ## `copy_process` of a user task -/

section Child
variable {k : Kernel} {j : Fin PAGING_PAGES}

/-- Where the copy starts: page `j` is the new task. -/
def forkStart (k : Kernel) (j : Fin PAGING_PAGES) : Kernel :=
  { preempt_disable k with toMm := k.toMm.take j }.freshTask (.page (pageAddr j))

theorem forkStart_parent (hne : k.current ≠ .page (pageAddr j)) :
    ((forkStart k j).task_struct k.current).mm = (k.task_struct k.current).mm ∧
    (forkStart k j).pt_regs k.current = k.pt_regs k.current := by
  unfold forkStart
  rw [Kernel.freshTask_task_struct, Kernel.freshTask_pt_regs, if_neg hne, if_neg hne]
  unfold preempt_disable
  rw [Kernel.modTask_task_struct, if_pos rfl]
  exact ⟨rfl, rfl⟩

theorem forkStart_child (k : Kernel) (j : Fin PAGING_PAGES) : (forkStart k j).task_struct (.page (pageAddr j)) = .zero ∧
    (forkStart k j).pt_regs (.page (pageAddr j)) = .zero := by
  unfold forkStart
  rw [Kernel.freshTask_task_struct, Kernel.freshTask_pt_regs, if_pos rfl, if_pos rfl]
  exact ⟨rfl, rfl⟩

theorem PtRegs.zero_update : { PtRegs.zero with regs := Function.update PtRegs.zero.regs 0 0 } = PtRegs.zero := by
  have hregs : Function.update PtRegs.zero.regs 0 0 = PtRegs.zero.regs := Function.update_eq_self 0 PtRegs.zero.regs
  rw [hregs]

/-- The child of a fork whose copy returned, complete or not; the saved registers of both tasks are zero. -/
structure Child (k k' : Kernel) (p : TaskPtr) (mm_struct : MmStruct) (mm : Mm) (i : Fin NR_TASKS) : Prop where
  slot : i.val = k.nr_tasks
  task : k'.task i = some p
  memory : k'.toMm = mm
  task_struct : (k'.task_struct p).mm = mm_struct ∧ (k'.task_struct p).state = .RUNNING ∧
    (k'.task_struct p).cpu_context = ⟨0, 0, some p, some .ret_from_fork⟩
  parent_regs : k'.pt_regs k.current = .zero
  child_regs : k'.pt_regs p = .zero

/-- Whatever the copy returned, the child gets a slot if there is one. -/
theorem copy_process_user (ht : TaskInv k) (hj : k.mem_map j = 0) (halloc : allocate_kernel_page k.toMm = (pageAddr j, k.toMm.take j))
    {r : Int} {mm_struct : MmStruct} {mm : Mm}
    (hcopy : copy_virt_memory (k.task_struct k.current).mm .zero (k.toMm.take j) = .ok (r, mm_struct, mm)) :
    k.nr_tasks < NR_TASKS ∧ (∃ i k', copy_process 0 0 0 k = .ok ((i.val : Int), k') ∧ Child k k' (.page (pageAddr j)) mm_struct mm i) ∨
    NR_TASKS ≤ k.nr_tasks ∧ copy_process 0 0 0 k = .error .outOfBounds := by
  have hne := ht.current_ne hj
  obtain ⟨hparent, -⟩ := forkStart_parent hne
  obtain ⟨hchild, hregs⟩ := forkStart_child k j
  have hcopy' : copy_virt_memory ((forkStart k j).task_struct (forkStart k j).current).mm
      ((forkStart k j).task_struct (.page (pageAddr j))).mm (forkStart k j).toMm = .ok (r, mm_struct, mm) := by
    rw [hchild]
    show copy_virt_memory ((forkStart k j).task_struct k.current).mm _ _ = _
    rw [hparent]
    exact hcopy
  obtain ⟨k₁, hstart, hmm₁, hts₁, hothers₁, hregs₁⟩ := startTask_user 0 0 (by decide : 0 &&& PF_KTHREAD = 0) hcopy'
  have hbody : copyBody 0 0 0 (preempt_disable k) = (publish 0 (.page (pageAddr j)) k₁).bind fun r => .ok (some r.1, r.2) := by
    rw [copyBody_page (k := preempt_disable k) halloc]
    exact congrArg (fun x : Except Fault Kernel => x.bind _) hstart
  have hnr : k₁.nr_tasks = k.nr_tasks := (startTask_spec hstart).2.2.1
  unfold copy_process
  rw [hbody]
  rcases publish_returns 0 (.page (pageAddr j)) k₁ with ⟨hlt, k₂, hpub, hmm₂⟩ | ⟨hle, hpub⟩
  · obtain ⟨i, hi, -, -, htask₂, -, hcur₂, hts₂⟩ := publish_spec hpub
    have hregs₂ : k₂.pt_regs = k₁.pt_regs := publish_pt_regs hpub
    refine .inl ⟨hnr ▸ hlt, i, preempt_enable k₂, ?_, ?_⟩
    · rw [hpub, hi]
      rfl
    · have hcur : k₂.current = k.current := hcur₂.trans (startTask_spec hstart).2.2.2.1
      have hstruct : (preempt_enable k₂).task_struct (.page (pageAddr j)) = k₂.task_struct (.page (pageAddr j)) := by
        unfold preempt_enable
        rw [Kernel.modTask_task_struct, hcur, if_neg hne.symm]
      have hnew := hts₂ (.page (pageAddr j))
      rw [if_pos rfl, hts₁, hchild] at hnew
      refine ⟨hi.trans hnr, ?_, hmm₂.trans hmm₁, ?_, ?_, ?_⟩
      · show k₂.task i = _
        rw [htask₂, Function.update_self]
      · rw [hstruct, hnew]
        exact ⟨rfl, rfl, rfl⟩
      · show k₂.pt_regs _ = _
        rw [hregs₂, hothers₁ _ hne]
        exact (if_pos rfl).trans hregs
      · show k₂.pt_regs _ = _
        rw [hregs₂, hregs₁, hregs]
        exact PtRegs.zero_update
  · refine .inr ⟨hnr ▸ hle, ?_⟩
    rw [hpub]
    rfl

/-- A fork whose copy ends outside does so. -/
theorem copy_process_user_error (ht : TaskInv k) (hj : k.mem_map j = 0)
    (halloc : allocate_kernel_page k.toMm = (pageAddr j, k.toMm.take j)) {e : Fault}
    (hcopy : copy_virt_memory (k.task_struct k.current).mm .zero (k.toMm.take j) = .error e) : copy_process 0 0 0 k = .error e := by
  obtain ⟨hparent, -⟩ := forkStart_parent (ht.current_ne hj)
  have hcopy' : copy_virt_memory ((forkStart k j).task_struct (forkStart k j).current).mm
      ((forkStart k j).task_struct (.page (pageAddr j))).mm (forkStart k j).toMm = .error e := by
    rw [(forkStart_child k j).1]
    show copy_virt_memory ((forkStart k j).task_struct k.current).mm _ _ = _
    rw [hparent]
    exact hcopy
  have hstart := startTask_user_error 0 0 (by decide : 0 &&& PF_KTHREAD = 0) hcopy'
  unfold copy_process
  rw [copyBody_page (k := preempt_disable k) halloc]
  exact congrArg (fun x : Except Fault Kernel => (x.bind _ : Except Fault (Option Int × Kernel)).bind _) hstart

/-- A fork of a user task, by the pages that are free. -/
theorem copy_process_cases (ht : TaskInv k) (hu : UserSpace k.toMm (k.task_struct k.current).mm) :
    k.toMm.free = 0 ∧ copy_process 0 0 0 k = .ok (-1, preempt_disable k) ∨
    (∃ j mm_struct mm i k', copy_process 0 0 0 k = .ok ((i.val : Int), k') ∧ Child k k' (.page (pageAddr j)) mm_struct mm i ∧
      k.nr_tasks < NR_TASKS ∧
      (needed (k.task_struct k.current).mm < k.toMm.free ∧ Duplicated k.toMm mm (k.task_struct k.current).mm mm_struct ∨
        k.toMm.free ≤ needed (k.task_struct k.current).mm ∧
          (mm_struct.user_pages_count < (k.task_struct k.current).mm.user_pages_count ∨
            neededFirst (k.task_struct k.current).mm < k.toMm.free))) ∨
    (∃ e, copy_process 0 0 0 k = .error e) ∧
      (NR_TASKS ≤ k.nr_tasks ∨ k.toMm.free ≤ needed (k.task_struct k.current).mm) := by
  rcases allocate_kernel_page_cases k.toMm with ⟨j, hj, halloc⟩ | ⟨hall, -⟩
  swap
  · exact .inl ⟨Mm.free_eq_zero.2 hall, copy_process_starved hall⟩
  have htake := Mm.free_take hj
  have hcount : (k.task_struct k.current).mm.user_pages_count < MAX_PROCESS_PAGES + 1 + 0 := Nat.lt_succ_of_le hu.count
  refine .inr ?_
  rcases copyLoop_spec (hu.take hj) hcount (Nat.zero_le _) (LoopInv.start (k.toMm.take j) (k.task_struct k.current).mm) with
    ⟨mm_struct, mm, hcopy, hloop⟩ | ⟨hfail, hshort⟩
  · have hneed : needed (k.task_struct k.current).mm ≤ (k.toMm.take j).free := by
      obtain ⟨place, content, -, hb, -⟩ := hloop
      exact hb.card_le
    rcases copy_process_user ht hj halloc hcopy with ⟨hlt, i, k', hcall, hc⟩ | ⟨hge, hcall⟩
    · exact .inl ⟨j, mm_struct, mm, i, k', hcall, hc, hlt, .inl ⟨by omega, hloop.duplicated hu hj⟩⟩
    · exact .inr ⟨⟨_, hcall⟩, .inl hge⟩
  · have hneed : k.toMm.free ≤ needed (k.task_struct k.current).mm := by omega
    rcases hfail with hcopy | ⟨hcopy, hless⟩ | ⟨hcopy, hlow⟩
    · exact .inr ⟨⟨_, copy_process_user_error ht hj halloc hcopy⟩, .inr hneed⟩
    · rcases copy_process_user ht hj halloc hcopy with ⟨hlt, i, k', hcall, hc⟩ | ⟨hge, hcall⟩
      · exact .inl ⟨j, _, _, i, k', hcall, hc, hlt, .inr ⟨hneed, .inl hless⟩⟩
      · exact .inr ⟨⟨_, hcall⟩, .inl hge⟩
    · rcases copy_process_user ht hj halloc hcopy with ⟨hlt, i, k', hcall, hc⟩ | ⟨hge, hcall⟩
      · exact .inl ⟨j, _, _, i, k', hcall, hc, hlt, .inr ⟨hneed, .inr (by omega)⟩⟩
      · exact .inr ⟨⟨_, hcall⟩, .inl hge⟩

end Child

/-! ## What a fork should do -/

/-- Task `p`, in slot `i`, is a child of the task that was current: its saved registers are the same but for `x0`, where
it sees 0, its memory is a copy, and it starts on the way back to the user. -/
structure ChildOf (k k' : Kernel) (p : TaskPtr) (i : Fin NR_TASKS) : Prop where
  task : k'.task i = some p
  parent_regs : k'.pt_regs k.current = k.pt_regs k.current
  child_regs : k'.pt_regs p = { k.pt_regs k.current with regs := Function.update (k.pt_regs k.current).regs 0 0 }
  cpu_context : (k'.task_struct p).cpu_context = ⟨0, 0, some p, some .ret_from_fork⟩
  memory : Duplicated k.toMm k'.toMm (k.task_struct k.current).mm (k'.task_struct p).mm

/-- The fork returns the pid of a child. -/
def DuplicatesTask (k : Kernel) : Prop := ∃ i k' p, copy_process 0 0 0 k = .ok ((i.val : Int), k') ∧ ChildOf k k' p i

/-- The fork makes a task with all pages of the current one, or returns -1 and has changed neither the tasks nor the
current one. -/
def AllOrNothing (k : Kernel) : Prop :=
  (∃ i k' p, copy_process 0 0 0 k = .ok ((i.val : Int), k') ∧ k'.task i = some p ∧
    Duplicated k.toMm k'.toMm (k.task_struct k.current).mm (k'.task_struct p).mm) ∨
  ∃ k', copy_process 0 0 0 k = .ok (-1, k') ∧ k'.task = k.task ∧ k'.nr_tasks = k.nr_tasks ∧
    k'.task_struct k.current = k.task_struct k.current ∧ k'.pt_regs k.current = k.pt_regs k.current

/-- A call that returned -1 has not returned a pid. -/
theorem pid_ne (i : Fin NR_TASKS) : (i.val : Int) ≠ -1 := by omega

theorem pid_unique {x : Except Fault (Int × Kernel)} {i i' : Fin NR_TASKS} {k' k'' : Kernel} (h : x = .ok ((i.val : Int), k'))
    (h' : x = .ok ((i'.val : Int), k'')) : i = i' ∧ k' = k'' := by
  rw [h, Except.ok.injEq, Prod.mk.injEq] at h'
  exact ⟨Fin.ext (by omega), h'.2⟩

section Iff
variable {k : Kernel}

theorem DuplicatesTask.regs (ht : TaskInv k) (hu : UserSpace k.toMm (k.task_struct k.current).mm) (h : DuplicatesTask k) :
    k.pt_regs k.current = .zero ∧ k.nr_tasks < NR_TASKS := by
  obtain ⟨i', k'', p, hcall', hchild⟩ := h
  rcases copy_process_cases ht hu with ⟨-, hcall⟩ | ⟨j, mm_struct, mm, i, k', hcall, hc, hlt, -⟩ | ⟨⟨e, hcall⟩, -⟩
  · rw [hcall'] at hcall
    exact absurd (congrArg Prod.fst (Except.ok.inj hcall)) (pid_ne i')
  · obtain ⟨rfl, rfl⟩ := pid_unique hcall hcall'
    exact ⟨hchild.parent_regs.symm.trans hc.parent_regs, hlt⟩
  · rw [hcall] at hcall'
    cases hcall'

/-- Without so many pages a user page finds none, and the child runs without it. -/
theorem AllOrNothing.pages (ht : TaskInv k) (hu : UserSpace k.toMm (k.task_struct k.current).mm) (h : AllOrNothing k) :
    neededFirst (k.task_struct k.current).mm < k.toMm.free ∧ k.nr_tasks < NR_TASKS := by
  rcases copy_process_cases ht hu with ⟨-, hcall⟩ | ⟨j, mm_struct, mm, i, k', hcall, hc, hlt, hmem⟩ | ⟨⟨e, hcall⟩, -⟩
  · rcases h with ⟨i, k', p, hcall', -⟩ | ⟨k', hcall', -, -, hsame, -⟩
    · rw [hcall] at hcall'
      exact absurd (congrArg Prod.fst (Except.ok.inj hcall')).symm (pid_ne i)
    · -- The exit without a page leaves the task with preemption disabled.
      rw [hcall] at hcall'
      cases hcall'
      have hcount := congrArg TaskStruct.preempt_count hsame
      unfold preempt_disable at hcount
      rw [Kernel.modTask_task_struct, if_pos rfl] at hcount
      simp at hcount
  · rcases hmem with ⟨hpages, -⟩ | ⟨-, hless | hlow⟩
    · exact ⟨hu.neededFirst_le.trans_lt hpages, hlt⟩
    · rcases h with ⟨i', k'', p, hcall', htask, hdup⟩ | ⟨k'', hcall', -⟩
      · obtain ⟨rfl, rfl⟩ := pid_unique hcall hcall'
        rw [hc.task] at htask
        cases htask
        have hcount := hdup.count
        rw [hc.task_struct.1] at hcount
        omega
      · rw [hcall] at hcall'
        exact absurd (congrArg Prod.fst (Except.ok.inj hcall')) (pid_ne i)
    · exact ⟨hlow, hlt⟩
  · rcases h with ⟨i, k', p, hcall', -⟩ | ⟨k', hcall', -⟩ <;> rw [hcall] at hcall' <;> cases hcall'

end Iff

/-! ## A user task -/

/-- The first new task, switched to and sent to user mode: it can have any memory and any saved registers. -/
theorem exists_user_task (mm : Mm) (hmm : ∀ i : Fin PAGING_PAGES, i.val = 0 → mm.mem_map i ≠ 0) (regs : PtRegs) (t : MmStruct) :
    ∃ tr k, KernelRuns tr k ∧ k.toMm = mm ∧ k.pt_regs k.current = regs ∧ (k.task_struct k.current).mm = t ∧ k.nr_tasks = 2 := by
  obtain ⟨k₀, hk₀⟩ : ∃ k, k = bootKernel ⟨fun _ => 0, fun _ => 0⟩ := ⟨_, rfl⟩
  have hmap : ∀ i, k₀.mem_map i = 0 := fun i => by rw [hk₀]; rfl
  obtain ⟨j, -, halloc⟩ := (allocate_kernel_page_cases k₀.toMm).resolve_right fun h => h.1 ⟨0, by decide⟩ (hmap _)
  have hj : j.val = 0 := by
    have hzero := allocate_kernel_page_eq k₀.toMm (by decide : 0 < PAGING_PAGES) (hmap _) (fun _ _ hlt => absurd hlt (Nat.not_lt_zero _))
    rw [halloc] at hzero
    exact pageAddr_inj (congrArg Prod.fst hzero)
  -- A kernel thread is created.
  obtain ⟨k₁, hstart, hmm₁⟩ := startTask_kthread kthread_flag 0 0 (.page (pageAddr j))
    ({ preempt_disable k₀ with toMm := k₀.toMm.take j }.freshTask (.page (pageAddr j)))
  obtain ⟨-, k₂, hbody, hmm₂⟩ := (copyBody_returns (k := preempt_disable k₀) halloc hstart).resolve_right fun h => by
    rw [hk₀] at h
    exact absurd h.1 (by decide)
  obtain ⟨j', i, -, -, hr, hf⟩ := (copyBody_spec hbody).resolve_left fun h => by cases h.2.1
  have hexec : (KernelCall.copy_process PF_KTHREAD 0 0).exec k₀ = .ok (some (k₀.nr_tasks : Int), preempt_enable k₂) := by
    rw [KernelCall.exec, copy_process, hbody]
    rfl
  have hrun : KernelRuns _ (preempt_enable k₂) :=
    ⟨_, (hk₀ ▸ Run.nil : Run KernelNext (bootKernel ⟨fun _ => 0, fun _ => 0⟩) [] k₀).snoc (.call hexec)⟩
  have hcur : k₂.current = .init_task := hf.current.trans (by rw [hk₀]; rfl)
  have hchild : (preempt_enable k₂).task_struct (.page (pageAddr j')) = k₂.task_struct (.page (pageAddr j')) := by
    rw [preempt_enable, Kernel.modTask_task_struct, hcur, if_neg (by simp)]
  have hprio : (k₂.task_struct (.page (pageAddr j'))).counter = 15 := by
    rw [hf.counter, hf.priority (by rw [hk₀]; exact fun h => by cases h), hk₀]
    rfl
  have htask : ∀ m q, k₂.task m = some q → q = .page (pageAddr j') ∨ q = .init_task := by
    intro m q hq
    rw [hf.task, Function.update_apply] at hq
    split at hq
    · cases hq
      exact .inl rfl
    · have hboot : (bootKernel ⟨fun _ => 0, fun _ => 0⟩).task m = some q := by
        rw [← hk₀]
        exact hq
      exact .inr (bootKernel_task hboot).2
  -- It is switched to, and maps its memory.
  obtain ⟨k₃, hsched, hcur₃, -⟩ := schedule_only (i := i) (p := .page (pageAddr j')) hrun.timed
    (by show k₂.task i = _; rw [hf.task, Function.update_self]) (by rw [hchild]; exact hf.state) (by rw [hchild, hprio]; decide)
    (by show _ ≠ k₂.current; rw [hcur]; simp)
    (fun m q hq hqp hqc => by
      rcases htask m q hq with rfl | rfl
      · exact absurd rfl hqp
      · exact absurd hcur.symm hqc)
  have hspec := schedule_spec hsched
  have hexec' : KernelCall.schedule.exec (preempt_enable k₂) = .ok (none, k₃) := by
    rw [KernelCall.exec, hsched]
    rfl
  have hle : k₃.toMm.Le mm := by
    intro m hm
    have hmm₃ : k₃.toMm = k₀.toMm.take j := hspec.mm.trans (hmm₂.trans hmm₁)
    rw [hmm₃, Mm.take_mem_map] at hm
    split at hm
    · next hmj => exact hmm m (by rw [hmj]; exact hj)
    · exact absurd (hmap m) hm
  obtain ⟨mm₀, hrun₂⟩ := hrun
  refine ⟨_, _, ⟨mm₀, (hrun₂.snoc (.call hexec')).snoc (@KernelNext.other k₃ mm (fun _ => regs) (fun _ => t) hle)⟩, rfl, rfl, rfl, ?_⟩
  show k₃.nr_tasks = 2
  rw [hspec.nr_tasks]
  exact hf.nr_tasks.trans (by rw [hk₀]; rfl)

/-- Tables `a`, `b`, `c` and `e` that lead from address 0 to page `d`. -/
def oneTables (mm : Mm) (a b c e d : Fin PAGING_PAGES) : Mm :=
  (((mm.setEntry a 0 (enc 0 b)).setEntry b 0 (enc 1 c)).setEntry c 0 (enc 2 e)).setEntry e 0 (enc 3 d)

/-- A task that has mapped one page, at 0. -/
def onePage (a d : Fin PAGING_PAGES) : MmStruct :=
  { MmStruct.zero with pgd := physAddr a, user_pages_count := 1, user_pages := fun _ => ⟨physAddr d, 0⟩ }

theorem neededFirst_onePage (a d : Fin PAGING_PAGES) : neededFirst (onePage a d) = 1 := rfl

theorem needed_onePage (a d : Fin PAGING_PAGES) : needed (onePage a d) = 5 := by
  have hfirst : (List.finRange MAX_PROCESS_PAGES).take 1 = [⟨0, by decide⟩] := by decide
  have hpath : tablePath 0 = [0, 0, 0, 0] := by decide
  have hpaths : pathsTo (onePage a d) 1 = [[0, 0, 0, 0]] := by
    unfold pathsTo
    rw [hfirst, ← hpath]
    rfl
  show (spanned (pathsTo (onePage a d) 1)).card = 5
  rw [hpaths]
  decide

theorem userSpace_onePage {mm : Mm} {a b c e d : Fin PAGING_PAGES} (hused : ∀ i ∈ [a, b, c, e, d], mm.mem_map i ≠ 0)
    (hnd : [a, b, c, e].Nodup) : UserSpace (oneTables mm a b c e d) (onePage a d) := by
  have hva : ∀ i, ((onePage a d).user_pages i).virt_addr = 0 := fun _ => rfl
  have hdescend : ∀ (l : Nat) (i i' : Fin PAGING_PAGES) shift, (oneTables mm a b c e d).entry i 0 = enc l i' →
      descend (oneTables mm a b c e d).mem (physAddr i) shift 0 = some (physAddr i') := by
    intro l i i' shift hentry
    have hindex : tableIndex 0 shift = 0 := by rw [tableIndex_eq, Nat.zero_div, Nat.zero_mod]
    have htype : enc l i' % 4 = 3 := entry_type _ (flags_spec _).1 (flags_spec _).2
    rw [descend_eq, hindex, hentry, if_pos htype]
    exact congrArg some (entry_address _ (flags_spec _).1)
  simp only [List.nodup_cons, List.mem_cons, List.not_mem_nil, or_false, not_or] at hnd
  obtain ⟨⟨hab, hac, hae⟩, ⟨hbc, hbe⟩, hce, -⟩ := hnd
  have hset : ∀ (mm : Mm) (i i' : Fin PAGING_PAGES) v, v < 2 ^ 64 →
      (mm.setEntry i' 0 v).entry i 0 = if i = i' then v else mm.entry i 0 := by
    intro mm i i' v hv
    rw [Mm.entry_setEntry hv (by decide) (by decide)]
    simp
  refine ⟨(by decide : 1 ≤ MAX_PROCESS_PAGES), fun i _ => rfl, fun i _ => by rw [hva]; decide, fun i j hi hj _ => ?_, fun i _ => ?_⟩
  · have hi : i.val < 1 := hi
    have hj : j.val < 1 := hj
    exact Fin.ext (by omega)
  · refine ⟨d, a, b, c, e, hused, rfl, hdescend 0 a b _ ?_, hdescend 1 b c _ ?_, hdescend 2 c e _ ?_, hdescend 3 e d _ ?_⟩
    · simp only [oneTables, hset _ _ _ _ (enc_lt _ _), if_neg hae, if_neg hac, if_neg hab, if_true]
    · simp only [oneTables, hset _ _ _ _ (enc_lt _ _), if_neg hbe, if_neg hbc, if_true]
    · simp only [oneTables, hset _ _ _ _ (enc_lt _ _), if_neg hce, if_true]
    · simp only [oneTables, hset _ _ _ _ (enc_lt _ _), if_true]

/-- The first user task with one page, its registers as they are, and any number of free pages. -/
theorem exists_one_page (regs : PtRegs) (n : Nat) (hn : n + 6 ≤ PAGING_PAGES) :
    ∃ tr k, KernelRuns tr k ∧ UserSpace k.toMm (k.task_struct k.current).mm ∧
      (k.task_struct k.current).mm.user_pages_count = 1 ∧ k.pt_regs k.current = regs ∧
      needed (k.task_struct k.current).mm = 5 ∧ neededFirst (k.task_struct k.current).mm = 1 ∧ k.toMm.free = n ∧ k.nr_tasks = 2 := by
  obtain ⟨mm, hmap, hfree⟩ := Mm.exists_taken (PAGING_PAGES - n) (Nat.sub_le _ _)
  have hused : ∀ i : Fin PAGING_PAGES, i.val < 6 → mm.mem_map i ≠ 0 := fun i hi => (hmap i).2 (by omega)
  obtain ⟨a, b, c, e, d, ha, hb, hc, he, hd⟩ : ∃ a b c e d : Fin PAGING_PAGES,
      a.val = 1 ∧ b.val = 2 ∧ c.val = 3 ∧ e.val = 4 ∧ d.val = 5 :=
    ⟨⟨1, by omega⟩, ⟨2, by omega⟩, ⟨3, by omega⟩, ⟨4, by omega⟩, ⟨5, by omega⟩, rfl, rfl, rfl, rfl, rfl⟩
  have hspace : UserSpace (oneTables mm a b c e d) (onePage a d) := by
    refine userSpace_onePage (fun i hi => hused i ?_) ?_
    · simp only [List.mem_cons, List.not_mem_nil, or_false] at hi
      rcases hi with rfl | rfl | rfl | rfl | rfl <;> omega
    · simp [Fin.ext_iff, ha, hb, hc, he]
  obtain ⟨tr, k, hrun, hk, hregs, ht, hnr⟩ := exists_user_task (oneTables mm a b c e d)
    (fun i hi => hused i (by omega)) regs (onePage a d)
  refine ⟨tr, k, hrun, ?_, by rw [ht]; rfl, hregs, ?_, by rw [ht, neededFirst_onePage], ?_, hnr⟩
  · rw [hk, ht]
    exact hspace
  · rw [ht, needed_onePage]
  · have hsame : (oneTables mm a b c e d).free = mm.free := Mm.free_congr rfl
    rw [hk, hsame]
    omega

/-- With the pages it needs a fork duplicates the task if and only if the saved registers of the task are zero, and
there is a slot: the frame of the child, zeroed with its page, is copied over that of the parent. -/
theorem KernelRuns.duplicatesTask_iff {tr : List (Step Kernel KernelEvent)} {k : Kernel} (h : KernelRuns tr k)
    (hu : UserSpace k.toMm (k.task_struct k.current).mm) (hpages : needed (k.task_struct k.current).mm < k.toMm.free) :
    DuplicatesTask k ↔ k.pt_regs k.current = .zero ∧ k.nr_tasks < NR_TASKS := by
  refine ⟨DuplicatesTask.regs h.taskInv hu, ?_⟩
  rintro ⟨hregs, hlt⟩
  rcases copy_process_cases h.taskInv hu with ⟨hfree, -⟩ | ⟨j, mm_struct, mm, i, k', hcall, hc, -, hmem⟩ | ⟨-, hwhy⟩
  · omega
  · obtain ⟨-, hdup⟩ := hmem.resolve_right fun hno => by omega
    refine ⟨i, k', _, hcall, hc.task, hc.parent_regs.trans hregs.symm, ?_, hc.task_struct.2.2, ?_⟩
    · rw [hc.child_regs, hregs]
      exact PtRegs.zero_update.symm
    · rw [hc.memory, hc.task_struct.1]
      exact hdup
  · omega

/-- A page mapped, pages enough, and saved registers that happen to be zero. -/
theorem duplicatesTask_zero : ∃ tr k, KernelRuns tr k ∧ (k.task_struct k.current).mm.user_pages_count = 1 ∧ DuplicatesTask k := by
  obtain ⟨tr, k, hrun, hu, hcount, hregs, hneed, -, hfree, hnr⟩ := exists_one_page .zero 100 (by decide)
  exact ⟨tr, k, hrun, hcount, (hrun.duplicatesTask_iff hu (by omega)).2 ⟨hregs, by rw [hnr]; decide⟩⟩

/-- The same task on its way back to address 4. -/
theorem duplicatesTask_fails : ∃ tr k, KernelRuns tr k ∧ UserSpace k.toMm (k.task_struct k.current).mm ∧
    needed (k.task_struct k.current).mm < k.toMm.free ∧ ¬ DuplicatesTask k := by
  obtain ⟨tr, k, hrun, hu, -, hregs, hneed, -, hfree, -⟩ := exists_one_page { PtRegs.zero with pc := 4 } 100 (by decide)
  refine ⟨tr, k, hrun, hu, by omega, fun hd => ?_⟩
  have hzero := (hd.regs hrun.taskInv hu).1
  rw [hregs] at hzero
  exact absurd (congrArg PtRegs.pc hzero) (by decide)

/-- A fork copies all pages or nothing if there are free pages for all of them, their tables and the task, and a slot;
and only if there is a slot, and pages for all but the tables that only the last user page needs. -/
theorem KernelRuns.allOrNothing_pages {tr : List (Step Kernel KernelEvent)} {k : Kernel} (h : KernelRuns tr k)
    (hu : UserSpace k.toMm (k.task_struct k.current).mm) :
    (needed (k.task_struct k.current).mm < k.toMm.free ∧ k.nr_tasks < NR_TASKS → AllOrNothing k) ∧
    (AllOrNothing k → neededFirst (k.task_struct k.current).mm < k.toMm.free ∧ k.nr_tasks < NR_TASKS) := by
  refine ⟨?_, AllOrNothing.pages h.taskInv hu⟩
  rintro ⟨hpages, hlt⟩
  rcases copy_process_cases h.taskInv hu with ⟨hfree, -⟩ | ⟨j, mm_struct, mm, i, k', hcall, hc, -, hmem⟩ | ⟨-, hwhy⟩
  · omega
  · obtain ⟨-, hdup⟩ := hmem.resolve_right fun hno => by omega
    refine .inl ⟨i, k', _, hcall, hc.task, ?_⟩
    rw [hc.memory, hc.task_struct.1]
    exact hdup
  · omega

/-- Six pages are enough for a task with one. -/
theorem allOrNothing_six : ∃ tr k, KernelRuns tr k ∧ k.toMm.free = 6 ∧ AllOrNothing k := by
  obtain ⟨tr, k, hrun, hu, -, -, hneed, -, hfree, hnr⟩ := exists_one_page .zero 6 (by decide)
  exact ⟨tr, k, hrun, hfree, (hrun.allOrNothing_pages hu).1 ⟨by omega, by rw [hnr]; decide⟩⟩

/-- The only free page goes to the new task; its child runs without a page. -/
theorem allOrNothing_fails : ∃ tr k, KernelRuns tr k ∧ UserSpace k.toMm (k.task_struct k.current).mm ∧ k.toMm.free = 1 ∧
    ¬ AllOrNothing k := by
  obtain ⟨tr, k, hrun, hu, -, -, -, hneed, hfree, -⟩ := exists_one_page .zero 1 (by decide)
  refine ⟨tr, k, hrun, hu, hfree, fun hall => ?_⟩
  have := (hall.pages hrun.taskInv hu).1
  omega

end ClbFilesystem
