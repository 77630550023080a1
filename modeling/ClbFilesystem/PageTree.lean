import ClbFilesystem.AddressSpace
/-!
# The tables of a task

What `map_page` does to the tables of one task, whatever is mapped already and
whichever pages are handed to it: the tables are a radix tree of three levels,
and the entries of the last one are a function of the address. The call writes
in tables of the task and in pages that were free.
-/

namespace ClbFilesystem

open Lib

/-- The tables of a task: those of `N`, in pages in use. An entry of the last level leads to a page of `leaf`. -/
structure PageTree (mm : Mm) (pgd : Nat) (place : List (Fin 512) → Fin PAGING_PAGES) (N : Finset (List (Fin 512)))
    (leaf : List (Fin 512) → Option (Fin PAGING_PAGES)) : Prop where
  stored : Stored enc 0 3 (fun i x => mm.entry i x.val) place N
  root : pgd = if [] ∈ N then physAddr (place []) else 0
  used : ∀ n ∈ N, mm.mem_map (place n) ≠ 0
  leaves : ∀ n ∈ N, n.length = 3 → ∀ x : Fin 512, mm.entry (place n) x = (leaf (n ++ [x])).elim 0 (enc 3)
  bare : ∀ n, n ∉ N → ∀ x, leaf (n ++ [x]) = none

/-- No page is given back, and only tables of the tree and free pages are written; a new table is in a page that was free. -/
structure Grown (mm mm' : Mm) (place : List (Fin 512) → Fin PAGING_PAGES) (N : Finset (List (Fin 512)))
    (place' : List (Fin 512) → Fin PAGING_PAGES) (N' : Finset (List (Fin 512))) : Prop where
  le : mm.Le mm'
  kept : ∀ i, mm.mem_map i ≠ 0 → (∀ n ∈ N, place n ≠ i) → ∀ o < 4096, mm'.byte i o = mm.byte i o
  places : ∀ n ∈ N', n ∈ N ∧ place' n = place n ∨ mm.mem_map (place' n) = 0

section Grown
variable {mm mm' mm'' : Mm} {place place' place'' : List (Fin 512) → Fin PAGING_PAGES} {N N' N'' : Finset (List (Fin 512))}
  {j : Fin PAGING_PAGES}

theorem Grown.refl (mm : Mm) (place : List (Fin 512) → Fin PAGING_PAGES) (N : Finset (List (Fin 512))) :
    Grown mm mm place N place N :=
  ⟨.refl mm, fun _ _ _ _ _ => rfl, fun _ hn => .inl ⟨hn, rfl⟩⟩

theorem Grown.trans (h : Grown mm mm' place N place' N') (h' : Grown mm' mm'' place' N' place'' N'') :
    Grown mm mm'' place N place'' N'' := by
  refine ⟨h.le.trans h'.le, fun i hi hout o ho => ?_, fun n hn => ?_⟩
  · rw [h'.kept i (h.le i hi) (fun n hn heq => ?_) o ho]
    · exact h.kept i hi hout o ho
    · rcases h.places n hn with ⟨hn, hp⟩ | hfree
      · exact hout n hn (hp.symm.trans heq)
      · rw [heq] at hfree
        exact hi hfree
  · rcases h'.places n hn with ⟨hn, hp⟩ | hfree
    · rw [hp]
      exact h.places n hn
    · refine .inr ?_
      by_contra hused
      exact h.le _ hused hfree

/-- A page taken. -/
theorem Grown.take (hj : mm.mem_map j = 0) (hplaces : ∀ n ∈ N', n ∈ N ∧ place' n = place n ∨ place' n = j) :
    Grown mm (mm.take j) place N place' N' := by
  refine ⟨Mm.le_take mm j, fun i hi _ o ho => ?_, fun n hn => ?_⟩
  · rw [Mm.byte_take ho, if_neg]
    rintro rfl
    exact hi hj
  · rcases hplaces n hn with hold | rfl
    · exact .inl hold
    · exact .inr hj

/-- An entry of a table written. -/
theorem Grown.setEntry {n : List (Fin 512)} (hn : n ∈ N) (x : Fin 512) (v : Nat) :
    Grown mm (mm.setEntry (place n) x v) place N place N :=
  ⟨.refl mm, fun _ _ hout _ ho => Mm.byte_setEntry (hout n hn).symm ho x.isLt, fun _ hm => .inl ⟨hm, rfl⟩⟩

end Grown

/-! ## Tables noted -/

/-- No allocation of a table has failed: the pages noted for reclaim are pages. -/
def MmStruct.Tabled (t : MmStruct) : Prop := ∀ k, 0 < k → k ≤ t.kernel_pages_count → t.kernel_pages k ≠ 0

section Tabled
variable {t t' : MmStruct}

theorem MmStruct.tabled_zero : MmStruct.zero.Tabled := by
  intro k hpos hle
  exact absurd hle (Nat.not_le.2 hpos)

theorem MmStruct.tabled_addKernelPage (page : Nat) : (t.addKernelPage page).Tabled ↔ t.Tabled ∧ page ≠ 0 := by
  have hlast : (t.addKernelPage page).kernel_pages (t.kernel_pages_count + 1) = page := Function.update_self ..
  have hold : ∀ k, k ≤ t.kernel_pages_count → (t.addKernelPage page).kernel_pages k = t.kernel_pages k :=
    fun k hk => Function.update_of_ne (by omega) _ _
  constructor
  · intro h
    refine ⟨fun k hpos hle => ?_, ?_⟩
    · rw [← hold k hle]
      exact h k hpos (Nat.le_succ_of_le hle)
    · rw [← hlast]
      exact h _ (Nat.succ_pos _) (Nat.le_refl _)
  · rintro ⟨h, hpage⟩ k hpos hle
    rcases Nat.of_le_succ hle with hle | rfl
    · rw [hold k hle]
      exact h k hpos hle
    · rw [hlast]
      exact hpage

theorem MmStruct.tabled_addTable (r : Nat × Bool) : (t.addTable r).Tabled ↔ t.Tabled ∧ (r.2 = true → r.1 ≠ 0) := by
  unfold addTable
  split
  · next h => rw [tabled_addKernelPage, imp_iff_right h]
  · next h => exact (and_iff_left fun h' => absurd h' h).symm

theorem MmStruct.addUserPage_tabled {p : UserPage} (h : t.addUserPage p = .ok t') : t'.Tabled ↔ t.Tabled := by
  unfold addUserPage at h
  split at h
  · cases h
    exact Iff.rfl
  · cases h

theorem mapRoot_tabled (t : MmStruct) (mm : Mm) :
    (mapRoot t mm).1.Tabled ↔ t.Tabled ∧ (t.pgd = 0 → (get_free_page mm).1 ≠ 0) := by
  unfold mapRoot
  split
  · next h =>
    rw [imp_iff_right h]
    exact MmStruct.tabled_addKernelPage (t := { t with pgd := _ }) _
  · next h => exact (and_iff_left fun h' => absurd h' h).symm

/-- A failed allocation stays noted. -/
theorem map_page_tabled {va page : Nat} {mm mm' : Mm} (h : map_page t va page mm = .ok (t', mm')) (ht : t'.Tabled) : t.Tabled := by
  rw [map_page_eq rfl rfl rfl] at h
  generalize map_table (kernelAddr (mapRoot t mm).1.pgd) PGD_SHIFT va (mapRoot t mm).2 = r₁ at h
  generalize map_table (kernelAddr r₁.1.1) PUD_SHIFT va r₁.2 = r₂ at h
  generalize map_table (kernelAddr r₂.1.1) PMD_SHIFT va r₂.2 = r₃ at h
  obtain ⟨t₁, hadd, h⟩ := bind_ok h
  cases h
  rw [MmStruct.addUserPage_tabled hadd, MmStruct.tabled_addTable, MmStruct.tabled_addTable, MmStruct.tabled_addTable,
    mapRoot_tabled] at ht
  exact ht.1.1.1.1

end Tabled

/-- A call that returns has had room to note the page. -/
theorem map_page_count {t : MmStruct} {va page : Nat} {mm : Mm} {r : MmStruct × Mm} (h : map_page t va page mm = .ok r) :
    t.user_pages_count < MAX_PROCESS_PAGES := by
  rw [map_page_eq rfl rfl rfl] at h
  obtain ⟨t', hadd, -⟩ := bind_ok h
  rw [← (addTables_spec t mm _ _ _).2.1]
  by_contra hfull
  rw [MmStruct.addUserPage, dif_neg hfull] at hadd
  cases hadd

theorem map_page_user_count {t t' : MmStruct} {va page : Nat} {mm mm' : Mm} (h : map_page t va page mm = .ok (t', mm')) :
    t'.user_pages_count = t.user_pages_count + 1 := by
  have hcount := map_page_count h
  rw [map_page_eq rfl rfl rfl] at h
  obtain ⟨t₁, hadd, h⟩ := bind_ok h
  obtain rfl : t₁ = t' := congrArg Prod.fst (Except.ok.inj h)
  obtain ⟨-, huser⟩ := addTables_spec t mm _ _ _
  obtain ⟨t₂, hadd', -, hlast, -⟩ := MmStruct.addUserPage_eq (huser.1 ▸ hcount) ⟨page, va⟩
  rw [hadd'] at hadd
  cases hadd
  rw [hlast, ← huser.1]

namespace PageTree

variable {mm mm' : Mm} {pgd : Nat} {place : List (Fin 512) → Fin PAGING_PAGES} {N : Finset (List (Fin 512))}
  {leaf : List (Fin 512) → Option (Fin PAGING_PAGES)} {n : List (Fin 512)} {x : Fin 512} {j d : Fin PAGING_PAGES}

theorem nil (mm : Mm) (place : List (Fin 512) → Fin PAGING_PAGES) : PageTree mm 0 place ∅ fun _ => none :=
  ⟨.nil .., rfl, by simp, by simp, fun _ _ _ => rfl⟩

theorem keep (h : PageTree mm pgd place N leaf) (hle : mm.Le mm')
    (hbyte : ∀ n ∈ N, ∀ o < 4096, mm'.byte (place n) o = mm.byte (place n) o) : PageTree mm' pgd place N leaf := by
  refine ⟨h.stored.congr fun n hn _ x => Mm.entry_congr (hbyte n hn) x.isLt, h.root, fun n hn => hle _ (h.used n hn),
    fun n hn hl x => ?_, h.bare⟩
  rw [Mm.entry_congr (hbyte n hn) x.isLt]
  exact h.leaves n hn hl x

/-- A free page holds no table. -/
theorem place_ne (h : PageTree mm pgd place N leaf) (hj : mm.mem_map j = 0) : ∀ n ∈ N, place n ≠ j := by
  rintro n hn rfl
  exact h.used n hn hj

theorem take (h : PageTree mm pgd place N leaf) (hj : mm.mem_map j = 0) : PageTree (mm.take j) pgd place N leaf := by
  refine h.keep (Mm.le_take mm j) fun n hn o ho => ?_
  rw [Mm.byte_take ho, if_neg (h.place_ne hj n hn)]

/-- Pages can be taken until as many are free as is said. -/
theorem exists_free (h : PageTree mm pgd place N leaf) {n : Nat} (hn : n ≤ mm.free) :
    ∃ mm', PageTree mm' pgd place N leaf ∧ mm'.free = n := by
  induction hd : mm.free - n generalizing mm with
  | zero => exact ⟨mm, h, by omega⟩
  | succ d ih =>
    have hsome : ¬ ∀ i, mm.mem_map i ≠ 0 := fun hall => by
      have := Mm.free_eq_zero.2 hall
      omega
    obtain ⟨j, hj⟩ := not_forall_not.1 hsome
    have hfree := Mm.free_take hj
    exact ih (h.take hj) (by omega) (by omega)

/-- The table at the top. -/
theorem addRoot (h : PageTree mm pgd place ∅ leaf) (hj : mm.mem_map j = 0) :
    PageTree (mm.take j) (physAddr j) (Function.update place [] j) {[]} leaf ∧
      Grown mm (mm.take j) place ∅ (Function.update place [] j) {[]} := by
  have hroot : Function.update place [] j [] = j := Function.update_self ..
  refine ⟨⟨.root fun x => ?_, ?_, fun n hn => ?_, fun n hn hl => ?_, fun n _ => h.bare n (Finset.notMem_empty n)⟩,
    .take hj fun n hn => .inr ?_⟩
  · show (mm.take j).entry _ _ = _
    rw [Mm.entry_take x.isLt, if_pos rfl]
  · rw [if_pos (Finset.mem_singleton_self _), hroot]
  · rw [Finset.mem_singleton.1 hn, hroot]
    exact Mm.take_used mm j
  · rw [Finset.mem_singleton.1 hn] at hl
    cases hl
  · rw [Finset.mem_singleton.1 hn, hroot]

/-- A table below that at `n`, in a page just taken. -/
theorem addTable (h : PageTree mm pgd place N leaf) (hj : mm.mem_map j = 0) (hn : n ∈ N) (hlen : n.length < 3) (hx : n ++ [x] ∉ N) :
    PageTree ((mm.take j).setEntry (place n) x (enc n.length j)) pgd (Function.update place (n ++ [x]) j) (insert (n ++ [x]) N) leaf ∧
      Grown mm ((mm.take j).setEntry (place n) x (enc n.length j)) place N (Function.update place (n ++ [x]) j)
        (insert (n ++ [x]) N) := by
  have hne := h.place_ne hj
  have htake := h.take hj
  have hold : ∀ m ∈ N, Function.update place (n ++ [x]) j m = place m := by
    intro m hm
    refine Function.update_of_ne ?_ _ _
    rintro rfl
    exact hx hm
  have hnew : Function.update place (n ++ [x]) j (n ++ [x]) = j := Function.update_self ..
  have hzero : ∀ y : Fin 512, ((mm.take j).setEntry (place n) x (enc n.length j)).entry j y = 0 := by
    intro y
    rw [Mm.entry_setEntry (enc_lt _ _) x.isLt y.isLt, if_neg fun hp => hne n hn hp.1.symm, Mm.entry_take y.isLt, if_pos rfl]
  refine ⟨⟨htake.stored.insert hn hx hne (fun _ => ?_) (fun m hm _ y hy => ?_) (fun _ => hzero), ?_, fun m hm => ?_,
    fun m hm hl y => ?_, fun m hm y => h.bare m (fun hmN => hm (Finset.mem_insert_of_mem hmN)) y⟩, ?_⟩
  · exact (Mm.entry_setEntry (enc_lt _ _) x.isLt x.isLt).trans (if_pos ⟨rfl, rfl⟩)
  · show (Mm.setEntry _ _ _ _).entry _ _ = _
    rw [Mm.entry_setEntry (enc_lt _ _) x.isLt y.isLt, if_neg]
    rintro ⟨hp, hyx⟩
    exact hy ⟨h.stored.inj m hm n hn hp, Fin.ext hyx⟩
  · rw [h.root]
    have hroot := h.stored.nil_mem hn
    rw [if_pos hroot, if_pos (Finset.mem_insert_of_mem hroot), hold _ hroot]
  · rcases Finset.mem_insert.1 hm with rfl | hm
    · rw [hnew]
      exact Mm.take_used mm j
    · rw [hold m hm]
      exact htake.used m hm
  · rcases Finset.mem_insert.1 hm with rfl | hm
    · rw [hnew, hzero, h.bare _ hx]
      rfl
    · have hmn : place m ≠ place n := by
        intro hp
        rw [h.stored.inj m hm n hn hp] at hl
        omega
      rw [hold m hm, Mm.entry_setEntry (enc_lt _ _) x.isLt y.isLt, if_neg fun hp => hmn hp.1]
      exact htake.leaves m hm hl y
  · have hplaces : ∀ m ∈ insert (n ++ [x]) N, m ∈ N ∧ Function.update place (n ++ [x]) j m = place m ∨
        Function.update place (n ++ [x]) j m = j := by
      intro m hm
      rcases Finset.mem_insert.1 hm with rfl | hm
      · exact .inr hnew
      · exact .inl ⟨hm, hold m hm⟩
    have hset : Grown (mm.take j) ((mm.take j).setEntry (Function.update place (n ++ [x]) j n) x (enc n.length j))
        (Function.update place (n ++ [x]) j) (insert (n ++ [x]) N) (Function.update place (n ++ [x]) j) (insert (n ++ [x]) N) :=
      .setEntry (Finset.mem_insert_of_mem hn) x _
    rw [hold n hn] at hset
    exact (Grown.take hj hplaces).trans hset

/-- An entry of the last level: the page it leads to, whatever was there. -/
theorem setLeaf (h : PageTree mm pgd place N leaf) (hn : n ∈ N) (hlen : n.length = 3) (x : Fin 512) (d : Fin PAGING_PAGES) :
    PageTree (mm.setEntry (place n) x (enc 3 d)) pgd place N (Function.update leaf (n ++ [x]) (some d)) := by
  refine ⟨h.stored.congr fun m hm hd y => ?_, h.root, h.used, fun m hm hl y => ?_, fun m hm y => ?_⟩
  · rw [Mm.entry_setEntry (enc_lt _ _) x.isLt y.isLt, if_neg]
    rintro ⟨hp, -⟩
    rw [h.stored.inj m hm n hn hp] at hd
    omega
  · rw [Mm.entry_setEntry (enc_lt _ _) x.isLt y.isLt]
    by_cases hmy : m ++ [y] = n ++ [x]
    · obtain ⟨rfl, hyx⟩ := List.append_inj' hmy rfl
      rw [hmy, Function.update_self, if_pos ⟨rfl, congrArg Fin.val (List.cons.inj hyx).1⟩]
      rfl
    · rw [Function.update_of_ne hmy, if_neg]
      · exact h.leaves m hm hl y
      · rintro ⟨hp, hyx⟩
        exact hmy (by rw [h.stored.inj m hm n hn hp, Fin.ext hyx])
  · rw [Function.update_of_ne]
    · exact h.bare m hm y
    · intro hmy
      rw [(List.append_inj' hmy rfl).1] at hm
      exact hm hn

/-! ## `map_page` -/

/-- The next table is there, or a free page becomes it, or there is none. -/
theorem map_table (h : PageTree mm pgd place N leaf) (hn : n ∈ N) (hlen : n.length < 3) {va shift : Nat} {m : List (Fin 512)}
    (hm : m = n ++ [entryIndex va shift]) {r : (Nat × Bool) × Mm}
    (hr : ClbFilesystem.map_table (kernelAddr (physAddr (place n))) shift va mm = r) :
    (∃ place' N', r.1.1 = physAddr (place' m) ∧ m ∈ N' ∧ PageTree r.2 pgd place' N' leaf ∧ Grown mm r.2 place N place' N' ∧
      mm.free ≤ r.2.free + 1) ∨
    mm.free = 0 ∧ r.1 = (0, true) := by
  subst hm
  have hedge : mm.entry (place n) (tableIndex va shift) =
      if n ++ [entryIndex va shift] ∈ N then enc n.length (place (n ++ [entryIndex va shift])) else 0 :=
    h.stored.edge n hn hlen (entryIndex va shift)
  rw [kernelAddr_physAddr, map_table_eq, Mm.readEntry_eq, hedge] at hr
  by_cases hmem : n ++ [entryIndex va shift] ∈ N
  · rw [if_pos hmem, if_neg (enc_ne_zero _ _), enc_page] at hr
    subst hr
    exact .inl ⟨place, N, rfl, hmem, h, .refl .., Nat.le_succ _⟩
  · rw [if_neg hmem, if_pos rfl] at hr
    rcases get_free_page_cases mm with ⟨j, hj, hget⟩ | ⟨hall, hget⟩
    · have hflags : physAddr j ||| MM_TYPE_PAGE_TABLE = enc n.length j := by
        unfold enc
        rw [if_pos hlen]
      rw [hget, Mm.writeEntry_eq, hflags] at hr
      subst hr
      obtain ⟨htree, hgrown⟩ := h.addTable hj hn hlen hmem
      refine .inl ⟨_, _, ?_, Finset.mem_insert_self _ _, htree, hgrown, (Mm.free_take hj).ge⟩
      rw [Function.update_self]
    · rw [hget] at hr
      subst hr
      exact .inr ⟨Mm.free_eq_zero.2 hall, rfl⟩

/-- The table at the top is there, or a free page becomes it, or there is none. -/
theorem mapRoot {t : MmStruct} (h : PageTree mm t.pgd place N leaf) :
    (∃ place' N', PageTree (ClbFilesystem.mapRoot t mm).2 (physAddr (place' [])) place' N' leaf ∧
      (ClbFilesystem.mapRoot t mm).1.pgd = physAddr (place' []) ∧ [] ∈ N' ∧
      Grown mm (ClbFilesystem.mapRoot t mm).2 place N place' N' ∧ mm.free ≤ (ClbFilesystem.mapRoot t mm).2.free + 1 ∧
      (t.Tabled → (ClbFilesystem.mapRoot t mm).1.Tabled)) ∨
    mm.free = 0 ∧ ¬ (ClbFilesystem.mapRoot t mm).1.Tabled := by
  by_cases hroot : [] ∈ N
  · have hpgd : t.pgd = physAddr (place []) := by rw [h.root, if_pos hroot]
    have heq : ClbFilesystem.mapRoot t mm = (t, mm) := by
      unfold ClbFilesystem.mapRoot
      rw [if_neg]
      rw [hpgd]
      exact (physAddr_pos _).ne'
    rw [heq]
    rw [hpgd] at h
    exact .inl ⟨place, N, h, hpgd, hroot, .refl .., Nat.le_succ _, id⟩
  · have hpgd : t.pgd = 0 := by rw [h.root, if_neg hroot]
    obtain rfl : N = ∅ := by
      refine Finset.eq_empty_of_forall_notMem fun n hn => hroot ?_
      exact h.stored.nil_mem hn
    rw [mapRoot_tabled, imp_iff_right hpgd]
    rcases get_free_page_cases mm with ⟨j, hj, hget⟩ | ⟨hall, hget⟩
    · have heq : ClbFilesystem.mapRoot t mm = (({ t with pgd := physAddr j } : MmStruct).addKernelPage (physAddr j), mm.take j) := by
        unfold ClbFilesystem.mapRoot
        rw [if_pos hpgd, hget]
      obtain ⟨htree, hgrown⟩ := h.addRoot hj
      have hself : Function.update place [] j [] = j := Function.update_self ..
      rw [heq, hget]
      refine .inl ⟨_, _, ?_, ?_, Finset.mem_singleton_self _, hgrown, (Mm.free_take hj).ge, fun ht => ⟨ht, (physAddr_pos j).ne'⟩⟩
      · rw [hself]
        exact htree
      · rw [hself]
        rfl
    · rw [hget]
      exact .inr ⟨Mm.free_eq_zero.2 hall, fun ht => ht.2 rfl⟩

/-- The call leads the address to the page, or there are not enough pages for its tables, and 0 is noted for one. -/
theorem map_page {t : MmStruct} (h : PageTree mm t.pgd place N leaf) (hcount : t.user_pages_count < MAX_PROCESS_PAGES) (va : Nat)
    (d : Fin PAGING_PAGES) : ∃ t' mm', ClbFilesystem.map_page t va (physAddr d) mm = .ok (t', mm') ∧
      ((∃ place' N', PageTree mm' t'.pgd place' N' (Function.update leaf (tablePath va) (some d)) ∧ Grown mm mm' place N place' N' ∧
        (t.Tabled → t'.Tabled) ∧ mm.free ≤ mm'.free + 4) ∨
      mm.free < 4 ∧ ¬ t'.Tabled) := by
  -- The words on the way.
  obtain ⟨n₁, hn₁⟩ : ∃ n, n = [] ++ [entryIndex va PGD_SHIFT] := ⟨_, rfl⟩
  obtain ⟨n₂, hn₂⟩ : ∃ n, n = n₁ ++ [entryIndex va PUD_SHIFT] := ⟨_, rfl⟩
  obtain ⟨n₃, hn₃⟩ : ∃ n, n = n₂ ++ [entryIndex va PMD_SHIFT] := ⟨_, rfl⟩
  have hpath : tablePath va = n₃ ++ [entryIndex va PAGE_SHIFT] := by rw [hn₃, hn₂, hn₁]; rfl
  have hlen₃ : n₃.length = 3 := by rw [hn₃, hn₂, hn₁]; rfl
  -- The call returns whatever it finds.
  obtain ⟨r₁, hr₁⟩ : ∃ r, ClbFilesystem.map_table (kernelAddr (ClbFilesystem.mapRoot t mm).1.pgd) PGD_SHIFT va
    (ClbFilesystem.mapRoot t mm).2 = r := ⟨_, rfl⟩
  obtain ⟨r₂, hr₂⟩ : ∃ r, ClbFilesystem.map_table (kernelAddr r₁.1.1) PUD_SHIFT va r₁.2 = r := ⟨_, rfl⟩
  obtain ⟨r₃, hr₃⟩ : ∃ r, ClbFilesystem.map_table (kernelAddr r₂.1.1) PMD_SHIFT va r₂.2 = r := ⟨_, rfl⟩
  obtain ⟨hpgd₃, huser⟩ := addTables_spec t mm r₁.1 r₂.1 r₃.1
  obtain ⟨t', hadd, hpgd', -⟩ := MmStruct.addUserPage_eq (huser.1 ▸ hcount) ⟨physAddr d, va⟩
  refine ⟨t', map_table_entry (kernelAddr r₃.1.1) va (physAddr d) r₃.2, by rw [map_page_eq hr₁ hr₂ hr₃, hadd, ok_bind], ?_⟩
  rw [MmStruct.addUserPage_tabled hadd, MmStruct.tabled_addTable, MmStruct.tabled_addTable, MmStruct.tabled_addTable]
  rcases h.mapRoot with ⟨place₀, N₀, h₀, hpgd, hmem₀, hg₀, hfree₀, ht₀⟩ | ⟨hfree, ht⟩
  swap
  · exact .inr ⟨by omega, fun htabled => ht htabled.1.1.1⟩
  rw [hpgd] at hr₁ hpgd₃
  rcases h₀.map_table hmem₀ (by simp) hn₁ hr₁ with ⟨place₁, N₁, hnext₁, hmem₁, h₁, hg₁, hfree₁⟩ | ⟨hfree, hnext₁⟩
  swap
  · exact .inr ⟨by omega, fun htabled => htabled.1.1.2 (by rw [hnext₁]) (by rw [hnext₁])⟩
  rw [hnext₁] at hr₂
  rcases h₁.map_table hmem₁ (by simp [hn₁]) hn₂ hr₂ with ⟨place₂, N₂, hnext₂, hmem₂, h₂, hg₂, hfree₂⟩ | ⟨hfree, hnext₂⟩
  swap
  · exact .inr ⟨by omega, fun htabled => htabled.1.2 (by rw [hnext₂]) (by rw [hnext₂])⟩
  rw [hnext₂] at hr₃
  rcases h₂.map_table hmem₂ (by simp [hn₂, hn₁]) hn₃ hr₃ with ⟨place₃, N₃, hnext₃, hmem₃, h₃, hg₃, hfree₃⟩ | ⟨hfree, hnext₃⟩
  swap
  · exact .inr ⟨by omega, fun htabled => htabled.2 (by rw [hnext₃]) (by rw [hnext₃])⟩
  -- The last entry leads to the page.
  have hentry : map_table_entry (kernelAddr r₃.1.1) va (physAddr d) r₃.2 =
      r₃.2.setEntry (place₃ n₃) (entryIndex va PAGE_SHIFT) (enc 3 d) := by
    rw [hnext₃, kernelAddr_physAddr, map_table_entry, Mm.writeEntry_eq, enc, if_neg (Nat.lt_irrefl 3)]
    rfl
  have hset : Grown r₃.2 (r₃.2.setEntry (place₃ n₃) (entryIndex va PAGE_SHIFT) (enc 3 d)) place₃ N₃ place₃ N₃ :=
    .setEntry hmem₃ (entryIndex va PAGE_SHIFT) (enc 3 d)
  rw [hentry]
  refine .inl ⟨place₃, N₃, ?_, hg₀.trans (hg₁.trans (hg₂.trans (hg₃.trans hset))),
    fun ht => ⟨⟨⟨ht₀ ht, fun _ => ?_⟩, fun _ => ?_⟩, fun _ => ?_⟩, ?_⟩
  · rw [hpgd', hpgd₃, hpath]
    exact h₃.setLeaf hmem₃ hlen₃ _ d
  · rw [hnext₁]
    exact (physAddr_pos _).ne'
  · rw [hnext₂]
    exact (physAddr_pos _).ne'
  · rw [hnext₃]
    exact (physAddr_pos _).ne'
  · have hfree : (r₃.2.setEntry (place₃ n₃) (entryIndex va PAGE_SHIFT) (enc 3 d)).free = r₃.2.free := rfl
    omega

end PageTree

end ClbFilesystem
