import ClbFilesystem.Os
/-!
# What each page is for

Every page handed out is given one use: the content of a file, a task with its
stack, a page table, or memory of a process. The uses are a function of the page,
so that no page has two of them. Here is what the operations on page tables do to
them; what a whole step does is in `Isolation`.
-/

namespace ClbFilesystem

open Lib

/-- Tables and pages of a process come with its task and with the indices that lead there. -/
inductive Use where
  | block
  | task
  | table (p : TaskPtr) (n : List (Fin 512))
  | user (p : TaskPtr) (n : List (Fin 512))

/-- The tables of a task: their pages, and the pages mapped. -/
structure Tables where
  place : List (Fin 512) → Fin PAGING_PAGES
  nodes : Finset (List (Fin 512))
  leaf : List (Fin 512) → Option (Fin PAGING_PAGES)

/-- Page `i` holds one of the tables. -/
def Tables.Has (t : Tables) (i : Fin PAGING_PAGES) : Prop := ∃ n ∈ t.nodes, t.place n = i

abbrev PageUse := Fin PAGING_PAGES → Option Use

/-- The tables of the tasks, in memory, are `T`, and the uses of the pages say so. -/
structure Uses (mm : Mm) (mms : TaskPtr → MmStruct) (use : PageUse) (T : TaskPtr → Tables) : Prop where
  taken : ∀ i, use i ≠ none → mm.mem_map i ≠ 0
  tree : ∀ p, PageTree mm (mms p).pgd (T p).place (T p).nodes (T p).leaf
  table : ∀ p, ∀ n ∈ (T p).nodes, use ((T p).place n) = some (.table p n)
  user : ∀ p n i, (T p).leaf n = some i → use i = some (.user p n)

/-- Pages in use keep their use, and their bytes if they are not in `W`. -/
structure Kept (mm : Mm) (use : PageUse) (mm' : Mm) (use' : PageUse) (W : Fin PAGING_PAGES → Prop) : Prop where
  same : ∀ i, use i ≠ none → use' i = use i
  le : mm.Le mm'
  bytes : ∀ i, use i ≠ none → ¬ W i → ∀ o < 4096, mm'.byte i o = mm.byte i o

section Kept
variable {mm mm' mm'' : Mm} {use use' use'' : PageUse} {W W' : Fin PAGING_PAGES → Prop}

theorem Kept.refl (mm : Mm) (use : PageUse) (W : Fin PAGING_PAGES → Prop) : Kept mm use mm use W :=
  ⟨fun _ _ => rfl, .refl mm, fun _ _ _ _ _ => rfl⟩

theorem Kept.mono (h : Kept mm use mm' use' W) (hW : ∀ i, use i ≠ none → W i → W' i) : Kept mm use mm' use' W' :=
  ⟨h.same, h.le, fun i hi hw => h.bytes i hi fun hW' => hw (hW i hi hW')⟩

/-- Of what the second step writes, pages in use before the first count only. -/
theorem Kept.trans (h : Kept mm use mm' use' W) (h' : Kept mm' use' mm'' use'' W') (hW : ∀ i, use i ≠ none → W' i → W i) :
    Kept mm use mm'' use'' W := by
  have hused : ∀ i, use i ≠ none → use' i ≠ none := by
    intro i hi
    rw [h.same i hi]
    exact hi
  refine ⟨fun i hi => (h'.same i (hused i hi)).trans (h.same i hi), h.le.trans h'.le, fun i hi hw o ho => ?_⟩
  rw [h'.bytes i (hused i hi) (fun hw' => hw (hW i hi hw')) o ho, h.bytes i hi hw o ho]

end Kept

section Uses
variable {mm mm' : Mm} {mms : TaskPtr → MmStruct} {use : PageUse} {T : TaskPtr → Tables} {p : TaskPtr} {j d : Fin PAGING_PAGES}

/-- A free page has no use. -/
theorem Uses.free (h : Uses mm mms use T) (hj : mm.mem_map j = 0) : use j = none := by
  by_contra hne
  exact h.taken j hne hj

/-- A free page is taken for a use. -/
theorem Uses.take (h : Uses mm mms use T) (hj : mm.mem_map j = 0) (u : Use) :
    Uses (mm.take j) mms (Function.update use j (some u)) T ∧
      Kept mm use (mm.take j) (Function.update use j (some u)) fun _ => False := by
  have hfree := h.free hj
  have hne : ∀ i, use i ≠ none → i ≠ j := by
    rintro i hi rfl
    exact hi hfree
  refine ⟨⟨fun i hi => ?_, fun p => (h.tree p).take hj, fun p n hn => ?_, fun p n i hi => ?_⟩,
    ⟨fun i hi => Function.update_of_ne (hne i hi) _ _, Mm.le_take mm j, fun i hi _ o ho => ?_⟩⟩
  · by_cases hij : i = j
    · rw [hij]
      exact Mm.take_used mm j
    · rw [Function.update_of_ne hij] at hi
      exact Mm.le_take mm j i (h.taken i hi)
  · rw [Function.update_of_ne ((h.tree p).place_ne hj n hn)]
    exact h.table p n hn
  · have huse := h.user p n i hi
    rw [Function.update_of_ne (hne i (by rw [huse]; exact Option.some_ne_none _))]
    exact huse
  · rw [Mm.byte_take ho, if_neg (hne i hi)]

/-- Memory is written, but for the tables. -/
theorem Uses.write (h : Uses mm mms use T) {mem : Mem}
    (hm : ∀ p i, (T p).Has i → ∀ o < 4096, mem (pageAddr i + o) = mm.byte i o) : Uses { mm with mem := mem } mms use T :=
  ⟨h.taken, fun p => (h.tree p).keep (fun _ hi => hi) fun n hn o ho => hm p _ ⟨n, hn, rfl⟩ o ho, h.table, h.user⟩

/-- A task that has no tables. -/
theorem Uses.reset (h : Uses mm mms use T) (p : TaskPtr) {t : MmStruct} (ht : t.pgd = 0) :
    Uses mm (Function.update mms p t) use (Function.update T p ⟨(T p).place, ∅, fun _ => none⟩) := by
  refine ⟨h.taken, fun q => ?_, fun q n hn => ?_, fun q n i hi => ?_⟩
  · by_cases hq : q = p
    · subst hq
      rw [Function.update_self, Function.update_self, ht]
      exact .nil mm _
    · rw [Function.update_of_ne hq, Function.update_of_ne hq]
      exact h.tree q
  · by_cases hq : q = p
    · subst hq
      rw [Function.update_self] at hn
      exact absurd hn (Finset.notMem_empty n)
    · rw [Function.update_of_ne hq] at hn ⊢
      exact h.table q n hn
  · by_cases hq : q = p
    · subst hq
      rw [Function.update_self] at hi
      cases hi
    · rw [Function.update_of_ne hq] at hi
      exact h.user q n i hi

/-- The uses after the tables of task `p` have become `t`. -/
noncomputable def PageUse.grow (use : PageUse) (p : TaskPtr) (t : Tables) : PageUse := fun i =>
  open Classical in if h : t.Has i then some (.table p h.choose) else use i

theorem PageUse.grow_place (use : PageUse) (p : TaskPtr) {t : Tables}
    (hinj : ∀ m ∈ t.nodes, ∀ n ∈ t.nodes, t.place m = t.place n → m = n) {n : List (Fin 512)} (hn : n ∈ t.nodes) :
    use.grow p t (t.place n) = some (.table p n) := by
  have hhas : t.Has (t.place n) := ⟨n, hn, rfl⟩
  obtain ⟨hmem, hplace⟩ := hhas.choose_spec
  unfold grow
  rw [dif_pos hhas, hinj _ hmem n hn hplace]

theorem PageUse.grow_of_not (use : PageUse) (p : TaskPtr) {t : Tables} {i : Fin PAGING_PAGES} (hi : ¬ t.Has i) :
    use.grow p t i = use i := dif_neg hi

/-- What it takes to map page `d` for task `p`: the pages in use stay what they are, and of these only tables of the task
are written. -/
structure Mapping (mm : Mm) (use : PageUse) (T : TaskPtr → Tables) (p : TaskPtr) (n : List (Fin 512)) (d : Fin PAGING_PAGES)
    (mm' : Mm) (use' : PageUse) (T' : TaskPtr → Tables) : Prop where
  kept : Kept mm use mm' use' (T p).Has
  tables : ∀ i, (T' p).Has i → (T p).Has i ∨ use i = none
  others : ∀ q, q ≠ p → T' q = T q
  leaf : (T' p).leaf = Function.update (T p).leaf n (some d)

theorem Uses.map_page (h : Uses mm mms use T) {va : Nat} {t : MmStruct} (hd : use d = some (.user p (tablePath va)))
    (hmap : map_page (mms p) va (physAddr d) mm = .ok (t, mm')) (htabled : t.Tabled) :
    ∃ use' T', Uses mm' (Function.update mms p t) use' T' ∧ Mapping mm use T p (tablePath va) d mm' use' T' := by
  obtain ⟨t₁, mm₁, hmap', hcases⟩ := (h.tree p).map_page (map_page_count hmap) va d
  rw [hmap'] at hmap
  cases hmap
  obtain ⟨place', N', htree, hgrown, -⟩ := hcases.resolve_right fun hno => hno.2 htabled
  generalize ht : (⟨place', N', Function.update (T p).leaf (tablePath va) (some d)⟩ : Tables) = t'
  have hnodes : t'.nodes = N' := by rw [← ht]
  have hplace : t'.place = place' := by rw [← ht]
  have hleaf : t'.leaf = Function.update (T p).leaf (tablePath va) (some d) := by rw [← ht]
  have hinj : ∀ m ∈ t'.nodes, ∀ n ∈ t'.nodes, t'.place m = t'.place n → m = n := by
    rw [hnodes, hplace]
    exact htree.stored.inj
  -- A table was one before, or its page was free.
  have hhas : ∀ i, t'.Has i → (T p).Has i ∨ mm.mem_map i = 0 := by
    rintro i ⟨n, hn, rfl⟩
    rw [hplace]
    rw [hnodes] at hn
    rcases hgrown.places n hn with ⟨hold, heq⟩ | hfree
    · exact .inl ⟨n, hold, heq.symm⟩
    · exact .inr hfree
  have huse : ∀ i, use i ≠ none → use.grow p t' i = use i := by
    intro i hi
    by_cases hi' : t'.Has i
    · obtain ⟨n, hn, rfl⟩ := hi'
      rw [PageUse.grow_place use p hinj hn]
      rw [hnodes] at hn
      rw [hplace] at hi ⊢
      rcases hgrown.places n hn with ⟨hold, heq⟩ | hfree
      · rw [heq, h.table p n hold]
      · exact absurd (h.free hfree) hi
    · exact PageUse.grow_of_not use p hi'
  refine ⟨use.grow p t', Function.update T p t', ⟨fun i hi => ?_, fun q => ?_, fun q n hn => ?_, fun q n i hi => ?_⟩,
    ⟨⟨huse, hgrown.le, fun i hi hout o ho => ?_⟩, fun i hi => ?_, fun q hq => Function.update_of_ne hq _ _, ?_⟩⟩
  · by_cases hi' : t'.Has i
    · obtain ⟨n, hn, rfl⟩ := hi'
      rw [hplace]
      rw [hnodes] at hn
      exact htree.used n hn
    · rw [PageUse.grow_of_not use p hi'] at hi
      exact hgrown.le i (h.taken i hi)
  · by_cases hq : q = p
    · subst hq
      rw [Function.update_self, Function.update_self, hnodes, hplace, hleaf]
      exact htree
    · rw [Function.update_of_ne hq, Function.update_of_ne hq]
      refine (h.tree q).keep hgrown.le fun n hn => ?_
      refine hgrown.kept _ ((h.tree q).used n hn) fun m hm heq => hq ?_
      have htable := h.table p m hm
      rw [heq, h.table q n hn] at htable
      exact (Use.table.inj (Option.some.inj htable)).1
  · by_cases hq : q = p
    · subst hq
      rw [Function.update_self] at hn ⊢
      exact PageUse.grow_place use q hinj hn
    · rw [Function.update_of_ne hq] at hn ⊢
      rw [huse _ (by rw [h.table q n hn]; exact Option.some_ne_none _)]
      exact h.table q n hn
  · have hold : use i = some (.user q n) := by
      by_cases hq : q = p
      · subst hq
        rw [Function.update_self, hleaf, Function.update_apply] at hi
        split at hi
        · next hn =>
          cases hi
          rw [hn]
          exact hd
        · exact h.user q n i hi
      · rw [Function.update_of_ne hq] at hi
        exact h.user q n i hi
    rw [huse i (by rw [hold]; exact Option.some_ne_none _)]
    exact hold
  · exact hgrown.kept i (h.taken i hi) (fun n hn heq => hout ⟨n, hn, heq⟩) o ho
  · rw [Function.update_self] at hi
    exact (hhas i hi).imp_right h.free
  · rw [Function.update_self]
    exact hleaf

/-- A free page is taken and mapped. -/
theorem Uses.take_map (h : Uses mm mms use T) (hj : mm.mem_map j = 0) {va : Nat} {t : MmStruct}
    (hmap : ClbFilesystem.map_page (mms p) va (physAddr j) (mm.take j) = .ok (t, mm'))
    (htabled : t.Tabled) :
    ∃ use' T', Uses mm' (Function.update mms p t) use' T' ∧ Mapping mm use T p (tablePath va) j mm' use' T' ∧
      use' j = some (.user p (tablePath va)) ∧ ∀ o < 4096, mm'.byte j o = 0 := by
  obtain ⟨huses, hkept⟩ := h.take hj (.user p (tablePath va))
  have hself : Function.update use j (some (.user p (tablePath va))) j = some (.user p (tablePath va)) := Function.update_self ..
  obtain ⟨use', T', huses', hmapping⟩ := huses.map_page hself hmap htabled
  have hj' : Function.update use j (some (.user p (tablePath va))) j ≠ none := by
    rw [hself]
    exact Option.some_ne_none _
  refine ⟨use', T', huses', ⟨?_, fun i hi => ?_, hmapping.others, hmapping.leaf⟩, ?_, fun o ho => ?_⟩
  · exact (hkept.mono fun _ _ hw => hw.elim).trans hmapping.kept fun _ _ hw => hw
  · refine (hmapping.tables i hi).imp_right fun hnone => ?_
    by_cases hij : i = j
    · subst hij
      exact absurd hnone hj'
    · rwa [Function.update_of_ne hij] at hnone
  · rw [hmapping.kept.same j hj', hself]
  · rw [hmapping.kept.bytes j hj' (fun ⟨n, hn, hplace⟩ => ?_) o ho, Mm.byte_take ho, if_pos rfl]
    have htable := huses.table p n hn
    rw [hplace, hself] at htable
    cases Option.some.inj htable

theorem Uses.allocate_user_page (h : Uses mm mms use T) {va a : Nat} {t : MmStruct}
    (halloc : ClbFilesystem.allocate_user_page (mms p) va mm = .ok (a, t, mm')) (htabled : t.Tabled) :
    a = 0 ∧ t = mms p ∧ mm' = mm ∨ ∃ (j : Fin PAGING_PAGES) (use' : PageUse) (T' : TaskPtr → Tables), a = pageAddr j ∧ mm.mem_map j = 0 ∧
      Uses mm' (Function.update mms p t) use' T' ∧ Mapping mm use T p (tablePath va) j mm' use' T' ∧
      use' j = some (.user p (tablePath va)) := by
  unfold ClbFilesystem.allocate_user_page at halloc
  rcases get_free_page_cases mm with ⟨j, hj, hget⟩ | ⟨-, hget⟩
  · rw [hget] at halloc
    simp only [if_neg (physAddr_pos j).ne'] at halloc
    obtain ⟨⟨t₁, mm₁⟩, hmap, halloc⟩ := bind_ok halloc
    cases halloc
    obtain ⟨use', T', huses, hmapping, hj', -⟩ := h.take_map hj hmap htabled
    exact .inr ⟨j, use', T', physAddr_add j, hj, huses, hmapping, hj'⟩
  · rw [hget] at halloc
    cases halloc
    exact .inl ⟨rfl, rfl, rfl⟩

/-- A page in use for memory of a process is written. -/
theorem Uses.fill (h : Uses mm mms use T) {n : List (Fin 512)} (hj : use j = some (.user p n)) {mem : Mem}
    (hm : ∀ a, a < pageAddr j ∨ pageAddr j + 4096 ≤ a → mem a = mm.mem a) :
    Uses { mm with mem := mem } mms use T ∧ Kept mm use { mm with mem := mem } use (· = j) := by
  have hbyte : ∀ i, i ≠ j → ∀ o < 4096, mem (pageAddr i + o) = mm.byte i o := by
    intro i hij o ho
    have hval : i.val ≠ j.val := fun heq => hij (Fin.ext heq)
    refine hm _ ?_
    simp only [pageAddr_eq]
    omega
  refine ⟨h.write fun q i hi => ?_, ⟨fun _ _ => rfl, fun _ hi => hi, fun i _ hij => hbyte i hij⟩⟩
  refine hbyte i ?_
  rintro rfl
  obtain ⟨m, hmem, rfl⟩ := hi
  rw [h.table q m hmem] at hj
  cases Option.some.inj hj

end Uses

/-! ## A copy of the memory of a process -/

/-- `memcpy` from a user address changes nothing outside the words it stores. -/
theorem memcpy_user_outside {pgd : Nat} {m m' : Mem} {x0 x1 : Nat} {x2 : Int} (h : memcpy_user pgd m x0 x1 x2 = .ok m') {a : Nat}
    (ha : a < x1 ∨ x1 + words x2 ≤ a) : m' a = m a := by
  induction hn : x2.toNat using Nat.strong_induction_on generalizing m x0 x1 x2 with
  | _ n ih =>
    have hpos := words_pos x2
    have hstep : memcpy_user pgd m x0 x1 x2 = (copy8_user pgd m x0 x1).bind fun m =>
        if 0 < x2 - 8 then memcpy_user pgd m (x0 + 8) (x1 + 8) (x2 - 8) else .ok m := by
      rw [memcpy_user]
      rfl
    rw [hstep] at h
    obtain ⟨m₁, hcopy, h⟩ := bind_ok h
    have hword : m₁ a = m a := by
      unfold copy8_user at hcopy
      split at hcopy
      · cases hcopy
      · cases hcopy
        exact Mem.copy_outside (by omega)
    split at h
    · next hlt =>
      rw [words_succ (by omega)] at ha
      rw [ih (x2 - 8).toNat (by omega) h (by omega) rfl, hword]
    · cases h
      exact hword

/-- A failed allocation of a table stays noted. -/
theorem allocate_user_page_tabled {va a : Nat} {mm mm' : Mm} {t t' : MmStruct} (h : allocate_user_page t va mm = .ok (a, t', mm'))
    (ht : t'.Tabled) :
    t.Tabled := by
  unfold allocate_user_page at h
  generalize get_free_page mm = x at h
  obtain ⟨page, mm₁⟩ := x
  simp only at h
  split at h
  · cases h
    exact ht
  · obtain ⟨⟨t₁, mm₂⟩, hmap, h⟩ := bind_ok h
    cases h
    exact map_page_tabled hmap ht

theorem copyLoop_tabled {src dst dst' : MmStruct} {n i : Nat} {mm mm' : Mm} {r : Int}
    (h : copyLoop src n i dst mm = .ok (r, dst', mm')) (ht : dst'.Tabled) : dst.Tabled := by
  induction n generalizing i dst mm with
  | zero => cases h
  | succ n ih =>
    unfold copyLoop at h
    split at h
    · split at h
      · obtain ⟨⟨a, dst₁, mm₁⟩, halloc, h⟩ := bind_ok h
        simp only at h
        split at h
        · cases h
          exact allocate_user_page_tabled halloc ht
        · obtain ⟨mem, -, h⟩ := bind_ok h
          exact allocate_user_page_tabled halloc (ih h)
      · cases h
    · cases h
      exact ht

section Copy
variable {mm₀ mm mm' : Mm} {mms : TaskPtr → MmStruct} {use₀ use : PageUse} {T : TaskPtr → Tables} {p : TaskPtr}

/-- The copy takes free pages, and writes in these alone. -/
theorem Uses.copyLoop {src dst dst' : MmStruct} {n i : Nat} {r : Int} (h : Uses mm (Function.update mms p dst) use T)
    (hkept : Kept mm₀ use₀ mm use fun _ => False) (hnew : ∀ i, (T p).Has i → use₀ i = none)
    (hloop : ClbFilesystem.copyLoop src n i dst mm = .ok (r, dst', mm')) (htabled : dst'.Tabled) :
    ∃ use' T', Uses mm' (Function.update mms p dst') use' T' ∧ Kept mm₀ use₀ mm' use' (fun _ => False) ∧ ∀ q, q ≠ p → T' q = T q := by
  induction n generalizing i dst mm use T with
  | zero => cases hloop
  | succ n ih =>
    unfold ClbFilesystem.copyLoop at hloop
    split at hloop
    swap
    · cases hloop
      exact ⟨use, T, h, hkept, fun _ _ => rfl⟩
    split at hloop
    swap
    · cases hloop
    obtain ⟨⟨a, dst₁, mm₁⟩, halloc, hturn⟩ := bind_ok hloop
    clear hloop
    have hself : Function.update mms p dst p = dst := Function.update_self ..
    rw [← hself] at halloc
    have htabled₁ : dst₁.Tabled := by
      simp only at hturn
      split at hturn
      · cases hturn
        exact htabled
      · obtain ⟨mem, -, hrest⟩ := bind_ok hturn
        exact copyLoop_tabled hrest htabled
    rcases h.allocate_user_page halloc htabled₁ with ⟨rfl, hdst, rfl⟩ | ⟨j, use₁, T₁, rfl, hj, huses, hmapping, huse⟩
    · rw [hself] at hdst
      subst hdst
      cases hturn
      exact ⟨use, T, h, hkept, fun _ _ => rfl⟩
    · rw [Function.update_idem] at huses
      simp only [if_neg (pageAddr_ne_zero j)] at hturn
      obtain ⟨mem, hcopy, hrest⟩ := bind_ok hturn
      have hout : ∀ a, a < pageAddr j ∨ pageAddr j + 4096 ≤ a → mem a = mm₁.mem a := fun a ha => memcpy_user_outside hcopy ha
      obtain ⟨hfill, hfilled⟩ := huses.fill huse hout
      -- A page free now had no use at the start.
      have hfree : ∀ i, use i = none → use₀ i = none := by
        intro i hi
        by_contra hne
        rw [← hkept.same i hne] at hne
        exact hne hi
      have hkept₁ : Kept mm₀ use₀ mm₁ use₁ fun _ => False :=
        hkept.trans hmapping.kept fun i hi hhas => hi (hnew i hhas)
      have hkept₂ : Kept mm₀ use₀ { mm₁ with mem := mem } use₁ fun _ => False := by
        refine hkept₁.trans hfilled ?_
        rintro i hi rfl
        exact hi (hfree i (h.free hj))
      obtain ⟨use', T', huses', hkept', hothers⟩ := ih hfill hkept₂
        (fun i hi => (hmapping.tables i hi).elim (hnew i) (hfree i)) hrest
      exact ⟨use', T', huses', hkept', fun q hq => (hothers q hq).trans (hmapping.others q hq)⟩

end Copy

/-! ## Calls of the kernel -/

/-- What the pages of the kernel are for: besides the tables, those of the tasks. -/
structure Kernel.Laid (k : Kernel) (use : PageUse) (T : TaskPtr → Tables) : Prop where
  uses : Uses k.toMm k.mm_struct use T
  tasks : ∀ i (j : Fin PAGING_PAGES), k.task i = some (.page (pageAddr j)) → use j = some .task

/-- The tables of the tasks other than the current one are kept, and so are all pages in use but for those in `W`. -/
structure Kernel.Spared (k : Kernel) (use : PageUse) (T : TaskPtr → Tables) (k' : Kernel) (use' : PageUse) (T' : TaskPtr → Tables)
    (W : Fin PAGING_PAGES → Prop) : Prop where
  laid : k'.Laid use' T'
  kept : Kept k.toMm use k'.toMm use' W
  others : ∀ i q, k.task i = some q → q ≠ k.current → T' q = T q

section Laid
variable {k k' : Kernel} {use use' : PageUse} {T T' : TaskPtr → Tables} {W : Fin PAGING_PAGES → Prop}

theorem Kernel.modTask_mm_struct (k : Kernel) (p : TaskPtr) {f : TaskStruct → TaskStruct} (hf : ∀ t, (f t).mm = t.mm) :
    (k.modTask p f).mm_struct = k.mm_struct := by
  funext q
  unfold Kernel.mm_struct
  rw [Kernel.modTask_task_struct]
  split
  · exact hf _
  · rfl

theorem preempt_disable_mm_struct (k : Kernel) : (preempt_disable k).mm_struct = k.mm_struct :=
  Kernel.modTask_mm_struct k k.current fun _ => rfl

theorem preempt_enable_mm_struct (k : Kernel) : (preempt_enable k).mm_struct = k.mm_struct :=
  Kernel.modTask_mm_struct k k.current fun _ => rfl

theorem Kernel.setMm_mm_struct (k : Kernel) (mm : Mm) (p : TaskPtr) (t : MmStruct) :
    ({ k with toMm := mm }.modTask p ({ · with mm := t })).mm_struct = Function.update k.mm_struct p t := by
  funext q
  unfold Kernel.mm_struct
  rw [Kernel.modTask_task_struct, Function.update_apply]
  split <;> rfl

theorem Kernel.Laid.congr (h : k.Laid use T) (hmm : k'.toMm = k.toMm) (hms : k'.mm_struct = k.mm_struct) (htask : k'.task = k.task) :
    k'.Laid use T := by
  refine ⟨?_, ?_⟩
  · rw [hmm, hms]
    exact h.uses
  · rw [htask]
    exact h.tasks

/-- Only the scheduler has been at work. -/
theorem Kernel.Laid.same (h : k.Laid use T) (hmm : k'.toMm = k.toMm) (hms : k'.mm_struct = k.mm_struct) (htask : k'.task = k.task)
    (W : Fin PAGING_PAGES → Prop) : k.Spared use T k' use T W :=
  ⟨h.congr hmm hms htask, hmm ▸ .refl k.toMm use W, fun _ _ _ _ => rfl⟩

theorem Scheduled.mm_struct (hs : Scheduled k k') : k'.mm_struct = k.mm_struct := by
  funext q
  obtain ⟨c, hc⟩ := hs.task_struct q
  unfold Kernel.mm_struct
  rw [hc]

/-- The new task, which has no tables, gets its memory. -/
theorem Uses.startTask (h : Uses k.toMm k.mm_struct use T) {p : TaskPtr} (hnew : ∀ i, ¬ (T p).Has i) {clone_flags fn arg : Nat}
    (hstart : startTask clone_flags fn arg p k = .ok k') (htabled : ∀ q, (k'.mm_struct q).Tabled) :
    ∃ use' T', Uses k'.toMm k'.mm_struct use' T' ∧ Kept k.toMm use k'.toMm use' (fun _ => False) ∧ ∀ q, q ≠ p → T' q = T q := by
  unfold ClbFilesystem.startTask at hstart
  split at hstart
  · cases hstart
    refine ⟨use, T, ?_, .refl _ _ _, fun _ _ => rfl⟩
    have hms := Kernel.modTask_mm_struct k p
      (f := fun t => { t with cpu_context := { t.cpu_context with x19 := fn, x20 := arg } }) fun _ => rfl
    rw [hms]
    exact h
  · obtain ⟨⟨ret, t, mm⟩, hcopy, hstart⟩ := bind_ok hstart
    cases hstart
    have hself : Function.update k.mm_struct p (k.mm_struct p) = k.mm_struct := Function.update_eq_self ..
    rw [← hself] at h
    obtain ⟨use', T', huses, hkept, hothers⟩ := h.copyLoop (.refl _ _ _) (fun i hi => absurd hi (hnew i)) hcopy (by
      have hmm := htabled p
      rwa [Kernel.setMm_mm_struct, Function.update_self] at hmm)
    refine ⟨use', T', ?_, hkept, hothers⟩
    rw [Kernel.setMm_mm_struct]
    exact huses

theorem publish_mm_struct {clone_flags : Nat} {p : TaskPtr} {pid : Int} (h : publish clone_flags p k = .ok (pid, k')) :
    k'.mm_struct = k.mm_struct := by
  obtain ⟨-, -, -, -, -, -, -, hts⟩ := publish_spec h
  funext q
  unfold Kernel.mm_struct
  rw [hts]
  split
  · next hq => rw [hq]
  · rfl

/-- A fork takes a page for the task, and then as many as the copy of the memory needs. -/
theorem Kernel.Laid.copyBody (h : k.Laid use T) (hti : TaskInv k) {clone_flags fn arg : Nat} {r : Option Int}
    (hbody : copyBody clone_flags fn arg k = .ok (r, k')) (htabled : ∀ q, (k'.mm_struct q).Tabled) : ∃ use' T', k.Spared use T k' use' T' fun _ => False := by
  rcases allocate_kernel_page_cases k.toMm with ⟨j, hj, halloc⟩ | ⟨hused, -⟩
  swap
  · rcases copyBody_spec hbody with ⟨-, -, rfl⟩ | ⟨j, -, hj, -⟩
    · exact ⟨use, T, h.same rfl rfl rfl _⟩
    · exact absurd hj (hused j)
  rw [copyBody_page halloc] at hbody
  obtain ⟨k₁, hstart, hbody⟩ := bind_ok hbody
  obtain ⟨⟨pid, k₂⟩, hpub, hret⟩ := bind_ok hbody
  cases hret
  -- The page of the task.
  obtain ⟨huses, hkept⟩ := h.uses.take hj .task
  have hreset := huses.reset (.page (pageAddr j)) (t := .zero) rfl
  have hpage : Function.update use j (some .task) j = some .task := Function.update_self ..
  have hfresh : ({ k with toMm := k.toMm.take j }.freshTask (.page (pageAddr j))).mm_struct =
      Function.update k.mm_struct (.page (pageAddr j)) .zero := by
    funext q
    unfold Kernel.mm_struct
    rw [Kernel.freshTask_task_struct, Function.update_apply]
    split <;> rfl
  rw [← hfresh] at hreset
  -- Its memory.
  obtain ⟨use', T', huses', hkept', hothers⟩ := Uses.startTask hreset (p := .page (pageAddr j)) (by
    rintro i ⟨n, hn, -⟩
    rw [Function.update_self] at hn
    exact Finset.notMem_empty n hn) hstart (by rw [← publish_mm_struct hpub]; exact htabled)
  -- Its slot.
  obtain ⟨i, -, -, hmm, htask, -, -, -⟩ := publish_spec hpub
  have hslots : k₁.task = k.task := (startTask_spec hstart).2.1
  have hall : Kept k.toMm use k₁.toMm use' fun _ => False := hkept.trans hkept' fun _ _ hw => hw
  refine ⟨use', T', ⟨?_, fun m l hm => ?_⟩, ?_, fun m q hm _ => ?_⟩
  · rw [publish_mm_struct hpub, hmm]
    exact huses'
  · rw [htask, hslots, Function.update_apply] at hm
    split at hm
    · have heq : j = l := Fin.ext (pageAddr_inj (TaskPtr.page.inj (Option.some.inj hm)))
      rw [← heq, hkept'.same j (by rw [hpage]; exact Option.some_ne_none _), hpage]
    · have hold := h.tasks m l hm
      rw [hall.same l (by rw [hold]; exact Option.some_ne_none _), hold]
  · rw [hmm]
    exact hall
  · have hq : q ≠ .page (pageAddr j) := by
      rintro rfl
      exact hti.fresh hj m hm
    rw [hothers q hq, Function.update_of_ne hq]

theorem Kernel.Laid.copy_process (h : k.Laid use T) (hti : TaskInv k) {clone_flags fn arg : Nat} {pid : Int}
    (hcall : copy_process clone_flags fn arg k = .ok (pid, k')) (htabled : ∀ q, (k'.mm_struct q).Tabled) :
    ∃ use' T', k.Spared use T k' use' T' fun _ => False := by
  have hlaid : (preempt_disable k).Laid use T := h.congr rfl (preempt_disable_mm_struct k) rfl
  have hinv : TaskInv (preempt_disable k) := hti.keep (.refl _) rfl rfl hti.current
  unfold ClbFilesystem.copy_process at hcall
  obtain ⟨⟨r, k₁⟩, hbody, hret⟩ := bind_ok hcall
  cases r with
  | none =>
    cases hret
    obtain ⟨use', T', hspared⟩ := hlaid.copyBody hinv hbody htabled
    exact ⟨use', T', hspared.laid, hspared.kept, hspared.others⟩
  | some pid =>
    cases hret
    obtain ⟨use', T', hspared⟩ := hlaid.copyBody hinv hbody (by rw [← preempt_enable_mm_struct]; exact htabled)
    exact ⟨use', T', hspared.laid.congr rfl (preempt_enable_mm_struct k₁) rfl, hspared.kept, hspared.others⟩

theorem timer_tick_mm_struct (h : timer_tick k = .ok k') : k'.mm_struct = k.mm_struct := by
  rcases timer_tick_spec h with hs | hs
  · funext q
    obtain ⟨c, hc⟩ := hs.task_struct q
    unfold Kernel.mm_struct
    rw [hc]
  · exact hs.mm_struct

theorem exit_process_mm_struct (h : exit_process k = .ok k') : k'.mm_struct = k.mm_struct := by
  obtain ⟨k₁, hs, -, -, -, -, -, hts⟩ := exit_process_spec h
  rw [hs.mm_struct]
  funext q
  obtain ⟨st, hst⟩ := hts q
  unfold Kernel.mm_struct
  rw [hst]

theorem Kernel.Laid.exec (h : k.Laid use T) (hti : TaskInv k) {c : KernelCall} {r : Option Int} (hex : c.exec k = .ok (r, k'))
    (htabled : ∀ q, (k'.mm_struct q).Tabled) : ∃ use' T', k.Spared use T k' use' T' fun _ => False := by
  cases c with
  | schedule =>
    obtain ⟨k₁, hcall, h₁⟩ := map_ok hex
    cases h₁
    have hs := schedule_spec hcall
    exact ⟨use, T, h.same hs.mm hs.mm_struct hs.task _⟩
  | timer_tick =>
    obtain ⟨k₁, hcall, h₁⟩ := map_ok hex
    cases h₁
    have hms := timer_tick_mm_struct hcall
    rcases timer_tick_spec hcall with hs | hs
    · exact ⟨use, T, h.same hs.mm hms hs.task _⟩
    · exact ⟨use, T, h.same hs.mm hms hs.task _⟩
  | exit_process =>
    obtain ⟨k₁, hcall, h₁⟩ := map_ok hex
    cases h₁
    obtain ⟨k₂, hs, hmm, -, htask, -, -, -⟩ := exit_process_spec hcall
    exact ⟨use, T, h.same (hs.mm.trans hmm) (exit_process_mm_struct hcall) (hs.task.trans htask) _⟩
  | copy_process clone_flags fn arg =>
    obtain ⟨⟨pid, k₁⟩, hcall, h₁⟩ := map_ok hex
    cases h₁
    exact h.copy_process hti hcall htabled

/-- A fork gives memory to the new task alone. -/
theorem copy_process_mm_struct (hti : TaskInv k) {clone_flags fn arg : Nat} {pid : Int}
    (h : copy_process clone_flags fn arg k = .ok (pid, k')) {q : TaskPtr} (hq : ∃ i, k.task i = some q) :
    k'.mm_struct q = k.mm_struct q := by
  rcases copy_process_spec h with ⟨-, -, rfl⟩ | ⟨j, i, k₁, hj, -, -, hf, rfl⟩
  · rw [preempt_disable_mm_struct]
  · obtain ⟨m, hm⟩ := hq
    have hne : q ≠ .page (pageAddr j) := by
      rintro rfl
      exact hti.fresh hj m hm
    have hsame : k₁.mm_struct q = (preempt_disable k).mm_struct q := congrArg TaskStruct.mm (hf.others q hne)
    rw [preempt_enable_mm_struct, hsame, preempt_disable_mm_struct]

/-- The tasks there are keep their memory. -/
theorem exec_mm_struct (hti : TaskInv k) {c : KernelCall} {r : Option Int} (hex : c.exec k = .ok (r, k')) {q : TaskPtr}
    (hq : ∃ i, k.task i = some q) : k'.mm_struct q = k.mm_struct q := by
  cases c with
  | schedule =>
    obtain ⟨k₁, hcall, h₁⟩ := map_ok hex
    cases h₁
    rw [(schedule_spec hcall).mm_struct]
  | timer_tick =>
    obtain ⟨k₁, hcall, h₁⟩ := map_ok hex
    cases h₁
    rw [timer_tick_mm_struct hcall]
  | exit_process =>
    obtain ⟨k₁, hcall, h₁⟩ := map_ok hex
    cases h₁
    rw [exit_process_mm_struct hcall]
  | copy_process clone_flags fn arg =>
    obtain ⟨⟨pid, k₁⟩, hcall, h₁⟩ := map_ok hex
    cases h₁
    exact copy_process_mm_struct hti hcall hq

/-- The current task has a page mapped. -/
theorem Kernel.Laid.mapped (h : k.Laid use T) {n : List (Fin 512)} {d : Fin PAGING_PAGES} {mm' : Mm} {t : MmStruct}
    (huses : Uses mm' (Function.update k.mm_struct k.current t) use' T') (hmapping : Mapping k.toMm use T k.current n d mm' use' T') :
    k.Spared use T ({ k with toMm := mm' }.modTask k.current ({ · with mm := t })) use' T' (T k.current).Has := by
  refine ⟨⟨?_, fun i j hi => ?_⟩, hmapping.kept, fun i q _ hq => hmapping.others q hq⟩
  · rw [Kernel.setMm_mm_struct]
    exact huses
  · have hold := h.tasks i j hi
    rw [hmapping.kept.same j (by rw [hold]; exact Option.some_ne_none _), hold]

/-- Nothing but the memory of tasks, and their saved registers, has changed. -/
structure SameTasks (k k' : Kernel) : Prop where
  task_struct : ∀ p, k'.task_struct p = { k.task_struct p with mm := (k'.task_struct p).mm }
  nr_tasks : k'.nr_tasks = k.nr_tasks

theorem SameTasks.setMm (k : Kernel) (mm : Mm) (pt_regs : TaskPtr → PtRegs) (p : TaskPtr) (t : MmStruct) :
    SameTasks k (({ k with toMm := mm, pt_regs := pt_regs } : Kernel).modTask p ({ · with mm := t })) := by
  refine ⟨fun q => ?_, rfl⟩
  rw [Kernel.modTask_task_struct]
  split <;> rfl

theorem SameTasks.trans {k k' k'' : Kernel} (h : SameTasks k k') (hts : k''.task_struct = k'.task_struct)
    (hnr : k''.nr_tasks = k'.nr_tasks) : SameTasks k k'' := by
  refine ⟨fun p => ?_, hnr.trans h.nr_tasks⟩
  rw [hts]
  exact h.task_struct p

/-- What `move_to_user_mode` leaves, after its page is allocated at `a`. -/
structure Moved (start size pc a : Nat) (t : MmStruct) (mm : Mm) (k k' : Kernel) : Prop where
  toMm : k'.toMm = if a = 0 then mm else { mm with mem := memcpy mm.mem start a (toLong size) }
  mm_struct : k'.mm_struct = Function.update k.mm_struct k.current t
  task : k'.task = k.task
  current : k'.current = k.current
  pt_regs : k'.pt_regs = Function.update k.pt_regs k.current
    { k.pt_regs k.current with pstate := PSR_MODE_EL0t, pc := pc, sp := 2 * PAGE_SIZE }
  same : SameTasks k k'

section SetMem
variable (k : Kernel) (mem : Mem)

theorem Kernel.setMem_toMm : (k.setMem mem).toMm = { k.toMm with mem := mem } := rfl
theorem Kernel.setMem_mm_struct : (k.setMem mem).mm_struct = k.mm_struct := rfl
theorem Kernel.setMem_task : (k.setMem mem).task = k.task := rfl
theorem Kernel.setMem_current : (k.setMem mem).current = k.current := rfl
theorem Kernel.setMem_pt_regs : (k.setMem mem).pt_regs = k.pt_regs := rfl
theorem Kernel.setMem_task_struct : (k.setMem mem).task_struct = k.task_struct := rfl
theorem Kernel.setMem_nr_tasks : (k.setMem mem).nr_tasks = k.nr_tasks := rfl

end SetMem

/-- The end of the call, in the kernel `k₁` before the copy. -/
theorem Moved.of {start size pc a : Nat} {r : Int} {t : MmStruct} {mm : Mm} (k₁ : Kernel)
    (hk₁ : k₁ = ({ k with
      toMm := mm
      pt_regs := Function.update k.pt_regs k.current
        { k.pt_regs k.current with pstate := PSR_MODE_EL0t, pc := pc, sp := 2 * PAGE_SIZE } } : Kernel).modTask k.current ({ · with mm := t }))
    (h : (if a = 0 then Except.ok ((-1 : Int), k₁) else Except.ok (0, k₁.setMem (memcpy k₁.mem start a (toLong size)))) =
      (.ok (r, k') : Except Fault (Int × Kernel))) : Moved start size pc a t mm k k' := by
  have hmm : k₁.toMm = mm := by rw [hk₁, Kernel.modTask_toMm]
  have hms : k₁.mm_struct = Function.update k.mm_struct k.current t := by
    rw [hk₁]
    exact Kernel.setMm_mm_struct { k with pt_regs := _ } mm k.current t
  have hregs : k₁.pt_regs = Function.update k.pt_regs k.current
      { k.pt_regs k.current with pstate := PSR_MODE_EL0t, pc := pc, sp := 2 * PAGE_SIZE } := by rw [hk₁, Kernel.modTask_pt_regs]
  have htask : k₁.task = k.task := by rw [hk₁, Kernel.modTask_task]
  have hcur : k₁.current = k.current := by rw [hk₁, Kernel.modTask_current]
  have hsame : SameTasks k k₁ := hk₁ ▸ .setMm k mm _ k.current t
  clear hk₁
  split at h
  · next ha =>
    obtain rfl : k₁ = k' := congrArg Prod.snd (Except.ok.inj h)
    exact ⟨by rw [if_pos ha, hmm], hms, htask, hcur, hregs, hsame⟩
  · next ha =>
    have hk' : k₁.setMem (memcpy k₁.mem start a (toLong size)) = k' := congrArg Prod.snd (Except.ok.inj h)
    rw [← hk']
    refine ⟨?_, ?_, ?_, ?_, ?_, hsame.trans (Kernel.setMem_task_struct ..) (Kernel.setMem_nr_tasks ..)⟩
    · rw [Kernel.setMem_toMm, if_neg ha, hmm]
    · rw [Kernel.setMem_mm_struct, hms]
    · rw [Kernel.setMem_task, htask]
    · rw [Kernel.setMem_current, hcur]
    · rw [Kernel.setMem_pt_regs, hregs]

theorem move_to_user_mode_spec {start size pc : Nat} {r : Int} (h : move_to_user_mode start size pc k = .ok (r, k')) :
    ∃ a t mm, allocate_user_page (k.mm_struct k.current) 0 k.toMm = .ok (a, t, mm) ∧ r = (if a = 0 then -1 else 0) ∧
      Moved start size pc a t mm k k' := by
  unfold move_to_user_mode at h
  obtain ⟨⟨a, t, mm⟩, halloc, h⟩ := bind_ok h
  refine ⟨a, t, mm, halloc, ?_, .of _ rfl h⟩
  simp only at h
  split at h
  · next ha =>
    cases h
    exact (if_pos ha).symm
  · next ha =>
    cases h
    exact (if_neg ha).symm

/-- A fault is not served for, or a page is mapped, which the first time is the answer. -/
theorem do_mem_abort_spec {addr esr : Nat} {ind r ind' : Int} (h : do_mem_abort addr esr ind k = .ok (r, ind', k')) :
    (¬ TranslationFault esr ∨ ∀ i, k.mem_map i ≠ 0) ∧ r = -1 ∧ ind' = ind ∧ k' = k ∨
    TranslationFault esr ∧ ∃ j t mm, k.mem_map j = 0 ∧
      map_page (k.mm_struct k.current) (addr &&& PAGE_MASK) (physAddr j) (k.toMm.take j) = .ok (t, mm) ∧
      k' = { k with toMm := mm }.modTask k.current ({ · with mm := t }) ∧ ind' = ind + 1 ∧ r = if ind + 1 > 2 then -1 else 0 := by
  unfold do_mem_abort at h
  split at h
  swap
  · next hno =>
    cases h
    exact .inl ⟨.inl hno, rfl, rfl, rfl⟩
  next hfault =>
  rcases get_free_page_cases k.toMm with ⟨j, hj, hget⟩ | ⟨hall, hget⟩
  · rw [hget] at h
    simp only [if_neg (physAddr_pos j).ne'] at h
    obtain ⟨⟨t, mm⟩, hmap, h⟩ := bind_ok h
    refine .inr ⟨hfault, j, t, mm, hj, hmap, ?_⟩
    simp only at h
    split at h
    · next hind =>
      cases h
      exact ⟨rfl, rfl, (if_pos hind).symm⟩
    · next hind =>
      cases h
      exact ⟨rfl, rfl, (if_neg hind).symm⟩
  · rw [hget] at h
    cases h
    exact .inl ⟨.inr hall, rfl, rfl, rfl⟩

end Laid

end ClbFilesystem
