import ClbFilesystem.Entries
import ClbFilesystem.Lib.Radix
/-!
# Address spaces

The page tables a task gets while its pages are mapped are a radix tree, stored
in pages that were free before: a word of indices is at a table, or at a user page
if it is a full address. Each page mapped adds the prefixes of its address, and
takes as many pages of the allocator as there are new ones among them.
-/

namespace ClbFilesystem

open Lib

/-- The index of an address on a level. -/
def entryIndex (va shift : Nat) : Fin 512 := ⟨tableIndex va shift, tableIndex_lt va shift⟩

/-- The indices of an address from the top. -/
def tablePath (va : Nat) : List (Fin 512) :=
  [entryIndex va PGD_SHIFT, entryIndex va PUD_SHIFT, entryIndex va PMD_SHIFT, entryIndex va PAGE_SHIFT]

/-- The entry that leads to page `j`, in a table on level `l`. -/
def enc (l : Nat) (j : Fin PAGING_PAGES) : Nat := physAddr j ||| if l < 3 then MM_TYPE_PAGE_TABLE else MMU_PTE_FLAGS

theorem flags_spec (l : Nat) : (if l < 3 then MM_TYPE_PAGE_TABLE else MMU_PTE_FLAGS) < 2 ^ 12 ∧
    (if l < 3 then MM_TYPE_PAGE_TABLE else MMU_PTE_FLAGS) % 4 = 3 := by
  split <;> decide

theorem enc_ne_zero (l : Nat) (j : Fin PAGING_PAGES) : enc l j ≠ 0 := entry_ne_zero j (flags_spec l).1

theorem enc_lt (l : Nat) (j : Fin PAGING_PAGES) : enc l j < 2 ^ 64 := entry_lt j (flags_spec l).1

theorem enc_page (l : Nat) (j : Fin PAGING_PAGES) : enc l j &&& PAGE_MASK = physAddr j := entry_page j (flags_spec l).1

/-- The tables and pages of `N` under `pgd`, all of them taken since `mm₀`, whose own pages are as they were. -/
structure Space (mm₀ mm : Mm) (pgd : Nat) (place : List (Fin 512) → Fin PAGING_PAGES)
    (content : List (Fin 512) → Nat → UInt8) (N : Finset (List (Fin 512))) : Prop where
  stored : Stored enc 0 4 (fun i x => mm.entry i x.val) place N
  root : pgd = if [] ∈ N then physAddr (place []) else 0
  used : ∀ n ∈ N, mm.mem_map (place n) ≠ 0
  fresh : ∀ n ∈ N, mm₀.mem_map (place n) = 0
  le : mm₀.Le mm
  kept : ∀ i, mm₀.mem_map i ≠ 0 → ∀ o < 4096, mm.byte i o = mm₀.byte i o
  leaves : ∀ n ∈ N, n.length = 4 → ∀ o < 4096, mm.byte (place n) o = content n o

namespace Space

variable {mm₀ mm : Mm} {pgd : Nat} {place : List (Fin 512) → Fin PAGING_PAGES} {content : List (Fin 512) → Nat → UInt8}
  {N : Finset (List (Fin 512))} {n : List (Fin 512)} {x : Fin 512} {j : Fin PAGING_PAGES}

theorem nil (mm : Mm) (place : List (Fin 512) → Fin PAGING_PAGES) (content : List (Fin 512) → Nat → UInt8) :
    Space mm mm 0 place content ∅ :=
  ⟨.nil .., rfl, by simp, by simp, .refl mm, fun _ _ _ _ => rfl, by simp⟩

/-- A free page is at no word. -/
theorem place_ne (h : Space mm₀ mm pgd place content N) (hj : mm.mem_map j = 0) : ∀ n ∈ N, place n ≠ j := by
  rintro n hn rfl
  exact h.used n hn hj

theorem free_before (h : Space mm₀ mm pgd place content N) (hj : mm.mem_map j = 0) : mm₀.mem_map j = 0 := by
  by_contra hne
  exact h.le j hne hj

/-- A page taken for something else. -/
theorem reserve (h : Space mm₀ mm pgd place content N) (hj : mm.mem_map j = 0) :
    Space (mm₀.take j) (mm.take j) pgd place content N := by
  have hne := h.place_ne hj
  have hbyte : ∀ n ∈ N, ∀ o < 4096, (mm.take j).byte (place n) o = mm.byte (place n) o := by
    intro n hn o ho
    rw [Mm.byte_take ho, if_neg (hne n hn)]
  refine ⟨h.stored.congr fun n hn _ x => ?_, h.root, fun n hn => Mm.le_take mm j _ (h.used n hn), fun n hn => ?_,
    fun i hi => ?_, fun i hi o ho => ?_, fun n hn hl o ho => ?_⟩
  · show (mm.take j).entry _ _ = _
    rw [Mm.entry_take x.isLt, if_neg (hne n hn)]
  · rw [Mm.take_mem_map, if_neg (hne n hn)]
    exact h.fresh n hn
  · rw [Mm.take_mem_map] at hi ⊢
    split
    · decide
    · next hij =>
      rw [if_neg hij] at hi
      exact h.le i hi
  · rw [Mm.byte_take ho, Mm.byte_take ho]
    split
    · rfl
    · next hij =>
      rw [Mm.take_mem_map, if_neg hij] at hi
      exact h.kept i hi o ho
  · rw [hbyte n hn o ho]
    exact h.leaves n hn hl o ho

/-- The table at the top. -/
theorem addRoot (h : Space mm₀ mm pgd place content ∅) (hj : mm.mem_map j = 0) :
    Space mm₀ (mm.take j) (physAddr j) (Function.update place [] j) content {[]} := by
  have hj₀ := h.free_before hj
  refine ⟨.root fun x => ?_, ?_, fun n hn => ?_, fun n hn => ?_, h.le.trans (Mm.le_take mm j), fun i hi o ho => ?_,
    fun n hn hl => ?_⟩
  · show (mm.take j).entry _ _ = _
    rw [Mm.entry_take x.isLt, if_pos rfl]
  · rw [if_pos (Finset.mem_singleton_self _), Function.update_self]
  · obtain rfl := Finset.mem_singleton.1 hn
    rw [Function.update_self]
    exact Mm.take_used mm j
  · obtain rfl := Finset.mem_singleton.1 hn
    rw [Function.update_self]
    exact hj₀
  · have hij : i ≠ j := by
      rintro rfl
      exact hi hj₀
    rw [Mm.byte_take ho, if_neg hij]
    exact h.kept i hi o ho
  · obtain rfl := Finset.mem_singleton.1 hn
    cases hl

/-- Entry `x` of the table at `n` leads to the page reserved, which is zero. -/
theorem addPage (h : Space (mm₀.take j) mm pgd place content N) (hj₀ : mm₀.mem_map j = 0) (hn : n ∈ N) (hlen : n.length < 4)
    (hx : n ++ [x] ∉ N) : Space mm₀ (mm.setEntry (place n) x (enc n.length j)) pgd (Function.update place (n ++ [x]) j)
      (Function.update content (n ++ [x]) fun _ => 0) (insert (n ++ [x]) N) := by
  have hne : ∀ m ∈ N, place m ≠ j := by
    rintro m hm rfl
    exact Mm.take_used _ _ (h.fresh m hm)
  have hold : ∀ m ∈ N, Function.update place (n ++ [x]) j m = place m := by
    intro m hm
    refine Function.update_of_ne ?_ _ _
    rintro rfl
    exact hx hm
  have hkept : ∀ i, i ≠ place n → ∀ o < 4096, (mm.setEntry (place n) x (enc n.length j)).byte i o = mm.byte i o :=
    fun i hin o ho => Mm.byte_setEntry hin ho x.isLt
  have hused : mm.mem_map j ≠ 0 := h.le j (Mm.take_used mm₀ j)
  have hzero : ∀ o < 4096, mm.byte j o = 0 := by
    intro o ho
    rw [h.kept j (Mm.take_used mm₀ j) o ho, Mm.byte_take ho, if_pos rfl]
  refine ⟨h.stored.insert hn hx hne (fun _ => ?_) (fun m hm _ y hy => ?_) (fun _ y => ?_), ?_, fun m hm => ?_, fun m hm => ?_,
    fun i hi => h.le i (Mm.le_take mm₀ j i hi), fun i hi o ho => ?_, fun m hm hl o ho => ?_⟩
  · exact (Mm.entry_setEntry (enc_lt _ _) x.isLt x.isLt).trans (if_pos ⟨rfl, rfl⟩)
  · show (mm.setEntry _ _ _).entry _ _ = _
    rw [Mm.entry_setEntry (enc_lt _ _) x.isLt y.isLt, if_neg]
    rintro ⟨hp, hyx⟩
    exact hy ⟨h.stored.inj m hm n hn hp, Fin.ext hyx⟩
  · show (mm.setEntry _ _ _).entry _ _ = _
    rw [Mm.entry_setEntry (enc_lt _ _) x.isLt y.isLt, if_neg fun hp => hne n hn hp.1.symm]
    exact Mm.entry_zero hzero y.isLt
  · rw [h.root]
    by_cases hroot : [] ∈ N
    · rw [if_pos hroot, if_pos (Finset.mem_insert_of_mem hroot), hold _ hroot]
    · rw [if_neg hroot, if_neg]
      simpa using hroot
  · rcases Finset.mem_insert.1 hm with rfl | hm
    · rw [Function.update_self]
      exact hused
    · rw [hold m hm]
      exact h.used m hm
  · rcases Finset.mem_insert.1 hm with rfl | hm
    · rw [Function.update_self]
      exact hj₀
    · rw [hold m hm]
      by_contra hne₀
      exact Mm.le_take mm₀ j _ hne₀ (h.fresh m hm)
  · have hij : i ≠ j := by
      rintro rfl
      exact hi hj₀
    rw [hkept i _ o ho, h.kept i (Mm.le_take mm₀ j i hi) o ho, Mm.byte_take ho, if_neg hij]
    rintro rfl
    exact Mm.le_take mm₀ j _ hi (h.fresh n hn)
  · rcases Finset.mem_insert.1 hm with rfl | hm
    · rw [Function.update_self, Function.update_self, hkept j (hne n hn).symm o ho, hzero o ho]
    · have hmx : m ≠ n ++ [x] := by
        rintro rfl
        exact hx hm
      rw [hold m hm, Function.update_of_ne hmx, hkept _ _ o ho]
      · exact h.leaves m hm hl o ho
      · intro hp
        rw [h.stored.inj m hm n hn hp] at hl
        omega

end Space

/-- Free pages and words of the tree are `b` together. -/
def Budget (mm : Mm) (N : Finset (List (Fin 512))) (b : Nat) : Prop := mm.free + N.card = b

namespace Budget

variable {mm mm' : Mm} {N : Finset (List (Fin 512))} {n : List (Fin 512)} {b : Nat} {j : Fin PAGING_PAGES}

/-- A new word on a page taken for it. -/
theorem take (h : Budget mm N b) (hj : mm.mem_map j = 0) (hn : n ∉ N) (hmap : mm'.mem_map = (mm.take j).mem_map) :
    Budget mm' (insert n N) b := by
  unfold Budget at h ⊢
  rw [Mm.free_congr hmap, Finset.card_insert_of_notMem hn, Nat.add_comm _ 1, ← Nat.add_assoc, Mm.free_take hj, h]

/-- A page taken for something else. -/
theorem reserve (h : Budget mm N b) (hj : mm.mem_map j = 0) : ∃ b', b = b' + 1 ∧ Budget (mm.take j) N b' := by
  refine ⟨(mm.take j).free + N.card, ?_, rfl⟩
  unfold Budget at h
  rw [← h, ← Mm.free_take hj, Nat.add_right_comm]

/-- A new word on a page that was no longer free. -/
theorem insert (h : Budget mm N b) (hn : n ∉ N) (hmap : mm'.mem_map = mm.mem_map) : Budget mm' (insert n N) (b + 1) := by
  unfold Budget at h ⊢
  rw [Mm.free_congr hmap, Finset.card_insert_of_notMem hn, ← Nat.add_assoc, h]

theorem card_eq (h : Budget mm N b) (hall : ∀ i, mm.mem_map i ≠ 0) : N.card = b := by
  unfold Budget at h
  rw [← h, Mm.free_eq_zero.2 hall, Nat.zero_add]

theorem card_le (h : Budget mm N b) : N.card ≤ b := by
  unfold Budget at h
  rw [← h]
  exact Nat.le_add_left _ _

end Budget

/-! ## The tables on the way to a page -/

section Map
variable {mm₀ mm : Mm} {pgd : Nat} {place : List (Fin 512) → Fin PAGING_PAGES} {content : List (Fin 512) → Nat → UInt8}
  {N : Finset (List (Fin 512))} {n : List (Fin 512)} {j : Fin PAGING_PAGES}

theorem kernelAddr_physAddr (i : Fin PAGING_PAGES) : kernelAddr (physAddr i) = pageAddr i := by
  have hi : i.val < 257024 := i.isLt
  rw [kernelAddr, physAddr_add, pageAddr_eq]
  unfold toUlong
  omega

theorem map_table_eq (table shift va : Nat) (mm : Mm) : map_table table shift va mm =
    if readEntry mm table (tableIndex va shift) = 0 then
      (((get_free_page mm).1, true),
        writeEntry (get_free_page mm).2 table (tableIndex va shift) ((get_free_page mm).1 ||| MM_TYPE_PAGE_TABLE))
    else ((readEntry mm table (tableIndex va shift) &&& PAGE_MASK, false), mm) := rfl

/-- The next table is there, or a free page becomes it, or none is free; `b` is what the tree can grow to. -/
theorem map_table_spec (h : Space mm₀ mm pgd place content N) {b : Nat} (hb : Budget mm N b) (hn : n ∈ N) (hlen : n.length < 3)
    {va shift : Nat} {m : List (Fin 512)} (hm : m = n ++ [entryIndex va shift]) {M : Finset (List (Fin 512))} (hM : M = insert m N)
    {r : (Nat × Bool) × Mm} (hr : map_table (kernelAddr (physAddr (place n))) shift va mm = r) :
    (∃ place' content', r.1.1 = physAddr (place' m) ∧ Space mm₀ r.2 pgd place' content' M ∧ Budget r.2 M b ∧
      ∀ p ∈ N, place' p = place p ∧ content' p = content p) ∨
    m ∉ N ∧ N.card = b ∧ ∀ i, mm.mem_map i ≠ 0 := by
  subst hm hM
  have hedge : mm.entry (place n) (tableIndex va shift) =
      if n ++ [entryIndex va shift] ∈ N then enc n.length (place (n ++ [entryIndex va shift])) else 0 :=
    h.stored.edge n hn (by omega) (entryIndex va shift)
  rw [kernelAddr_physAddr, map_table_eq, Mm.readEntry_eq, hedge] at hr
  by_cases hmem : n ++ [entryIndex va shift] ∈ N
  · rw [if_pos hmem, if_neg (enc_ne_zero _ _), enc_page] at hr
    subst hr
    rw [Finset.insert_eq_of_mem hmem]
    exact .inl ⟨place, content, rfl, h, hb, fun _ _ => ⟨rfl, rfl⟩⟩
  · rw [if_neg hmem, if_pos rfl] at hr
    rcases get_free_page_cases mm with ⟨j, hj, hget⟩ | ⟨hall, -⟩
    · have hflags : physAddr j ||| MM_TYPE_PAGE_TABLE = enc n.length j := by
        unfold enc
        rw [if_pos hlen]
      rw [hget, Mm.writeEntry_eq, hflags] at hr
      subst hr
      refine .inl ⟨Function.update place (n ++ [entryIndex va shift]) j, _, ?_,
        (h.reserve hj).addPage (h.free_before hj) hn (by omega) hmem, ?_, fun p hp => ?_⟩
      · rw [Function.update_self]
      · exact hb.take hj hmem rfl
      · have hne : p ≠ n ++ [entryIndex va shift] := by
          rintro rfl
          exact hmem hp
        exact ⟨Function.update_of_ne hne _ _, Function.update_of_ne hne _ _⟩
    · exact .inr ⟨hmem, hb.card_eq hall, hall⟩

/-- The user pages are the same. -/
def SameUser (t t' : MmStruct) : Prop := t'.user_pages_count = t.user_pages_count ∧ t'.user_pages = t.user_pages

theorem SameUser.trans {t t' t'' : MmStruct} (h : SameUser t t') (h' : SameUser t' t'') : SameUser t t'' :=
  ⟨h'.1.trans h.1, h'.2.trans h.2⟩

theorem mapRoot_user (t : MmStruct) (mm : Mm) : SameUser t (mapRoot t mm).1 := by
  unfold mapRoot
  split <;> exact ⟨rfl, rfl⟩

theorem mapRoot_spec {t : MmStruct} (h : Space mm₀ mm t.pgd place content N) {b : Nat} (hb : Budget mm N b)
    {M : Finset (List (Fin 512))} (hM : M = insert [] N) :
    (∃ place' content', Space mm₀ (mapRoot t mm).2 (mapRoot t mm).1.pgd place' content' M ∧
      (mapRoot t mm).1.pgd = physAddr (place' []) ∧ Budget (mapRoot t mm).2 M b ∧
      ∀ p ∈ N, place' p = place p ∧ content' p = content p) ∨
    N = ∅ ∧ b = 0 ∧ ∀ i, mm.mem_map i ≠ 0 := by
  subst hM
  by_cases hroot : [] ∈ N
  · have hpgd : t.pgd = physAddr (place []) := by rw [h.root, if_pos hroot]
    have heq : mapRoot t mm = (t, mm) := by
      unfold mapRoot
      rw [if_neg]
      rw [hpgd]
      exact (physAddr_pos _).ne'
    rw [heq, Finset.insert_eq_of_mem hroot]
    exact .inl ⟨place, content, h, hpgd, hb, fun _ _ => ⟨rfl, rfl⟩⟩
  · have hpgd : t.pgd = 0 := by rw [h.root, if_neg hroot]
    obtain rfl : N = ∅ := by
      refine Finset.eq_empty_of_forall_notMem fun n hn => hroot ?_
      exact h.stored.nil_mem hn
    rw [hpgd] at h
    unfold mapRoot
    rw [if_pos hpgd, insert_empty_eq]
    rcases get_free_page_cases mm with ⟨j, hj, hget⟩ | ⟨hall, hget⟩
    · rw [hget]
      refine .inl ⟨_, content, h.addRoot hj, by rw [Function.update_self]; rfl, ?_, by simp⟩
      have htake := hb.take hj (Finset.notMem_empty []) rfl
      rw [insert_empty_eq] at htake
      exact htake
    · exact .inr ⟨rfl, (hb.card_eq hall).symm, hall⟩

/-! ## One page mapped -/

theorem MmStruct.addTable_spec (t : MmStruct) (r : Nat × Bool) : (t.addTable r).pgd = t.pgd ∧ SameUser t (t.addTable r) := by
  unfold addTable
  split <;> exact ⟨rfl, rfl, rfl⟩

/-- The three tables noted change nothing else. -/
theorem addTables_spec (t : MmStruct) (mm : Mm) (r₁ r₂ r₃ : Nat × Bool) :
    ((((mapRoot t mm).1.addTable r₁).addTable r₂).addTable r₃).pgd = (mapRoot t mm).1.pgd ∧
      SameUser t ((((mapRoot t mm).1.addTable r₁).addTable r₂).addTable r₃) := by
  obtain ⟨hpgd₁, huser₁⟩ := (mapRoot t mm).1.addTable_spec r₁
  obtain ⟨hpgd₂, huser₂⟩ := ((mapRoot t mm).1.addTable r₁).addTable_spec r₂
  obtain ⟨hpgd₃, huser₃⟩ := (((mapRoot t mm).1.addTable r₁).addTable r₂).addTable_spec r₃
  exact ⟨hpgd₃.trans (hpgd₂.trans hpgd₁), (mapRoot_user t mm).trans (huser₁.trans (huser₂.trans huser₃))⟩

theorem MmStruct.addUserPage_eq {t : MmStruct} (h : t.user_pages_count < MAX_PROCESS_PAGES) (p : UserPage) :
    ∃ t', t.addUserPage p = .ok t' ∧ t'.pgd = t.pgd ∧ t'.user_pages_count = t.user_pages_count + 1 ∧
      ∀ i, t'.user_pages i = if i.val = t.user_pages_count then p else t.user_pages i := by
  refine ⟨_, dif_pos h, rfl, rfl, fun i => ?_⟩
  simp only [Function.update_apply, Fin.ext_iff]

/-- Two words more than a tree has. -/
theorem card_add_one_lt {M F : Finset (List (Fin 512))} {m p : List (Fin 512)} (hM : M ⊆ F) (hm : m ∉ M) (hp : p ∉ M) (hne : m ≠ p)
    (hmF : m ∈ F) (hpF : p ∈ F) : M.card + 1 < F.card := by
  have hsub : insert m (insert p M) ⊆ F := Finset.insert_subset hmF (Finset.insert_subset hpF hM)
  have hcard : (insert m (insert p M)).card = M.card + 2 := by
    rw [Finset.card_insert_of_notMem, Finset.card_insert_of_notMem hp]
    simp [hne, hm]
  have hle := Finset.card_le_card hsub
  omega

theorem map_page_spec {t : MmStruct} (h : Space (mm₀.take j) mm t.pgd place content N) {b : Nat} (hb : Budget mm N b)
    (hj₀ : mm₀.mem_map j = 0) {va : Nat} (hnew : tablePath va ∉ N) (hcount : t.user_pages_count < MAX_PROCESS_PAGES) :
    (∃ place' content' t' mm', map_page t va (physAddr j) mm = .ok (t', mm') ∧
      Space mm₀ mm' t'.pgd place' content' (N ∪ (tablePath va).inits.toFinset) ∧
      Budget mm' (N ∪ (tablePath va).inits.toFinset) (b + 1) ∧ place' (tablePath va) = j ∧
      (∀ p ∈ N, place' p = place p ∧ content' p = content p) ∧ t'.user_pages_count = t.user_pages_count + 1 ∧
      ∀ i, t'.user_pages i = if i.val = t.user_pages_count then ⟨physAddr j, va⟩ else t.user_pages i) ∨
    (∃ t' mm', map_page t va (physAddr j) mm = .ok (t', mm') ∧ (∀ i, mm'.mem_map i ≠ 0) ∧
      t'.user_pages_count = t.user_pages_count + 1) ∧ b + 1 < (N ∪ (tablePath va).inits.toFinset).card := by
  -- The words on the way, and the trees with them.
  obtain ⟨n₁, hn₁⟩ : ∃ n, n = [] ++ [entryIndex va PGD_SHIFT] := ⟨_, rfl⟩
  obtain ⟨n₂, hn₂⟩ : ∃ n, n = n₁ ++ [entryIndex va PUD_SHIFT] := ⟨_, rfl⟩
  obtain ⟨n₃, hn₃⟩ : ∃ n, n = n₂ ++ [entryIndex va PMD_SHIFT] := ⟨_, rfl⟩
  have hpath : tablePath va = n₃ ++ [entryIndex va PAGE_SHIFT] := by rw [hn₃, hn₂, hn₁]; rfl
  have hinits : (tablePath va).inits = [[], n₁, n₂, n₃, tablePath va] := by rw [hn₃, hn₂, hn₁]; rfl
  obtain ⟨M₀, hM₀⟩ : ∃ M, M = insert [] N := ⟨_, rfl⟩
  obtain ⟨M₁, hM₁⟩ : ∃ M, M = insert n₁ M₀ := ⟨_, rfl⟩
  obtain ⟨M₂, hM₂⟩ : ∃ M, M = insert n₂ M₁ := ⟨_, rfl⟩
  obtain ⟨M₃, hM₃⟩ : ∃ M, M = insert n₃ M₂ := ⟨_, rfl⟩
  have hF : N ∪ (tablePath va).inits.toFinset = insert (tablePath va) M₃ := by
    ext n
    simp only [hinits, hM₃, hM₂, hM₁, hM₀, Finset.mem_union, List.mem_toFinset, List.mem_cons, List.not_mem_nil, or_false,
      Finset.mem_insert]
    tauto
  have hp : tablePath va ∉ M₃ := by
    simp only [hM₃, hM₂, hM₁, hM₀, Finset.mem_insert, not_or]
    exact ⟨by simp [tablePath, hn₃, hn₂, hn₁], by simp [tablePath, hn₂, hn₁], by simp [tablePath, hn₁], by simp [tablePath], hnew⟩
  have hmem₀ : [] ∈ M₀ := hM₀ ▸ Finset.mem_insert_self _ _
  have hmem₁ : n₁ ∈ M₁ := hM₁ ▸ Finset.mem_insert_self _ _
  have hmem₂ : n₂ ∈ M₂ := hM₂ ▸ Finset.mem_insert_self _ _
  have hmem₃ : n₃ ∈ M₃ := hM₃ ▸ Finset.mem_insert_self _ _
  have h₂₃ : M₂ ⊆ M₃ := hM₃ ▸ Finset.subset_insert _ _
  have h₁₃ : M₁ ⊆ M₃ := (hM₂ ▸ Finset.subset_insert _ _ : M₁ ⊆ M₂).trans h₂₃
  have h₀₃ : M₀ ⊆ M₃ := (hM₁ ▸ Finset.subset_insert _ _ : M₀ ⊆ M₁).trans h₁₃
  -- A page is missing for word `m`, with the tree `M` so far: the page itself is one more.
  have hshort : ∀ (M : Finset (List (Fin 512))) (m : List (Fin 512)), M ⊆ M₃ → m ∉ M → m ∈ M₃ → M.card = b →
      b + 1 < (insert (tablePath va) M₃).card := by
    intro M m hM hm hmM hcard
    have hne : m ≠ tablePath va := by
      rintro rfl
      exact hp hmM
    rw [← hcard]
    exact card_add_one_lt (hM.trans (Finset.subset_insert _ _)) hm (fun hpM => hp (hM hpM)) hne
      (Finset.mem_insert_of_mem hmM) (Finset.mem_insert_self _ M₃)
  rw [hF]
  -- The call returns whatever it finds.
  obtain ⟨r₁, hr₁⟩ : ∃ r, map_table (kernelAddr (mapRoot t mm).1.pgd) PGD_SHIFT va (mapRoot t mm).2 = r := ⟨_, rfl⟩
  obtain ⟨r₂, hr₂⟩ : ∃ r, map_table (kernelAddr r₁.1.1) PUD_SHIFT va r₁.2 = r := ⟨_, rfl⟩
  obtain ⟨r₃, hr₃⟩ : ∃ r, map_table (kernelAddr r₂.1.1) PMD_SHIFT va r₂.2 = r := ⟨_, rfl⟩
  obtain ⟨hpgd₃, huser⟩ := addTables_spec t mm r₁.1 r₂.1 r₃.1
  obtain ⟨t', hadd, hpgd', hcount', hpages'⟩ := MmStruct.addUserPage_eq (huser.1 ▸ hcount) ⟨physAddr j, va⟩
  have hcall : map_page t va (physAddr j) mm = .ok (t', map_table_entry (kernelAddr r₃.1.1) va (physAddr j) r₃.2) := by
    rw [map_page_eq hr₁ hr₂ hr₃, hadd, ok_bind]
  have hle₁ : (mapRoot t mm).2.Le r₁.2 := hr₁ ▸ map_table_le _ _ _ _
  have hle₂ : r₁.2.Le r₂.2 := hr₂ ▸ map_table_le _ _ _ _
  have hle₃ : r₂.2.Le r₃.2 := hr₃ ▸ map_table_le _ _ _ _
  have hfull : ∀ mm₁ : Mm, mm₁.Le r₃.2 → (∀ i, mm₁.mem_map i ≠ 0) → ∃ t' mm', map_page t va (physAddr j) mm = .ok (t', mm') ∧
      (∀ i, mm'.mem_map i ≠ 0) ∧ t'.user_pages_count = t.user_pages_count + 1 :=
    fun mm₁ hle hall => ⟨_, _, hcall, fun i => hle i (hall i), by rw [hcount', huser.1]⟩
  rcases mapRoot_spec h hb hM₀ with ⟨place₀, content₀, hs₀, hpgd, hb₀, hagree₀⟩ | ⟨hN, hb₀, hall⟩
  swap
  · refine .inr ⟨hfull mm ((mapRoot_le t mm).trans (hle₁.trans (hle₂.trans hle₃))) hall, ?_⟩
    refine hshort ∅ [] (Finset.empty_subset _) (Finset.notMem_empty _) (h₀₃ hmem₀) ?_
    rw [hb₀, Finset.card_empty]
  rw [hpgd] at hs₀ hr₁ hpgd₃
  rcases map_table_spec hs₀ hb₀ hmem₀ (by simp) hn₁ hM₁ hr₁ with ⟨place₁, content₁, hnext₁, hs₁, hb₁, hagree₁⟩ | ⟨hm₁, hb₁, hall⟩
  swap
  · exact .inr ⟨hfull _ (hle₁.trans (hle₂.trans hle₃)) hall, hshort M₀ n₁ h₀₃ hm₁ (h₁₃ hmem₁) hb₁⟩
  rw [hnext₁] at hr₂
  rcases map_table_spec hs₁ hb₁ hmem₁ (by simp [hn₁]) hn₂ hM₂ hr₂ with
    ⟨place₂, content₂, hnext₂, hs₂, hb₂, hagree₂⟩ | ⟨hm₂, hb₂, hall⟩
  swap
  · exact .inr ⟨hfull _ (hle₂.trans hle₃) hall, hshort M₁ n₂ h₁₃ hm₂ (h₂₃ hmem₂) hb₂⟩
  rw [hnext₂] at hr₃
  rcases map_table_spec hs₂ hb₂ hmem₂ (by simp [hn₂, hn₁]) hn₃ hM₃ hr₃ with
    ⟨place₃, content₃, hnext₃, hs₃, hb₃, hagree₃⟩ | ⟨hm₃, hb₃, hall⟩
  swap
  · exact .inr ⟨hfull _ hle₃ hall, hshort M₂ n₃ h₂₃ hm₃ hmem₃ hb₃⟩
  -- The last entry leads to the page.
  have hlen₃ : n₃.length = 3 := by rw [hn₃, hn₂, hn₁]; rfl
  have hx : n₃ ++ [entryIndex va PAGE_SHIFT] ∉ M₃ := hpath ▸ hp
  have hentry : map_table_entry (kernelAddr r₃.1.1) va (physAddr j) r₃.2 =
      r₃.2.setEntry (place₃ n₃) (entryIndex va PAGE_SHIFT) (enc n₃.length j) := by
    rw [hnext₃, kernelAddr_physAddr, map_table_entry, Mm.writeEntry_eq, enc, hlen₃, if_neg (Nat.lt_irrefl 3)]
    rfl
  have hs := hs₃.addPage hj₀ hmem₃ (by omega) hx
  rw [← hpath] at hs hx
  refine .inl ⟨Function.update place₃ (tablePath va) j, Function.update content₃ (tablePath va) fun _ => 0, t',
    r₃.2.setEntry (place₃ n₃) (entryIndex va PAGE_SHIFT) (enc n₃.length j), ?_, ?_, hb₃.insert hx rfl,
    Function.update_self .., fun p hpN => ?_, ?_, fun i => ?_⟩
  · rw [hcall, hentry]
  · rw [hpgd', hpgd₃]
    exact hs
  · have hpM₀ : p ∈ M₀ := hM₀ ▸ Finset.mem_insert_of_mem hpN
    have hpM₁ : p ∈ M₁ := hM₁ ▸ Finset.mem_insert_of_mem hpM₀
    have hpM₂ : p ∈ M₂ := hM₂ ▸ Finset.mem_insert_of_mem hpM₁
    have hne : p ≠ tablePath va := by
      rintro rfl
      exact hnew hpN
    rw [Function.update_of_ne hne, Function.update_of_ne hne, (hagree₃ p hpM₂).1, (hagree₃ p hpM₂).2, (hagree₂ p hpM₁).1,
      (hagree₂ p hpM₁).2, (hagree₁ p hpM₀).1, (hagree₁ p hpM₀).2]
    exact hagree₀ p hpN
  · rw [hcount', huser.1]
  · rw [hpages', huser.1, huser.2]

/-- A page for the user and those for its tables, or too few of them: then the call returns 0, or a page below tables
that are not all there, with none left. -/
theorem allocate_user_page_spec {t : MmStruct} (h : Space mm₀ mm t.pgd place content N) {b : Nat} (hb : Budget mm N b) {va : Nat}
    (hnew : tablePath va ∉ N) (hcount : t.user_pages_count < MAX_PROCESS_PAGES) :
    (∃ place' content' t' mm', allocate_user_page t va mm = .ok (pageAddr (place' (tablePath va)), t', mm') ∧
      Space mm₀ mm' t'.pgd place' content' (N ∪ (tablePath va).inits.toFinset) ∧
      Budget mm' (N ∪ (tablePath va).inits.toFinset) b ∧
      (∀ p ∈ N, place' p = place p ∧ content' p = content p) ∧ t'.user_pages_count = t.user_pages_count + 1 ∧
      ∀ i, t'.user_pages i = if i.val = t.user_pages_count then ⟨physAddr (place' (tablePath va)), va⟩ else t.user_pages i) ∨
    (allocate_user_page t va mm = .ok (0, t, mm) ∧ b = N.card ∨
      (∃ a t' mm', allocate_user_page t va mm = .ok (a, t', mm') ∧ a ≠ 0 ∧ (∀ i, mm'.mem_map i ≠ 0) ∧
        t'.user_pages_count = t.user_pages_count + 1) ∧ N.card < b) ∧
      b < (N ∪ (tablePath va).inits.toFinset).card := by
  rcases get_free_page_cases mm with ⟨j, hj, hget⟩ | ⟨hall, hget⟩
  · obtain ⟨b', rfl, hb'⟩ := hb.reserve hj
    have halloc : allocate_user_page t va mm =
        (map_page t va (physAddr j) (mm.take j)).bind fun r => .ok (physAddr j + VA_START, r.1, r.2) := by
      unfold allocate_user_page
      rw [hget]
      exact if_neg (physAddr_pos j).ne'
    rw [halloc]
    rcases map_page_spec (h.reserve hj) hb' (h.free_before hj) hnew hcount with
      ⟨place', content', t', mm', hmap, hs, hbud, hpj, hagree, hcount', hpages'⟩ | ⟨⟨t', mm', hmap, hall, hcount'⟩, hlt⟩
    · refine .inl ⟨place', content', t', mm', ?_, hs, hbud, hagree, hcount', fun i => ?_⟩
      · rw [hmap, ok_bind, physAddr_add, hpj]
      · rw [hpages', hpj]
    · rw [hmap, ok_bind, physAddr_add]
      exact .inr ⟨.inr ⟨⟨_, t', mm', rfl, pageAddr_ne_zero j, hall, hcount'⟩, Nat.lt_succ_of_le hb'.card_le⟩, hlt⟩
  · have hcard := hb.card_eq hall
    refine .inr ⟨.inl ⟨?_, hcard.symm⟩, ?_⟩
    · unfold allocate_user_page
      rw [hget]
      exact if_pos rfl
    · rw [← hcard]
      have hmem : tablePath va ∈ N ∪ (tablePath va).inits.toFinset := by simp
      exact Finset.card_lt_card ⟨Finset.subset_union_left, fun hsub => hnew (hsub hmem)⟩

end Map

/-! ## The walk -/

theorem descend_eq (mm : Mm) (i : Fin PAGING_PAGES) (shift va : Nat) : descend mm.mem (physAddr i) shift va =
    if mm.entry i (tableIndex va shift) % 4 = 3 then some (mm.entry i (tableIndex va shift) &&& ADDRESS_MASK) else none := by
  unfold descend Mm.entry
  rw [physAddr_add]

theorem translate_eq (m : Mem) (pgd va : Nat) : translate m pgd va =
    (descend m pgd PGD_SHIFT va).bind fun pud => (descend m pud PUD_SHIFT va).bind fun pmd =>
    (descend m pmd PMD_SHIFT va).bind fun pte => (descend m pte PAGE_SHIFT va).bind fun page => some (page + va % PAGE_SIZE) := rfl

/-- The walk for `va` goes through tables in use, to page `d`, in use as well. -/
def Mapped (mm : Mm) (pgd va : Nat) (d : Fin PAGING_PAGES) : Prop :=
  ∃ a b c e : Fin PAGING_PAGES, (∀ i ∈ [a, b, c, e, d], mm.mem_map i ≠ 0) ∧ pgd = physAddr a ∧
    descend mm.mem (physAddr a) PGD_SHIFT va = some (physAddr b) ∧ descend mm.mem (physAddr b) PUD_SHIFT va = some (physAddr c) ∧
    descend mm.mem (physAddr c) PMD_SHIFT va = some (physAddr e) ∧ descend mm.mem (physAddr e) PAGE_SHIFT va = some (physAddr d)

section Walk
variable {mm mm' : Mm} {pgd va o shift : Nat} {d : Fin PAGING_PAGES}

theorem Mapped.keep (h : Mapped mm pgd va d) (hle : mm.Le mm')
    (hbyte : ∀ i, mm.mem_map i ≠ 0 → ∀ o < 4096, mm'.byte i o = mm.byte i o) : Mapped mm' pgd va d := by
  obtain ⟨a, b, c, e, hused, hpgd, h₁, h₂, h₃, h₄⟩ := h
  have hsame : ∀ i ∈ [a, b, c, e, d], ∀ shift, descend mm'.mem (physAddr i) shift va = descend mm.mem (physAddr i) shift va := by
    intro i hi shift
    rw [descend_eq, descend_eq, Mm.entry_congr (hbyte i (hused i hi)) (tableIndex_lt va shift)]
  refine ⟨a, b, c, e, fun i hi => hle i (hused i hi), hpgd, ?_, ?_, ?_, ?_⟩
  · rw [hsame a (by simp), h₁]
  · rw [hsame b (by simp), h₂]
  · rw [hsame c (by simp), h₃]
  · rw [hsame e (by simp), h₄]

/-- The offset in a page is in no index. -/
theorem tableIndex_add (hva : va % 4096 = 0) (ho : o < 4096) (hshift : 12 ≤ shift) :
    tableIndex (va + o) shift = tableIndex va shift := by
  obtain ⟨k, rfl⟩ := Nat.exists_eq_add_of_le hshift
  have hdiv : (va + o) / 4096 = va / 4096 := by omega
  rw [tableIndex_eq, tableIndex_eq, Nat.pow_add, ← Nat.div_div_eq_div_mul, ← Nat.div_div_eq_div_mul, show 2 ^ 12 = 4096 from rfl, hdiv]

theorem Mapped.translate (h : Mapped mm pgd va d) (hva : va % 4096 = 0) (ho : o < 4096) :
    translate mm.mem pgd (va + o) = some (physAddr d + o) := by
  obtain ⟨a, b, c, e, -, hpgd, h₁, h₂, h₃, h₄⟩ := h
  have hsame : ∀ (i : Fin PAGING_PAGES) shift, 12 ≤ shift →
      descend mm.mem (physAddr i) shift (va + o) = descend mm.mem (physAddr i) shift va := by
    intro i shift hshift
    rw [descend_eq, descend_eq, tableIndex_add hva ho hshift]
  have hoff : (va + o) % PAGE_SIZE = o := by
    rw [PAGE_SIZE_eq]
    omega
  rw [translate_eq, hpgd, hsame a _ (by decide), h₁, Option.bind_some, hsame b _ (by decide), h₂, Option.bind_some,
    hsame c _ (by decide), h₃, Option.bind_some, hsame e _ (by decide), h₄, Option.bind_some, hoff]

end Walk

section Copy
variable {mm₀ mm : Mm} {pgd : Nat} {place : List (Fin 512) → Fin PAGING_PAGES} {content : List (Fin 512) → Nat → UInt8}
  {N : Finset (List (Fin 512))} {n p : List (Fin 512)} {va shift : Nat}

theorem Space.descend (h : Space mm₀ mm pgd place content N) (hn : n ∈ N) (hlen : n.length < 4)
    (hm : n ++ [entryIndex va shift] ∈ N) :
    descend mm.mem (physAddr (place n)) shift va = some (physAddr (place (n ++ [entryIndex va shift]))) := by
  have hedge : mm.entry (place n) (tableIndex va shift) = enc n.length (place (n ++ [entryIndex va shift])) :=
    (h.stored.edge n hn hlen (entryIndex va shift)).trans (if_pos hm)
  have htype : enc n.length (place (n ++ [entryIndex va shift])) % 4 = 3 := entry_type _ (flags_spec _).1 (flags_spec _).2
  rw [descend_eq, hedge, if_pos htype]
  exact congrArg some (entry_address _ (flags_spec _).1)

/-- The MMU finds the pages of the tree. -/
theorem Space.mapped (h : Space mm₀ mm pgd place content N) (hva : tablePath va ∈ N) : Mapped mm pgd va (place (tablePath va)) := by
  have h₃ : [entryIndex va PGD_SHIFT, entryIndex va PUD_SHIFT, entryIndex va PMD_SHIFT] ∈ N := h.stored.closed _ _ hva
  have h₂ : [entryIndex va PGD_SHIFT, entryIndex va PUD_SHIFT] ∈ N := h.stored.closed _ _ h₃
  have h₁ : [entryIndex va PGD_SHIFT] ∈ N := h.stored.closed _ _ h₂
  have h₀ : [] ∈ N := h.stored.nil_mem h₁
  refine ⟨_, _, _, _, ?_, h.root.trans (if_pos h₀), h.descend h₀ (by simp) h₁, h.descend h₁ (by simp) h₂,
    h.descend h₂ (by simp) h₃, h.descend h₃ (by simp) hva⟩
  intro i hi
  simp only [List.mem_cons, List.not_mem_nil, or_false] at hi
  rcases hi with rfl | rfl | rfl | rfl | rfl
  · exact h.used _ h₀
  · exact h.used _ h₁
  · exact h.used _ h₂
  · exact h.used _ h₃
  · exact h.used _ hva

/-- Only the page of one leaf is written. -/
theorem Space.fill (h : Space mm₀ mm pgd place content N) (hp : p ∈ N) (hlen : p.length = 4) {m' : Mem}
    (hout : ∀ a, a < pageAddr (place p) ∨ pageAddr (place p) + 4096 ≤ a → m' a = mm.mem a) {f : Nat → UInt8}
    (hf : ∀ o < 4096, m' (pageAddr (place p) + o) = f o) :
    Space mm₀ { mm with mem := m' } pgd place (Function.update content p f) N := by
  have hbyte : ∀ i, i ≠ place p → ∀ o < 4096, ({ mm with mem := m' } : Mm).byte i o = mm.byte i o := by
    intro i hi o ho
    have hne : i.val ≠ (place p).val := fun heq => hi (Fin.ext heq)
    refine hout _ ?_
    simp only [pageAddr_eq]
    omega
  refine ⟨h.stored.congr fun n hn hd x => ?_, h.root, h.used, h.fresh, h.le, fun i hi o ho => ?_, fun n hn hl o ho => ?_⟩
  · refine Mm.entry_congr (hbyte _ fun heq => ?_) x.isLt
    rw [h.stored.inj n hn p hp heq] at hd
    omega
  · rw [hbyte i _ o ho]
    · exact h.kept i hi o ho
    · rintro rfl
      exact hi (h.fresh p hp)
  · by_cases hnp : n = p
    · rw [hnp, Function.update_self]
      exact hf o ho
    · rw [Function.update_of_ne hnp, hbyte _ (fun heq => hnp (h.stored.inj n hn p hp heq)) o ho]
      exact h.leaves n hn hl o ho

/-- As long as the walk leads to the source, `memcpy` from a user address copies whole words. -/
theorem memcpy_user_eq {m : Mem} {x0 x1 pa s : Nat} {x2 : Int} (hs : pa + VA_START = s)
    (h : ∀ m' : Mem, (∀ a, a < x1 ∨ x1 + words x2 ≤ a → m' a = m a) → ∀ o < words x2, translate m' pgd (x0 + o) = some (pa + o))
    (hd : s + words x2 ≤ x1 ∨ x1 + words x2 ≤ s) : memcpy_user pgd m x0 x1 x2 = .ok (m.copy s x1 (words x2)) := by
  induction hn : x2.toNat using Nat.strong_induction_on generalizing m x0 x1 x2 pa s with
  | _ n ih =>
    have hpos := words_pos x2
    have hcopy : copy8_user pgd m x0 x1 = .ok (m.copy s x1 8) := by
      have h0 := h m (fun _ _ => rfl) 0 (by omega)
      rw [Nat.add_zero, Nat.add_zero] at h0
      unfold copy8_user
      rw [h0]
      simp only [hs]
      rfl
    have hstep : memcpy_user pgd m x0 x1 x2 = (copy8_user pgd m x0 x1).bind fun m =>
        if 0 < x2 - 8 then memcpy_user pgd m (x0 + 8) (x1 + 8) (x2 - 8) else .ok m := by
      rw [memcpy_user]
      rfl
    rw [hstep, hcopy, ok_bind]
    by_cases hlt : 0 < x2 - 8
    · rw [if_pos hlt]
      rw [words_succ (by omega)] at h hd ⊢
      rw [ih (x2 - 8).toNat (by omega) (by omega : pa + 8 + VA_START = s + 8) (fun m' hm' o ho => ?_) (by omega) rfl]
      · rw [Nat.add_comm (words _) 8, Mem.copy_copy m s x1 8 _ (by omega)]
      · have hm : ∀ a, a < x1 ∨ x1 + (words (x2 - 8) + 8) ≤ a → m' a = m a := by
          intro a ha
          rw [hm' a (by omega), Mem.copy_outside (by omega)]
        have ho := h m' hm (o + 8) (by omega)
        rw [show x0 + 8 + o = x0 + (o + 8) by omega, ho, show pa + (o + 8) = pa + 8 + o by omega]
    · rw [if_neg hlt, words_of_le (by omega)]

/-- The page of a leaf becomes a copy of one mapped before. -/
theorem Space.copy (h : Space mm₀ mm pgd place content N) {src : Nat} {d : Fin PAGING_PAGES} (hsrc : Mapped mm₀ src va d)
    (hva : va % 4096 = 0) (hp : p ∈ N) (hlen : p.length = 4) :
    ∃ m', memcpy_user src mm.mem va (pageAddr (place p)) PAGE_SIZE = .ok m' ∧
      Space mm₀ { mm with mem := m' } pgd place (Function.update content p (mm₀.byte d)) N := by
  have hwords : words PAGE_SIZE = 4096 := rfl
  have hused : mm₀.mem_map d ≠ 0 := by
    obtain ⟨a, b, c, e, hused, -⟩ := hsrc
    exact hused d (by simp)
  have hne : d ≠ place p := by
    rintro rfl
    exact hused (h.fresh p hp)
  have hval : d.val ≠ (place p).val := fun heq => hne (Fin.ext heq)
  -- The walk goes through pages taken before, and none of them is the one written.
  have hwalk : ∀ m' : Mem, (∀ a, a < pageAddr (place p) ∨ pageAddr (place p) + words PAGE_SIZE ≤ a → m' a = mm.mem a) →
      ∀ o < words PAGE_SIZE, translate m' src (va + o) = some (physAddr d + o) := by
    intro m' hm' o ho
    rw [hwords] at hm' ho
    have hmapped : Mapped { mm with mem := m' } src va d := by
      refine hsrc.keep h.le fun i hi o ho => ?_
      have hi' : i.val ≠ (place p).val := by
        intro heq
        exact hi (Fin.ext heq ▸ h.fresh p hp)
      rw [← h.kept i hi o ho]
      refine hm' _ ?_
      simp only [pageAddr_eq]
      omega
    exact hmapped.translate hva ho
  have hcopy := memcpy_user_eq (physAddr_add d) hwalk (by rw [hwords, pageAddr_eq, pageAddr_eq]; omega)
  rw [hwords] at hcopy
  refine ⟨_, hcopy, h.fill hp hlen (fun a ha => Mem.copy_outside ha) fun o ho => ?_⟩
  rw [Mem.copy_inside ho]
  exact h.kept d hused o ho

end Copy

end ClbFilesystem
