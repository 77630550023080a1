import ClbFilesystem.Lib.Simulation
import ClbFilesystem.Effect
import ClbFilesystem.Ownership
import ClbFilesystem.Translations
/-!
# Isolation

What a step of the system may write, by the use of the pages. From it: the
addresses of processes lead to memory of their own, which no step of another
task changes, and never to a data block, a page table or a task. So the
filesystem and the scheduler run here as they do alone.
-/

namespace ClbFilesystem

open Lib

/-! ## What the MMU finds -/

section Walk
variable {mm : Mm} {pgd : Nat} {place : List (Fin 512) → Fin PAGING_PAGES} {N : Finset (List (Fin 512))}
  {leaf : List (Fin 512) → Option (Fin PAGING_PAGES)} {n : List (Fin 512)}

/-- In the tables the MMU follows the same entries as `map_table`. -/
theorem PageTree.descend (h : PageTree mm pgd place N leaf) (hn : n ∈ N) (hlen : n.length ≤ 3) (shift va : Nat) :
    ClbFilesystem.descend mm.mem (physAddr (place n)) shift va = ClbFilesystem.nextTable mm.mem (physAddr (place n)) shift va := by
  have hentry : mm.entry (place n) (tableIndex va shift) = 0 ∨ ∃ l d, mm.entry (place n) (tableIndex va shift) = enc l d := by
    have hcases : n.length < 3 ∨ n.length = 3 := by omega
    rcases hcases with hlt | heq
    · have hedge : mm.entry (place n) (tableIndex va shift) =
          if n ++ [entryIndex va shift] ∈ N then enc n.length (place (n ++ [entryIndex va shift])) else 0 :=
        h.stored.edge n hn hlt (entryIndex va shift)
      rw [hedge]
      split
      · exact .inr ⟨_, _, rfl⟩
      · exact .inl rfl
    · have hleaf : mm.entry (place n) (tableIndex va shift) = (leaf (n ++ [entryIndex va shift])).elim 0 (enc 3) :=
        h.leaves n hn heq (entryIndex va shift)
      rw [hleaf]
      cases leaf (n ++ [entryIndex va shift]) with
      | none => exact .inl rfl
      | some d => exact .inr ⟨3, d, rfl⟩
  rw [descend_eq, nextTable_eq]
  rcases hentry with hzero | ⟨l, d, henc⟩
  · rw [hzero, if_neg (by decide), if_pos rfl]
  · have htype : enc l d % 4 = 3 := entry_type d (flags_spec l).1 (flags_spec l).2
    rw [henc, if_pos htype, if_neg (enc_ne_zero l d), enc_page]
    exact congrArg some (entry_address d (flags_spec l).1)

theorem PageTree.of_nextTable (h : PageTree mm pgd place N leaf) (hn : n ∈ N) (hlen : n.length < 3) {shift va a : Nat}
    (hnext : ClbFilesystem.nextTable mm.mem (physAddr (place n)) shift va = some a) :
    n ++ [entryIndex va shift] ∈ N ∧ a = physAddr (place (n ++ [entryIndex va shift])) := by
  rw [h.nextTable hn hlen] at hnext
  split at hnext
  · next hmem => exact ⟨hmem, (Option.some.inj hnext).symm⟩
  · cases hnext

/-- An address leads to its leaf, at the offset in the page. -/
theorem PageTree.translate (h : PageTree mm pgd place N leaf) (hpgd : pgd ≠ 0) (va : Nat) :
    ClbFilesystem.translate mm.mem pgd va = (leaf (tablePath va)).map fun d : Fin PAGING_PAGES => physAddr d + va % PAGE_SIZE := by
  have hroot : [] ∈ N := by
    by_contra hno
    exact hpgd (h.root.trans (if_neg hno))
  have hpgd' : pgd = physAddr (place []) := h.root.trans (if_pos hroot)
  have hwalk : ClbFilesystem.translate mm.mem pgd va = (walkTables mm.mem pgd va).map (· + va % PAGE_SIZE) := by
    rw [walkTables_eq _ hpgd, translate_eq, hpgd', h.descend hroot (by simp), Option.map_bind]
    refine Option.bind_congr fun pud hpud => ?_
    obtain ⟨hmem₁, rfl⟩ := h.of_nextTable hroot (by simp) hpud
    rw [h.descend hmem₁ (by simp), Function.comp_apply, Option.map_bind]
    refine Option.bind_congr fun pmd hpmd => ?_
    obtain ⟨hmem₂, rfl⟩ := h.of_nextTable hmem₁ (by simp) hpmd
    rw [h.descend hmem₂ (by simp), Function.comp_apply, Option.map_bind]
    refine Option.bind_congr fun pte hpte => ?_
    obtain ⟨hmem₃, rfl⟩ := h.of_nextTable hmem₂ (by simp) hpte
    rw [h.descend hmem₃ (by simp), Function.comp_apply, Option.map_eq_bind]
    exact Option.bind_congr fun _ _ => rfl
  rw [hwalk, h.walk]
  cases leaf (tablePath va) <;> rfl

end Walk

/-- The addresses of a task lead to the pages mapped for it. -/
theorem Uses.physical {o : Os} {use : PageUse} {T : TaskPtr → Tables} (h : Uses o.toMm o.mm_struct use T) (p : TaskPtr) (va : Nat) :
    o.physical p va = ((T p).leaf (tablePath va)).map fun d : Fin PAGING_PAGES => physAddr d + va % PAGE_SIZE := by
  unfold Os.physical
  split
  · next hpgd =>
    have hroot : [] ∉ (T p).nodes := by
      intro hmem
      have hpos := physAddr_pos ((T p).place [])
      rw [(h.tree p).root, if_pos hmem] at hpgd
      omega
    have hwalk := (h.tree p).walk va
    unfold walkTables at hwalk
    rw [if_pos hpgd] at hwalk
    cases hleaf : (T p).leaf (tablePath va) with
    | none => rfl
    | some d =>
      rw [hleaf] at hwalk
      cases hwalk
  · next hpgd => exact (h.tree p).translate hpgd va

/-! ## What a call of the filesystem writes -/

theorem words_mono {m n : Int} (h : m ≤ n) : words m ≤ words n := by
  unfold words
  split_ifs <;> omega

/-- A call writes in the data blocks and in the caller's buffer. -/
theorem Effect.outside {s s' : State} {c : Call} {r : Reply} (hi : Inv s) (h : Effect s c r s') {a : Nat} (hblock : ¬ InBlocks a)
    (hbuf : a < c.buffer.1 ∨ c.buffer.1 + c.buffer.2 ≤ a) : s'.mem a = s.mem a := by
  obtain ⟨T, ht⟩ := hi.tree
  have hone := words_pos 0
  cases h with
  | created => rfl
  | removed => rfl
  | opened => rfl
  | closed => rfl
  | refused => rfl
  | @read d str len i hstr hf =>
    have hbuf' : a < str ∨ str + words len.toNat ≤ a := hbuf
    have hpos := words_pos (len.toNat : Int)
    show s.fetched i str len a = s.mem a
    unfold State.fetched
    split
    · exact Mem.write_outside _ _ _ (by simp only [List.length_singleton]; omega)
    · have hle : words (readCount (s.inode i).size len : Int) ≤ words (len.toNat : Int) :=
        words_mono (by exact_mod_cast readCount_le_len _ len)
      exact memcpy_outside _ _ _ _ (by omega)
  | @wrote c d str len base i hc hstr hf =>
    rw [State.written_mem]
    refine Mem.copyBytes_outside _ _ _ _ ?_
    have hle := base_add_writeCount_le ((hc.base_le _).trans (ht.size i)) len
    have hmax : FILE_MAX_SIZE = 4096 := rfl
    have hi := i.isLt
    have hn : FS_NPAGES = 128 := rfl
    by_contra hin
    refine hblock ⟨?_, ?_⟩
    · rw [pageAddr_eq] at hin ⊢
      omega
    · rw [pageAddr_eq] at hin ⊢
      omega
  | @listed d son_name i n hb hd hk hn =>
    have hbuf' : a < son_name ∨ son_name + (MAX_SIZE_NAME + 1) ≤ a := hbuf
    have hlen := ht.length_nameOf n
    exact Mem.write_outside _ _ _ (by simp only [List.length_append, List.length_singleton]; omega)
  | @ended d son_name i hb hd hk hn =>
    have hbuf' : a < son_name ∨ son_name + (MAX_SIZE_NAME + 1) ≤ a := hbuf
    exact Mem.write_outside _ _ _ (by simp only [List.length_singleton]; omega)

theorem Effect.mem_map {s s' : State} {c : Call} {r : Reply} (h : Effect s c r s') : s'.mem_map = s.mem_map := by cases h <;> rfl

theorem exec_frame {s s' : State} {c : Call} {r : Reply} (hi : Inv s) (h : exec c s = .ok (r, s')) :
    s'.mem_map = s.mem_map ∧ ∀ a, ¬ InBlocks a → a < c.buffer.1 ∨ c.buffer.1 + c.buffer.2 ≤ a → s'.mem a = s.mem a := by
  obtain ⟨tk, htk, he⟩ := exec_effect hi h
  exact ⟨he.mem_map, fun a hblock hbuf => he.outside (hi.congr htk) hblock hbuf⟩

/-! ## The tables loaded -/

/-- `ttbr0_el1` holds the tables of the current task, if it has any. -/
def Os.Loaded (o : Os) : Prop := (o.mm_struct o.current).pgd ≠ 0 → o.ttbr0_el1 = (o.mm_struct o.current).pgd

/-- Then a process reaches memory as its tables say. -/
theorem Os.Loaded.translate {o : Os} (h : o.Loaded) (hpgd : (o.mm_struct o.current).pgd ≠ 0) (va : Nat) :
    ClbFilesystem.translate o.mem o.ttbr0_el1 va = o.physical o.current va := by
  unfold Os.physical
  rw [if_neg hpgd, h hpgd]

theorem allocate_user_page_none {t t' : MmStruct} {va : Nat} {mm mm' : Mm} (h : allocate_user_page t va mm = .ok (0, t', mm')) :
    t' = t := by
  unfold allocate_user_page at h
  rcases get_free_page_cases mm with ⟨j, -, hget⟩ | ⟨-, hget⟩
  · rw [hget] at h
    simp only [if_neg (physAddr_pos j).ne'] at h
    obtain ⟨⟨t₁, mm₁⟩, -, h⟩ := bind_ok h
    have hpage := congrArg Prod.fst (Except.ok.inj h)
    exact absurd ((physAddr_add j).symm.trans hpage) (pageAddr_ne_zero j)
  · rw [hget] at h
    cases h
    rfl

theorem map_page_pgd {t t' : MmStruct} {va page : Nat} {mm mm' : Mm} (h : map_page t va page mm = .ok (t', mm')) (hpgd : t.pgd ≠ 0) :
    t'.pgd = t.pgd := by
  have hcount := map_page_count h
  have hroot : mapRoot t mm = (t, mm) := if_neg hpgd
  rw [map_page_eq rfl rfl rfl] at h
  obtain ⟨t₁, hadd, h⟩ := bind_ok h
  obtain rfl : t₁ = t' := congrArg Prod.fst (Except.ok.inj h)
  obtain ⟨hsame, huser⟩ := addTables_spec t mm _ _ _
  obtain ⟨t₂, hadd', hpgd', -⟩ := MmStruct.addUserPage_eq (huser.1 ▸ hcount) ⟨page, va⟩
  rw [hadd'] at hadd
  cases hadd
  rw [hpgd', hsame, hroot]

theorem Os.Loaded.next {o o' : Os} (h : o.Loaded) (hti : TaskInv o.toKernel) {e : OsEvent} (hn : OsNext o e o')
    (ho : e.Orderly o) : o'.Loaded := by
  cases hn with
  | @kernel c pid k hex =>
    intro hpgd
    by_cases hcur : k.current = o.current
    · have hmm : (o.withKernel k).mm_struct (o.withKernel k).current = o.mm_struct o.current := by
        show k.mm_struct k.current = _
        rw [hcur]
        exact exec_mm_struct hti hex hti.current
      rw [hmm] at hpgd ⊢
      exact (if_pos hcur).trans (h hpgd)
    · exact if_neg hcur
  | vfs | store | entry | stack => exact h
  | @move_to_user_mode start size pc r k hcall =>
    obtain ⟨a, t, mm, halloc, hr, hk⟩ := move_to_user_mode_spec hcall
    intro hpgd
    by_cases ha : a = 0
    · subst ha
      have hmm : k.mm_struct k.current = o.mm_struct o.current := by
        rw [hk.mm_struct, hk.current, Function.update_self, allocate_user_page_none halloc]
      have hneg : r ≠ 0 := by
        rw [hr]
        decide
      refine (if_neg hneg).trans ((h ?_).trans (congrArg MmStruct.pgd hmm.symm))
      rw [← hmm]
      exact hpgd
    · exact if_pos (hr.trans (if_neg ha))
  | @mem_abort addr esr r ind k hcall =>
    rcases do_mem_abort_spec hcall with ⟨-, -, -, rfl⟩ | ⟨-, j, t, mm, -, hmap, rfl, -⟩
    · exact h
    · intro _
      have hmm : ({ o.toKernel with toMm := mm }.modTask o.current ({ · with mm := t })).mm_struct o.current = t := by
        rw [Kernel.setMm_mm_struct, Function.update_self]
      exact (h ho).trans ((map_page_pgd hmap ho).symm.trans (congrArg MmStruct.pgd hmm.symm))

/-! ## One step -/

/-- What the pages of the system are for. -/
structure Os.Laid (o : Os) (use : PageUse) (T : TaskPtr → Tables) : Prop where
  kernel : o.toKernel.Laid use T
  blocks : ∀ i : Fin PAGING_PAGES, i.val < FS_NPAGES → use i = some .block

/-- The pages a step made by task `p` may write, of those in use. -/
def OsEvent.Writes (p : TaskPtr) : OsEvent → Use → Prop
  | .kernel _ _, _ => False
  | .vfs _ _, u => u = .block ∨ u = .task ∨ ∃ n, u = .user p n
  | .store va _, u => u = .user p (tablePath va)
  | .entry _, _ => False
  | .stack, u => u = .task
  | .move_to_user_mode _ _ _ _, u => ∃ n, u = .table p n
  | .mem_abort _ _ _, u => ∃ n, u = .table p n

/-- Pages in use that the step may not write are as before, and so are the tables of the other tasks. -/
structure Os.Spared (o : Os) (use : PageUse) (T : TaskPtr → Tables) (e : OsEvent) (o' : Os) (use' : PageUse)
    (T' : TaskPtr → Tables) : Prop where
  laid : o'.Laid use' T'
  kept : Kept o.toMm use o'.toMm use' fun i => ∃ u, use i = some u ∧ e.Writes o.current u
  others : ∀ i q, o.task i = some q → q ≠ o.current → T' q = T q

theorem page_unique {i j : Fin PAGING_PAGES} {a : Nat} (hi : pageAddr i ≤ a) (hi' : a < pageAddr i + PAGE_SIZE) (hj : pageAddr j ≤ a)
    (hj' : a < pageAddr j + PAGE_SIZE) : i = j := by
  rw [PAGE_SIZE_eq, pageAddr_eq] at hi' hj'
  rw [pageAddr_eq] at hi hj
  exact Fin.ext (by omega)

theorem inPaging_page {i : Fin PAGING_PAGES} {a : Nat} (hi : pageAddr i ≤ a) (hi' : a < pageAddr i + PAGE_SIZE) : InPaging a := by
  have hlt : i.val < 257024 := i.isLt
  have hhigh : VA_START + HIGH_MEMORY = 0xffff00003F000000 := rfl
  have hlow : VA_START + LOW_MEMORY = 0xffff000000400000 := rfl
  rw [PAGE_SIZE_eq, pageAddr_eq] at hi'
  rw [pageAddr_eq] at hi
  unfold InPaging
  omega

section Laid
variable {o o' : Os} {use use' : PageUse} {T T' : TaskPtr → Tables} {i : Fin PAGING_PAGES} {a : Nat}

theorem Os.Laid.physical (h : o.Laid use T) (p : TaskPtr) (va : Nat) :
    o.physical p va = ((T p).leaf (tablePath va)).map fun d : Fin PAGING_PAGES => physAddr d + va % PAGE_SIZE :=
  h.kernel.uses.physical p va

/-- A physical address of a process is in a page of that use. -/
theorem Os.Laid.of_physical (h : o.Laid use T) {p : TaskPtr} {va pa : Nat} (hpa : o.physical p va = some pa) :
    ∃ d : Fin PAGING_PAGES, use d = some (.user p (tablePath va)) ∧ pa + VA_START = pageAddr d + va % PAGE_SIZE := by
  rw [h.physical] at hpa
  obtain ⟨d, hleaf, heq⟩ := Option.map_eq_some_iff.1 hpa
  refine ⟨d, h.kernel.uses.user p _ d hleaf, ?_⟩
  rw [← heq, ← physAddr_add]
  omega

theorem offset_lt (va : Nat) : va % PAGE_SIZE < PAGE_SIZE := Nat.mod_lt _ (by decide)

/-- What is written at the address of a process is in one page of that use. -/
theorem Os.Laid.in_page (h : o.Laid use T) {p : TaskPtr} {va pa : Nat} (hpa : o.physical p va = some pa) (hi : pageAddr i ≤ pa + VA_START)
    (hi' : pa + VA_START < pageAddr i + PAGE_SIZE) : use i = some (.user p (tablePath va)) := by
  obtain ⟨d, huse, heq⟩ := h.of_physical hpa
  have hoff := offset_lt va
  obtain rfl : i = d := page_unique hi hi' (by omega) (by omega)
  exact huse

/-- The page with the stack of the current task. -/
theorem Os.Laid.stack (h : o.Laid use T) (hti : TaskInv o.toKernel) (ho : ∃ j : Fin PAGING_PAGES, o.current = .page (pageAddr j) ∧
    pageAddr j ≤ a ∧ a < pageAddr j + PAGE_SIZE) (hi : pageAddr i ≤ a) (hi' : a < pageAddr i + PAGE_SIZE) : use i = some .task := by
  obtain ⟨j, hcur, hj, hj'⟩ := ho
  obtain ⟨m, hm⟩ := hti.current
  rw [page_unique hi hi' hj hj']
  exact h.kernel.tasks m j (hcur ▸ hm)

theorem Os.Laid.owns (h : o.Laid use T) (hti : TaskInv o.toKernel) (ho : o.Owns a) (hi : pageAddr i ≤ a)
    (hi' : a < pageAddr i + PAGE_SIZE) : use i = some .task ∨ ∃ n, use i = some (.user o.current n) := by
  rcases ho with hout | hstack | ⟨va, pa, hpa, rfl⟩
  · exact absurd (inPaging_page hi hi') hout
  · exact .inl (h.stack hti hstack hi hi')
  · exact .inr ⟨_, h.in_page hpa hi hi'⟩

/-- A block is in no other use. -/
theorem Os.Laid.inBlocks (h : o.Laid use T) (ha : InBlocks a) (hi : pageAddr i ≤ a) : use i = some .block := by
  refine h.blocks i ?_
  have hend : pageAddr FS_NPAGES = pageAddr 128 := rfl
  have hn : FS_NPAGES = 128 := rfl
  obtain ⟨-, hlt⟩ := ha
  rw [hend, pageAddr_eq] at hlt
  rw [pageAddr_eq] at hi
  omega

theorem Os.Laid.kept_blocks (h : o.Laid use T) {mm mm' : Mm} {W : Fin PAGING_PAGES → Prop} (hkept : Kept mm use mm' use' W) :
    ∀ i : Fin PAGING_PAGES, i.val < FS_NPAGES → use' i = some .block := by
  intro i hi
  have hblock := h.blocks i hi
  rw [hkept.same i (by rw [hblock]; exact Option.some_ne_none _), hblock]

/-- Memory is written in pages of processes, of tasks, in blocks, or outside the allocator; nothing else changes. -/
theorem Os.Laid.write (h : o.Laid use T) {e : OsEvent} {mem : Mem} (hk : o'.toKernel = { o.toKernel with mem := mem })
    (hm : ∀ i u a, use i = some u → pageAddr i ≤ a → a < pageAddr i + PAGE_SIZE → mem a ≠ o.mem a → e.Writes o.current u)
    (htable : ∀ p n, ¬ e.Writes o.current (.table p n)) : o.Spared use T e o' use T := by
  have hbyte : ∀ i u, use i = some u → ¬ e.Writes o.current u → ∀ k < 4096, mem (pageAddr i + k) = o.toMm.byte i k := by
    intro i u hu hw k hk
    by_contra hne
    have hsize : PAGE_SIZE = 4096 := rfl
    exact hw (hm i u _ hu (by omega) (by omega) hne)
  refine ⟨⟨?_, h.blocks⟩, ?_, fun _ _ _ _ => rfl⟩
  · rw [hk]
    refine ⟨h.kernel.uses.write fun p i hi => ?_, h.kernel.tasks⟩
    obtain ⟨n, hn, rfl⟩ := hi
    exact hbyte _ _ (h.kernel.uses.table p n hn) (htable p n)
  · rw [hk]
    refine ⟨fun _ _ => rfl, fun _ hi => hi, fun i hi hw => ?_⟩
    obtain ⟨u, hu⟩ := Option.ne_none_iff_exists'.1 hi
    exact hbyte i u hu fun hw' => hw ⟨u, hu, hw'⟩

/-- A process stores in memory of its own; the tables say what they said. -/
theorem Os.Laid.store (h : o.Laid use T) {va pa : Nat} (hpa : o.physical o.current va = some pa) (b : UInt8)
    (hk : o'.toKernel = { o.toKernel with mem := Function.update o.mem (pa + VA_START) b }) :
    o.Spared use T (.store va b) o' use T := by
  refine h.write hk (fun i u a hu ha ha' hne => ?_) (by rintro p n hw; cases hw)
  have hat : a = pa + VA_START := by
    by_contra hno
    exact hne (Function.update_of_ne hno _ _)
  rw [hat] at ha ha'
  rw [h.in_page hpa ha ha'] at hu
  exact (Option.some.inj hu).symm

/-- The kernel works on the tasks and on their tables. -/
theorem Os.Laid.of_kernel (h : o.Laid use T) {e : OsEvent} {W : Fin PAGING_PAGES → Prop}
    (hs : o.toKernel.Spared use T o'.toKernel use' T' W)
    (hW : ∀ i, use i ≠ none → W i → ∃ u, use i = some u ∧ e.Writes o.current u) : o.Spared use T e o' use' T' :=
  ⟨⟨hs.laid, h.kept_blocks hs.kept⟩, hs.kept.mono hW, hs.others⟩

theorem Uses.of_has {mm : Mm} {mms : TaskPtr → MmStruct} (h : Uses mm mms use T) {p : TaskPtr} (hi : (T p).Has i) :
    ∃ u, use i = some u ∧ ∃ n, u = .table p n := by
  obtain ⟨n, hn, rfl⟩ := hi
  exact ⟨_, h.table p n hn, n, rfl⟩

theorem Os.Laid.move_to_user_mode (h : o.Laid use T) {start size pc : Nat} {r : Int} {k : Kernel}
    (hcall : move_to_user_mode start size pc o.toKernel = .ok (r, k)) (hk' : o'.toKernel = k)
    (ho : Orderly ⟨o, .move_to_user_mode start size pc r, o'⟩) :
    ∃ use' T', o.Spared use T (.move_to_user_mode start size pc r) o' use' T' ∧
      (r = 0 → (T' o.current).leaf (tablePath 0) ≠ none) := by
  subst hk'
  have hsize : words (toLong size) ≤ PAGE_SIZE := ho.event
  obtain ⟨a, t, mm, halloc, hr, hk⟩ := move_to_user_mode_spec hcall
  have htabled : t.Tabled := by
    have htabled := ho.tabled o.current
    rwa [hk.mm_struct, Function.update_self] at htabled
  have htasks : ∀ {use' : PageUse} {mm' : Mm} {W : Fin PAGING_PAGES → Prop}, Kept o.toMm use mm' use' W →
      ∀ i (j : Fin PAGING_PAGES), o'.task i = some (.page (pageAddr j)) → use' j = some .task := by
    intro use' mm' W hkept i j hi
    rw [hk.task] at hi
    have hold := h.kernel.tasks i j hi
    rw [hkept.same j (by rw [hold]; exact Option.some_ne_none _), hold]
  rcases h.kernel.uses.allocate_user_page halloc htabled with ⟨rfl, rfl, rfl⟩ | ⟨j, use', T', rfl, hj, huses, hmapping, huse⟩
  · -- No page: only the registers have changed.
    have hms : o'.mm_struct = o.mm_struct := hk.mm_struct.trans (Function.update_eq_self ..)
    refine ⟨use, T, h.of_kernel (h.kernel.same (hk.toMm.trans (if_pos rfl)) hms hk.task fun _ => False) fun _ _ hw => hw.elim,
      fun hzero => ?_⟩
    rw [hr, if_pos rfl] at hzero
    cases hzero
  · have hmm := hk.toMm.trans (if_neg (pageAddr_ne_zero j))
    have hpage : PAGE_SIZE = 4096 := rfl
    obtain ⟨hfill, hfilled⟩ := huses.fill huse fun a ha =>
      memcpy_outside mm.mem start (pageAddr j) (toLong size) (a := a) (by omega)
    rw [← hmm, ← hk.mm_struct] at hfill
    rw [← hmm] at hfilled
    have hfree := h.kernel.uses.free hj
    have hkept : Kept o.toMm use o'.toMm use' (T o.current).Has := by
      refine hmapping.kept.trans hfilled ?_
      rintro i hi rfl
      exact absurd hfree hi
    refine ⟨use', T', h.of_kernel ⟨⟨hfill, htasks hkept⟩, hkept, fun _ q _ hq => hmapping.others q hq⟩
      fun i _ hhas => h.kernel.uses.of_has hhas, fun _ => ?_⟩
    rw [hmapping.leaf, Function.update_self]
    exact Option.some_ne_none j

theorem Os.Laid.mem_abort (h : o.Laid use T) {addr esr : Nat} {r ind : Int} {k : Kernel}
    (hcall : do_mem_abort addr esr o.ind o.toKernel = .ok (r, ind, k)) (hk' : o'.toKernel = k)
    (ho : Orderly ⟨o, .mem_abort addr esr r, o'⟩) : ∃ use' T', o.Spared use T (.mem_abort addr esr r) o' use' T' := by
  rcases do_mem_abort_spec hcall with ⟨-, -, -, rfl⟩ | ⟨-, j, t, mm, hj, hmap, rfl, -⟩
  · have hsame : o.toKernel.Spared use T o'.toKernel use T fun _ => False := by
      rw [hk']
      exact h.kernel.same rfl rfl rfl _
    exact ⟨use, T, h.of_kernel hsame fun _ _ hw => hw.elim⟩
  · have htabled : t.Tabled := by
      have htabled := ho.tabled o.current
      rwa [hk', Kernel.setMm_mm_struct, Function.update_self] at htabled
    obtain ⟨use', T', huses, hmapping, -⟩ := h.kernel.uses.take_map hj hmap htabled
    refine ⟨use', T', h.of_kernel ?_ fun i _ hhas => h.kernel.uses.of_has hhas⟩
    rw [hk']
    exact h.kernel.mapped huses hmapping

theorem Os.Laid.next (h : o.Laid use T) (hti : TaskInv o.toKernel) (hi : Inv o.fs) (hl : o.Loaded) {e : OsEvent} (hn : OsNext o e o')
    (ho : Orderly ⟨o, e, o'⟩) : ∃ use' T', o.Spared use T e o' use' T' := by
  cases hn with
  | kernel hex =>
    obtain ⟨use', T', hs⟩ := h.kernel.exec hti hex ho.tabled
    exact ⟨use', T', h.of_kernel hs fun _ _ hw => hw.elim⟩
  | @vfs c r s hex =>
    refine ⟨use, T, h.write rfl (fun i u a hu ha ha' hne => ?_) (by rintro p n (hw | hw | ⟨m, hw⟩) <;> cases hw)⟩
    by_cases hblock : InBlocks a
    · rw [h.inBlocks hblock ha] at hu
      exact .inl (Option.some.inj hu).symm
    by_cases hin : a < c.buffer.1 ∨ c.buffer.1 + c.buffer.2 ≤ a
    · exact absurd ((exec_frame hi hex).2 a hblock hin) hne
    · have howns := ho.event (a - c.buffer.1) (by omega)
      rw [show c.buffer.1 + (a - c.buffer.1) = a by omega] at howns
      rcases h.owns hti howns ha ha' with htask | ⟨n, huser⟩
      · rw [htask] at hu
        exact .inr (.inl (Option.some.inj hu).symm)
      · rw [huser] at hu
        exact .inr (.inr ⟨n, (Option.some.inj hu).symm⟩)
  | store hpa => exact ⟨use, T, h.store (hl.translate ho.event _ ▸ hpa) _ rfl⟩
  | @entry regs =>
    have hsame : o.toKernel.Spared use T { o.toKernel with pt_regs := Function.update o.pt_regs o.current regs } use T fun _ => False :=
      ⟨h.kernel.congr rfl rfl rfl, .refl _ _ _, fun _ _ _ _ => rfl⟩
    exact ⟨use, T, h.of_kernel hsame fun _ _ hw => hw.elim⟩
  | @stack mem hm =>
    refine ⟨use, T, h.write rfl (fun i u a hu ha ha' hne => ?_) (by rintro p n hw; cases hw)⟩
    rcases hm a hne with hout | hstack
    · exact absurd (inPaging_page ha ha') hout
    · rw [h.stack hti hstack ha ha'] at hu
      exact (Option.some.inj hu).symm
  | move_to_user_mode hcall =>
    obtain ⟨use', T', hs, -⟩ := h.move_to_user_mode hcall rfl ho
    exact ⟨use', T', hs⟩
  | mem_abort hcall => exact h.mem_abort hcall rfl ho

end Laid

end ClbFilesystem
