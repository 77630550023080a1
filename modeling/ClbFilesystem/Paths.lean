import ClbFilesystem.Effect
import Mathlib.Data.List.Find
/-!
# Paths and names

How path texts compose, which of them lead to the root, and what a creation does
to the lookups: the new entry comes last on the chain of its folder, so every
name found before is found again, at the same entry.
-/

namespace ClbFilesystem

open Lib

/-! ## The text of a path -/

/-- `path + '/' + name`. -/
def CStr.join (path name : CStr) : CStr := ⟨path.chars ++ slash :: name.chars, by simp [path.no_nul, name.no_nul, slash]⟩

/-- A path of slashes alone. -/
def SlashRun (path : List UInt8) : Prop := path ≠ [] ∧ ∀ c ∈ path, c = slash

/-- Only separators leave nothing but empty pieces. -/
theorem splitOn_all_nil (l : List UInt8) : (∀ c ∈ l.splitOn slash, c = []) ↔ ∀ x ∈ l, x = slash := by
  induction l with
  | nil => simp
  | cons x l ih =>
    rw [List.splitOn_cons_eq_if_modifyHead]
    by_cases hx : x = slash
    · simp [hx, ih]
    · have hne := List.splitOn_ne_nil slash l
      cases hl : l.splitOn slash with
      | nil => exact absurd hl hne
      | cons c cs => simp [hx]

theorem slash_not_mem_piece {l c : List UInt8} (hc : c ∈ l.splitOn slash) : slash ∉ c := by
  induction l generalizing c with
  | nil =>
    rw [List.splitOn_nil, List.mem_singleton] at hc
    simp [hc]
  | cons x l ih =>
    rw [List.splitOn_cons_eq_if_modifyHead] at hc
    by_cases hx : x = slash
    · rw [if_pos (by simpa using hx), List.mem_cons] at hc
      rcases hc with rfl | hc
      · simp
      · exact ih hc
    · rw [if_neg (by simpa using hx)] at hc
      cases hl : l.splitOn slash with
      | nil => exact absurd hl (List.splitOn_ne_nil slash l)
      | cons c₀ cs =>
        rw [hl] at hc ih
        rcases List.mem_cons.1 hc with rfl | hc
        · rw [List.mem_cons, not_or]
          exact ⟨Ne.symm hx, ih (by simp)⟩
        · exact ih (by simp [hc])

theorem components_join {path name : List UInt8} (hp : path ≠ []) :
    State.components (path ++ slash :: name) = State.components path ++ name.splitOn slash := by
  unfold State.components
  cases path with
  | nil => exact absurd rfl hp
  | cons c l => exact List.splitOn_append_cons_self l name

/-- A path that goes on below a folder. -/
theorem State.resolve_join {s : State} {path name : List UInt8} {d : Fin FS_NPAGES} (hd : s.resolve path = some d)
    (hk : s.kind d = .FOLDER) : s.resolve (path ++ slash :: name) = walk s.kind s.lookup d (name.splitOn slash) := by
  unfold resolve at hd
  split at hd
  · next hslash =>
    have hp : path ≠ [] := by
      rintro rfl
      simp [charAt, slash] at hslash
    have hslash' : charAt (path ++ slash :: name) 0 = slash := by
      cases path with
      | nil => exact absurd rfl hp
      | cons c l => simpa [charAt] using hslash
    unfold resolve
    rw [if_pos hslash', components_join hp]
    exact walk_append hd hk (List.splitOn_ne_nil slash name)
  · cases hd

/-! ## What `parse_path` returns -/

/-- `parse_path` takes the path to inode `i`. -/
def Designates (s : State) (path : CStr) (i : Fin FS_NPAGES) : Prop := ∃ t, parse_path path.chars s = .ok (some i, t)

theorem Inv.designates_iff {s : State} (hi : Inv s) (path : CStr) (i : Fin FS_NPAGES) :
    Designates s path i ↔ s.resolve path.chars = some i := by
  obtain ⟨T, ht⟩ := hi.tree
  unfold Designates
  rw [parse_path_eq ht hi.token path]
  simp

/-! ## The root -/

/-- A walk ends where it began if and only if it takes no step, in a structure that does not lead there. -/
theorem walk_self_iff {kind : Fin FS_NPAGES → TypeFile} {find : Fin FS_NPAGES → List UInt8 → InodePtr} {r : Fin FS_NPAGES}
    (hk : kind r = .FOLDER) (hf : ∀ i c, find i c ≠ some r) {cs : List (List UInt8)} :
    walk kind find r cs = some r ↔ cs ≠ [] ∧ ∀ c ∈ cs, c = [] := by
  induction cs with
  | nil => simp [walk]
  | cons c cs ih =>
    by_cases hc : c = []
    · subst hc
      by_cases hcs : cs = []
      · simp [walk, hcs, hk]
      · simp [walk, hcs, hk, ih]
    · refine iff_of_false (fun hw => ?_) (by simp [hc])
      simp only [walk, hc, if_false] at hw
      split at hw
      · cases hw
      · cases hn : find r c with
        | none => simp [hn] at hw
        | some j =>
          have hj : j ≠ r := by
            rintro rfl
            exact hf _ _ hn
          simp only [hn] at hw
          split at hw
          · split at hw
            · cases hw
            · exact hj (Option.some.inj hw)
          · split at hw
            · exact walk_ne (fun i c _ => hf i c) hj hw
            · cases hw

section Tree
variable {s : State} {T : Tree} (h : TreeInv s T)
include h

/-- What is found under a name is a son of that name. -/
theorem TreeInv.of_lookup {i j : Fin FS_NPAGES} {c : List UInt8} (hf : s.lookup i c = some j) :
    (s.inode j).father = some i ∧ (s.inode j).nameOf = c := by
  unfold State.lookup at hf
  exact ⟨(h.mem_sons i j).1 (List.mem_of_find?_eq_some hf), by simpa using List.find?_some hf⟩

theorem TreeInv.lookup_ne_root (i : Fin FS_NPAGES) (c : List UInt8) : s.lookup i c ≠ some ROOT_INODE := by
  intro hf
  have := (h.of_lookup hf).1
  rw [h.root_father] at this
  cases this

/-- The paths that lead to the root are the runs of slashes. -/
theorem TreeInv.resolve_root_iff (path : List UInt8) : s.resolve path = some ROOT_INODE ↔ SlashRun path := by
  unfold State.resolve
  cases path with
  | nil => simp [charAt, slash, SlashRun]
  | cons x l =>
    by_cases hx : x = slash
    · subst hx
      have hslash : charAt (slash :: l) 0 = slash := rfl
      rw [if_pos hslash, walk_self_iff h.root h.lookup_ne_root]
      simp [State.components, splitOn_all_nil, SlashRun]
    · have hslash : charAt (x :: l) 0 ≠ slash := hx
      simp [if_neg hslash, SlashRun, hx]

/-! ## Lookups after a creation -/

/-- The new entry is the last son of its folder. -/
theorem TreeInv.created_sons {name : CStr} {type : TypeFile} {d i : Fin FS_NPAGES} (hd : (s.inode d).type = .FOLDER)
    (hi : (s.inode i).type = .EMPTY) (ht : type ≠ .EMPTY) (k : Fin FS_NPAGES) :
    (s.created name type d i).sons k = if k = d then s.sons d ++ [i] else s.sons k := by
  have h' := h.created name hd hi ht
  obtain ⟨hif, hib, -⟩ := h.free i hi
  have hchain := (h'.chain_sons k).1
  rw [State.created_links] at hchain
  have hfirst : ((s.created name type d i).inode k).first_son =
      if k = d ∧ (s.inode d).first_son = none then some i else (s.inode k).first_son := by
    rw [State.created_inode]
    rfl
  rw [hfirst] at hchain
  have hfather : ∀ e, ∀ j ∈ s.sons e, s.links.father j = some e := fun e j hj => (h.mem_sons e j).1 hj
  apply hchain.unique
  by_cases hk : k = d
  · subst hk
    have hiS : i ∉ s.sons k := fun hm => by
      have := (h.mem_sons k i).1 hm
      rw [hif] at this
      cases this
    simpa using (h.chain_sons k).1.link_snoc (hfather k) hiS hib
  · simp only [hk, false_and, if_false]
    apply (h.chain_sons k).1.link_frame
    intro j hj
    rw [hfather k j hj]
    exact fun e => hk (Option.some.inj e)

/-- A removed entry is off the chain of its folder, and what is removed has no sons. -/
theorem TreeInv.removed_sons {i : Fin FS_NPAGES} (hiT : i ∈ T.labels) (hi : i ≠ ROOT_INODE) (k : Fin FS_NPAGES) :
    (s.removed i).sons k = if k ∈ i :: s.below i then [] else (s.sons k).filter (· ≠ i) := by
  have h' := h.removed hiT hi
  obtain ⟨G, hG⟩ := Forest.exists_sonsOf hiT
  by_cases hk : k ∈ i :: s.below i
  · have hfirst : ((s.removed i).inode k).first_son = none := by
      rw [State.removed_inode, if_pos hk]
      rfl
    rw [if_pos hk]
    unfold State.sons
    rw [hfirst, Links.chainList_none]
  · have hchain := (h'.chain_sons k).1
    have hfirst : ((s.removed i).inode k).first_son =
        if (s.inode k).first_son = some i then (s.inode i).brother else (s.inode k).first_son := by
      rw [State.removed_inode, if_neg hk]
      rfl
    rw [hfirst] at hchain
    rw [if_neg hk]
    apply hchain.unique
    -- The sons left over are neither `i` nor below it: below `i` fathers are removed too.
    refine ((h.chain_sons k).1.unlink i (h.sons_nodup k)).frame fun j hj => ?_
    simp only [List.mem_filter, decide_eq_true_eq] at hj
    have hjb : j ∉ i :: s.below i := by
      rw [List.mem_cons, not_or]
      refine ⟨hj.2, fun hbelow => hk ?_⟩
      rw [h.below_eq hG] at hbelow ⊢
      obtain ⟨d, hd, hf⟩ := h.father_of_below hG hbelow
      rw [(h.mem_sons k j).1 hj.1] at hf
      obtain rfl := Option.some.inj hf
      exact hd
    simp only [State.links, State.removed_inode, if_neg hjb]

/-- A name is found where it was; the new name in the folder is found at the new entry if it was not there. -/
theorem TreeInv.created_lookup {name : CStr} (hl : name.chars.length ≤ MAX_SIZE_NAME) {type : TypeFile} {d i : Fin FS_NPAGES}
    (hd : (s.inode d).type = .FOLDER) (hi : (s.inode i).type = .EMPTY) (ht : type ≠ .EMPTY) (k : Fin FS_NPAGES)
    (c : List UInt8) : (s.created name type d i).lookup k c =
      (s.lookup k c).or (if k = d ∧ name.chars = c then some i else none) := by
  have hiS : ∀ e, i ∉ s.sons e := fun e hm => by
    have := (h.mem_sons e i).1 hm
    rw [(h.free i hi).1] at this
    cases this
  have hold : ∀ e, (s.sons e).find? (fun j => ((s.created name type d i).inode j).nameOf = c) = s.lookup e c := by
    intro e
    unfold State.lookup
    refine List.find?_congr fun j hj => ?_
    have hji : j ≠ i := by
      rintro rfl
      exact hiS e hj
    rw [h.created_nameOf hl, if_neg hji]
  unfold State.lookup at hold ⊢
  rw [h.created_sons hd hi ht]
  by_cases hk : k = d
  · subst hk
    rw [if_pos rfl, List.find?_append, hold]
    congr 1
    rw [List.find?_singleton, h.created_nameOf hl, if_pos rfl]
    by_cases hc : name.chars = c <;> simp [hc]
  · rw [if_neg hk, hold]
    simp [hk]

end Tree

/-! ## Names are not empty -/

theorem Reachable.nameOf_ne_nil {s : State} (h : Reachable s) {i : Fin FS_NPAGES} (hi : s.kind i ≠ .EMPTY) :
    (s.inode i).nameOf ≠ [] := by
  have hall : Inv s ∧ ∀ i, s.kind i ≠ .EMPTY → (s.inode i).nameOf ≠ [] := by
    apply h.inv fun s => Inv s ∧ ∀ i, s.kind i ≠ .EMPTY → (s.inode i).nameOf ≠ []
    · intro mem s₀ hboot
      refine ⟨boot_inv hboot, fun i hi => ?_⟩
      rw [init_fs_boot, Except.ok.injEq] at hboot
      subst hboot
      have hroot : i = ROOT_INODE := by
        by_contra hne
        exact hi (by simp [State.kind, initial_inode, initialInode, hne])
      rw [hroot, initial_inode]
      decide +kernel
    · rintro s e s' ⟨hinv, hname⟩ hn
      refine ⟨hinv.next_step hn, ?_⟩
      cases hn with
      | user => exact hname
      | call hc =>
        obtain ⟨tk, htk, he⟩ := exec_effect hinv hc
        obtain ⟨T, ht⟩ := (hinv.congr htk).tree
        cases he.treeStep with
        | @created path name type d j hcr hvalid hp hk hf =>
          intro i hi
          rw [ht.created_nameOf hvalid.2]
          split
          · exact hvalid.1
          · next hij =>
            apply hname i
            unfold State.kind at hi
            rwa [State.created_type, if_neg hij] at hi
        | @removed path j hdel hp hr =>
          intro i hi
          unfold State.kind at hi
          rw [State.removed_type] at hi
          split at hi
          · exact absurd rfl hi
          · next hij =>
            rw [State.removed_inode, if_neg hij]
            exact hname i hi
        | kept hlinks hsame =>
          intro i hi
          rw [(hsame i).2]
          exact hname i ((hsame i).1 ▸ hi)
  exact hall.2 i hi

end ClbFilesystem
