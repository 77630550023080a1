import ClbFilesystem.Create
/-!
# Deletion

`delete_inode` empties a folder son by son, each time cutting the son off the
chain before the recursive call, so that `free_inode` finds nothing to unlink
there; only the last `free_inode`, at the entry deleted, walks the chain of its
father. The recursion follows the forest below the entry, which is what bounds
its depth. `State.removed` is the table it leaves. The root has no father, and
`free_inode` follows the null pointer.
-/

namespace ClbFilesystem

open Lib

/-- An entry given back. -/
def Inode.freed (n : Inode) : Inode :=
  { n with father := none, brother := none, first_son := none, size := 0, ref := 0, type := .EMPTY }

/-! ## `free_inode` -/

theorem unlinkBrother_eq {s : State} {l : List (Fin FS_NPAGES)} {p : InodePtr} (hl : s.links.Chain p l) {k : Nat}
    (hk : l.length ≤ k) (i : Fin FS_NPAGES) (b : InodePtr) :
    unlinkBrother i b s k p = .ok (match l.find? (fun j => (s.inode j).brother = some i) with
      | none => s
      | some j => s.modInode j ({ · with brother := b })) := by
  induction l generalizing p k with
  | nil =>
    obtain rfl : p = none := hl
    cases k <;> rfl
  | cons j l ih =>
    obtain ⟨rfl, hl⟩ := hl
    obtain ⟨k, rfl⟩ : ∃ k', k = k' + 1 := ⟨k - 1, by simp at hk; omega⟩
    unfold unlinkBrother
    rw [List.find?_cons]
    by_cases hj : (s.inode j).brother = some i
    · simp [hj]
    · simp only [hj, if_false, decide_false]
      exact ih hl (by simpa using hk)

/-- `free_inode` at an entry without sons: unlinked from the chain of its father, then given back. -/
theorem free_inode_eq {s : State} {i d : Fin FS_NPAGES} {l : List (Fin FS_NPAGES)} (hs : (s.inode i).first_son = none)
    (hf : (s.inode i).father = some d) (hl : s.links.Chain (s.inode d).first_son l) (hk : l.length ≤ FS_NPAGES) :
    free_inode i s = .ok (0, (if (s.inode d).first_son = some i
      then s.modInode d ({ · with first_son := (s.inode i).brother })
      else match l.find? (fun j => (s.inode j).brother = some i) with
        | none => s
        | some j => s.modInode j ({ · with brother := (s.inode i).brother })).modInode i fun n =>
          { n with brother := none, father := none, size := 0, ref := 0, type := .EMPTY }) := by
  have hi : ¬ ((i.val : Int) < 0 ∨ (i.val : Int) ≥ FS_NPAGES) := by have := i.isLt; omega
  unfold free_inode
  simp only [hi, if_false, index_val, bind, Except.bind, pure, Except.pure, hs, ne_eq, not_true_eq_false, and_false, hf,
    unlinkBrother_eq hl hk]
  split <;> rfl

/-- Where only the father has the entry as first son, and only its sons as brother, `free_inode` unlinks
the entry. -/
theorem free_inode_unlink {s : State} {i d : Fin FS_NPAGES} {l : List (Fin FS_NPAGES)} (hs : (s.inode i).first_son = none)
    (hf : (s.inode i).father = some d) (hl : s.links.Chain (s.inode d).first_son l) (hn : l.Nodup)
    (hk : l.length ≤ FS_NPAGES) (hfirst : ∀ m, (s.inode m).first_son = some i → m = d)
    (hson : ∀ m, (s.inode m).brother = some i → m ∈ l) :
    free_inode i s = .ok (0, (s.relink (s.links.unlink i)).modInode i fun n =>
      { n with brother := none, father := none, size := 0, ref := 0, type := .EMPTY }) := by
  rw [free_inode_eq hs hf hl hk]
  congr 3
  by_cases hd : (s.inode d).first_son = some i
  · have hno : ∀ m, (s.inode m).brother ≠ some i := by
      intro m hb
      rw [hd] at hl
      exact hl.head_ne hn (hson m hb) hb
    rw [if_pos hd]
    refine State.ext_inode (fun m => ?_) rfl rfl rfl
    by_cases hm : m = d
    · subst hm; simp [State.relink_inode, Links.unlink, State.links, hno, hd]
    · have hfm : (s.inode m).first_son ≠ some i := fun e => hm (hfirst m e)
      simp [State.relink_inode, Links.unlink, State.links, hno, hm, hfm]
  · have hno : ∀ m, (s.inode m).first_son ≠ some i := fun m e => hd (hfirst m e ▸ e)
    rw [if_neg hd]
    cases hj : l.find? (fun j => (s.inode j).brother = some i) with
    | none =>
      have hnone : ∀ m, (s.inode m).brother ≠ some i := by
        intro m hb
        exact List.find?_eq_none.1 hj m (hson m hb) (decide_eq_true hb)
      refine State.ext_inode (fun m => ?_) rfl rfl rfl
      simp [State.relink_inode, Links.unlink, State.links, hno, hnone]
    | some j =>
      have hbj : (s.inode j).brother = some i := by simpa using List.find?_some hj
      have hb : ∀ m, (s.inode m).brother = some i ↔ m = j := by
        intro m
        constructor
        · intro hbm; exact hl.brother_inj hn (hson m hbm) (hson j hbj) hbm hbj
        · rintro rfl; exact hbj
      refine State.ext_inode (fun m => ?_) rfl rfl rfl
      by_cases hm : m = j
      · subst hm; simp [State.relink_inode, Links.unlink, State.links, hno, hbj]
      · simp [State.relink_inode, Links.unlink, State.links, hno, hb, hm]

/-- The root has no father to unlink it from. -/
theorem free_inode_root {s : State} {i : Fin FS_NPAGES} (hs : (s.inode i).first_son = none)
    (hf : (s.inode i).father = none) : free_inode i s = .error .nullPointer := by
  have hi : ¬ ((i.val : Int) < 0 ∨ (i.val : Int) ≥ FS_NPAGES) := by have := i.isLt; omega
  unfold free_inode
  simp only [hi, if_false, index_val, bind, Except.bind, pure, Except.pure, hs, ne_eq, not_true_eq_false, and_false, hf]

/-! ## The loop over the sons -/

namespace State

/-- The entries of `l` are given back, and `i` has no sons. -/
def emptied (s : State) (i : Fin FS_NPAGES) (l : List (Fin FS_NPAGES)) : State :=
  { s with RAM_inodes_table := fun j =>
      if j ∈ l then (s.inode j).freed else if j = i then { s.inode j with first_son := none } else s.inode j }

theorem emptied_inode (s : State) (i j : Fin FS_NPAGES) (l : List (Fin FS_NPAGES)) : (s.emptied i l).inode j =
    if j ∈ l then (s.inode j).freed else if j = i then { s.inode j with first_son := none } else s.inode j := rfl

theorem emptied_nil {s : State} {i : Fin FS_NPAGES} (h : (s.inode i).first_son = none) : s.emptied i [] = s := by
  refine ext_inode (fun j => ?_) rfl rfl rfl
  rw [emptied_inode]
  by_cases hj : j = i
  · subst hj
    rw [if_neg (by simp), if_pos rfl, ← h]
  · simp [hj]

/-- Son `j` of `i` is cut off the chain and given back, with the entries of `l` below it; `b` is now the first son. -/
def shed (s : State) (i j : Fin FS_NPAGES) (b : InodePtr) (l : List (Fin FS_NPAGES)) : State :=
  ((s.modInode i ({ · with first_son := b })).emptied j l).modInode j Inode.freed

section Shed
variable {s : State} {i j : Fin FS_NPAGES} {l l' : List (Fin FS_NPAGES)} (hij : i ≠ j) (hil : i ∉ l) (hjl : j ∉ l)
include hij hil hjl

theorem shed_inode (b : InodePtr) (m : Fin FS_NPAGES) : (s.shed i j b l).inode m =
    if m = j ∨ m ∈ l then (s.inode m).freed
    else if m = i then { s.inode i with first_son := b } else s.inode m := by
  rw [shed, modInode_inode, emptied_inode]
  by_cases hmj : m = j
  · subst hmj
    simp [hjl, Ne.symm hij, Inode.freed]
  · by_cases hml : m ∈ l
    · have hmi : m ≠ i := fun e => hil (e ▸ hml)
      simp [hmj, hml, hmi]
    · by_cases hmi : m = i
      · subst hmi
        simp [hmj, hml]
      · simp [hmj, hml, hmi]

/-- The sons left are given back next. -/
theorem shed_emptied (b : InodePtr) (hjl' : j ∉ l') (hdis : ∀ m ∈ l, m ∉ l') (hil' : i ∉ l') :
    (s.shed i j b l).emptied i l' = s.emptied i (j :: (l ++ l')) := by
  refine ext_inode (fun m => ?_) rfl rfl rfl
  rw [emptied_inode, emptied_inode, shed_inode hij hil hjl]
  simp only [List.mem_cons, List.mem_append]
  by_cases hm' : m ∈ l'
  · have hm : ¬ (m = j ∨ m ∈ l) := by
      rintro (rfl | hl)
      · exact hjl' hm'
      · exact hdis m hl hm'
    have hmi : m ≠ i := fun e => hil' (e ▸ hm')
    have hall : m = j ∨ m ∈ l ∨ m ∈ l' := .inr (.inr hm')
    rw [if_pos hm', if_pos hall, if_neg hm, if_neg hmi]
  · rw [if_neg hm']
    by_cases hm : m = j ∨ m ∈ l
    · have hmi : m ≠ i := by
        rintro rfl
        exact hm.elim hij hil
      have hall : m = j ∨ m ∈ l ∨ m ∈ l' := hm.imp_right .inl
      rw [if_neg hmi, if_pos hm, if_pos hall]
    · have hall : ¬ (m = j ∨ m ∈ l ∨ m ∈ l') := by
        rw [← or_assoc]
        exact fun h => h.elim hm hm'
      rw [if_neg hm, if_neg hall]
      by_cases hmi : m = i
      · subst hmi
        simp
      · simp [hmi]

end Shed

theorem threads_congr {s s' : State} {f p : InodePtr} {F : Tree} (h : s.links.Threads f p F)
    (hi : ∀ j ∈ F.labels, s'.inode j = s.inode j) : s'.links.Threads f p F := by
  apply h.frame
  intro j hj
  simp only [Links.Same, links, hi j hj, and_self]

end State

/-- `delete_inode` at a son just cut off its chain gives back the son and what is below it. -/
theorem delete_inode_cut {s : State} {i j : Fin FS_NPAGES} {sons : Tree} (rest : Tree) {k : Nat}
    (hdel : (s.inode j).type = .FOLDER → delete_sons k j s = .ok (s.emptied j sons.labels))
    (htype : (s.inode j).type ≠ .EMPTY) (hfile : (s.inode j).type = .FILE → (s.inode j).first_son = none ∧ sons = .nil)
    (hid : (s.inode j).id = j) (hf : (s.inode j).father = some i) (hji : j ≠ i) (hjs : j ∉ sons.labels)
    (hcut : (s.emptied j sons.labels).links.Chain ((s.emptied j sons.labels).inode i).first_son rest.roots)
    (hjr : j ∉ rest.roots) (hk : rest.roots.length ≤ FS_NPAGES) :
    delete_inode (k + 1) j s = .ok ((s.emptied j sons.labels).modInode j Inode.freed) := by
  have hfree : free_inode j (s.emptied j sons.labels) =
      .ok (0, (s.emptied j sons.labels).modInode j Inode.freed) := by
    have hj : (s.emptied j sons.labels).inode j = { s.inode j with first_son := none } := by
      rw [State.emptied_inode, if_neg hjs, if_pos rfl]
    have hfirst : ((s.emptied j sons.labels).inode i).first_son ≠ some j := by
      intro he
      rw [he] at hcut
      cases hr : rest.roots with
      | nil => rw [hr] at hcut; simp [Links.Chain] at hcut
      | cons m l => rw [hr] at hcut; exact hjr (by rw [hr, Option.some.inj hcut.1]; simp)
    have hnone : rest.roots.find? (fun m => ((s.emptied j sons.labels).inode m).brother = some j) = none := by
      rw [List.find?_eq_none]
      intro m hm hb
      exact hjr (List.mem_of_mem_tail (hcut.brother_mem hm (of_decide_eq_true hb)))
    rw [free_inode_eq (d := i) (by rw [hj]) (by rw [hj]; exact hf) hcut hk, if_neg hfirst, hnone]
    refine congrArg (fun s' => Except.ok ((0 : Int), s')) (State.ext_inode (fun m => ?_) rfl rfl rfl)
    simp only [State.modInode_inode]
    by_cases hm : m = j
    · subst hm; rw [hj]; rfl
    · simp [hm]
  unfold delete_inode
  cases ht : (s.inode j).type with
  | EMPTY => exact absurd ht htype
  | FILE =>
    obtain ⟨hs, rfl⟩ := hfile ht
    have hnil : s.emptied j Forest.nil.labels = s := State.emptied_nil hs
    rw [hnil] at hfree ⊢
    simp only [hid, hfree, bind, Except.bind, pure, Except.pure]
  | FOLDER =>
    have hid' : ((s.emptied j sons.labels).inode j).id = j := by
      rw [State.emptied_inode, if_neg hjs, if_pos rfl]; exact hid
    simp only [hdel ht, hid', hfree, bind, Except.bind, pure, Except.pure]

/-- The loop of `delete_inode` gives back everything below the folder. -/
theorem delete_sons_eq {s : State} {i : Fin FS_NPAGES} {G : Tree} {k : Nat}
    (hG : s.links.Threads (some i) (s.inode i).first_son G) (hn : (i :: G.labels).Nodup) (hid : ∀ j, (s.inode j).id = j)
    (htype : ∀ j ∈ G.labels, (s.inode j).type ≠ .EMPTY)
    (hfile : ∀ j ∈ G.labels, (s.inode j).type = .FILE → (s.inode j).first_son = none) (hk : 2 * G.size + 1 ≤ k) :
    delete_sons k i s = .ok (s.emptied i G.labels) := by
  induction G generalizing i s k with
  | nil =>
    obtain ⟨k, rfl⟩ : ∃ k', k = k' + 1 := ⟨k - 1, by omega⟩
    have hnone : (s.inode i).first_son = none := hG
    unfold delete_sons
    simp only [hnone]
    exact congrArg Except.ok (State.emptied_nil hnone).symm
  | cons j sons rest ihs ihr =>
    obtain ⟨hfirst, hf, hsons, hrest⟩ := hG
    simp only [Forest.size] at hk
    obtain ⟨k, rfl⟩ : ∃ k', k = k' + 1 + 1 := ⟨k - 2, by omega⟩
    simp only [Forest.labels, List.nodup_cons, List.mem_cons, List.mem_append, not_or, List.nodup_append] at hn
    obtain ⟨⟨hij, his, hir⟩, ⟨hjs, hjr⟩, hns, hnr, hdis⟩ := hn
    simp only [Forest.labels, List.mem_cons, List.mem_append, forall_eq_or_imp] at htype hfile
    -- `s₁`: the son is cut off the chain; `s₃`: it is given back, with what is below it.
    generalize hs₁ : s.modInode i ({ · with first_son := (s.inode j).brother }) = s₁
    have h₁ : ∀ m, m ≠ i → s₁.inode m = s.inode m := fun m hm => by rw [← hs₁]; simp [hm]
    have h₁i : s₁.inode i = { s.inode i with first_son := (s.inode j).brother } := by rw [← hs₁]; simp
    have h₁j : s₁.inode j = s.inode j := h₁ j (Ne.symm hij)
    have hne : ∀ {m : Fin FS_NPAGES} {F : Tree}, i ∉ F.labels → m ∈ F.labels → m ≠ i := fun h hm e => h (e ▸ hm)
    have hsons₁ : s₁.links.Threads (some j) (s₁.inode j).first_son sons := by
      rw [h₁j]
      exact State.threads_congr hsons fun m hm => h₁ m (hne his hm)
    have hdel : (s₁.inode j).type = .FOLDER → delete_sons k j s₁ = .ok (s₁.emptied j sons.labels) := fun _ =>
      ihs hsons₁ (List.nodup_cons.2 ⟨hjs, hns⟩) (fun m => by rw [← hs₁]; by_cases hm : m = i <;> simp [hm, hid])
        (fun m hm => by rw [h₁ m (hne his hm)]; exact htype.2 m (.inl hm))
        (fun m hm => by rw [h₁ m (hne his hm)]; exact hfile.2 m (.inl hm)) (by omega)
    have hkeep : ∀ m ∈ rest.labels, (s₁.emptied j sons.labels).inode m = s.inode m := by
      intro m hm
      have hmj : m ≠ j := fun e => hjr (e ▸ hm)
      rw [State.emptied_inode, if_neg fun hs => hdis m hs m hm rfl, if_neg hmj, h₁ m (hne hir hm)]
    have hi : (s₁.emptied j sons.labels).inode i = { s.inode i with first_son := (s.inode j).brother } := by
      rw [State.emptied_inode, if_neg his, if_neg hij, h₁i]
    have hrest₂ : (s₁.emptied j sons.labels).links.Threads (some i) ((s₁.emptied j sons.labels).inode i).first_son rest := by
      rw [hi]
      exact State.threads_congr hrest hkeep
    have hleaf : (s₁.inode j).type = .FILE → (s₁.inode j).first_son = none ∧ sons = .nil := by
      rw [h₁j]
      intro ht
      refine ⟨hfile.1 ht, ?_⟩
      rw [h₁j, hfile.1 ht] at hsons₁
      cases sons with
      | nil => rfl
      | cons m F G => exact absurd hsons₁.1 (by simp)
    have hcut := delete_inode_cut rest hdel (by rw [h₁j]; exact htype.1) hleaf (by rw [h₁j]; exact hid j)
      (by rw [h₁j]; exact hf) (Ne.symm hij) hjs hrest₂.chain (fun hr => hjr (Forest.roots_subset _ j hr))
      (by simpa using (Forest.nodup_roots hnr).length_le_card)
    obtain ⟨s₃, hs₃⟩ : ∃ s₃, s₃ = s.shed i j (s.inode j).brother sons.labels := ⟨_, rfl⟩
    rw [← hs₁] at hcut
    have h₃ : ∀ m, s₃.inode m = if m = j ∨ m ∈ sons.labels then (s.inode m).freed
        else if m = i then { s.inode i with first_son := (s.inode j).brother } else s.inode m := by
      rw [hs₃]
      exact State.shed_inode hij his hjs _
    have hkeep₃ : ∀ m ∈ rest.labels, s₃.inode m = s.inode m := by
      intro m hm
      have hmj : ¬ (m = j ∨ m ∈ sons.labels) := by
        rintro (rfl | hs)
        · exact hjr hm
        · exact hdis m hs m hm rfl
      rw [h₃, if_neg hmj, if_neg (hne hir hm)]
    have hloop : delete_sons (k + 1) i s₃ = .ok (s₃.emptied i rest.labels) := by
      refine ihr ?_ (List.nodup_cons.2 ⟨hir, hnr⟩) (fun m => ?_) (fun m hm => ?_) (fun m hm => ?_) (by omega)
      · have hi₃ : s₃.inode i = { s.inode i with first_son := (s.inode j).brother } := by simp [h₃, hij, his]
        rw [hi₃]
        exact State.threads_congr hrest hkeep₃
      · rw [h₃]
        split
        · exact hid m
        · split
          · next hmi => subst hmi; exact hid m
          · exact hid m
      · rw [hkeep₃ m hm]; exact htype.2 m (.inr hm)
      · rw [hkeep₃ m hm]; exact hfile.2 m (.inr hm)
    unfold delete_sons
    rw [hs₃, State.shed_emptied hij his hjs _ hjr (fun m hs hm => hdis m hs m hm rfl) hir, State.shed] at hloop
    simp only [hfirst, hcut, hloop, bind, Except.bind]
    rfl

/-! ## The new table -/

namespace State

/-- What is below an entry. -/
def below (s : State) (i : Fin FS_NPAGES) : List (Fin FS_NPAGES) :=
  (s.links.read FS_NPAGES (s.inode i).first_son).labels

/-- Entry `i` and what is below it are given back, and `i` is off its chain. -/
def removed (s : State) (i : Fin FS_NPAGES) : State :=
  { s with RAM_inodes_table := fun j =>
      if j ∈ i :: s.below i then (s.inode j).freed else (s.relink (s.links.unlink i)).inode j }

variable (s : State) (i j : Fin FS_NPAGES)

theorem removed_inode : (s.removed i).inode j =
    if j ∈ i :: s.below i then (s.inode j).freed else
      { s.inode j with brother := (s.links.unlink i).brother j, first_son := (s.links.unlink i).first_son j } := rfl

@[simp] theorem removed_mem : (s.removed i).mem = s.mem := rfl
@[simp] theorem removed_slot (e : Fin MAX_OPEN_FILES) : (s.removed i).slot e = s.slot e := rfl
@[simp] theorem removed_token : (s.removed i).token = s.token := rfl

theorem removed_type : ((s.removed i).inode j).type = if j ∈ i :: s.below i then .EMPTY else (s.inode j).type := by
  rw [removed_inode]
  split <;> rfl

@[simp] theorem removed_id : ((s.removed i).inode j).id = (s.inode j).id := by
  rw [removed_inode]
  split <;> rfl

@[simp] theorem removed_data_block : ((s.removed i).inode j).data_block = (s.inode j).data_block := by
  rw [removed_inode]
  split <;> rfl

end State

namespace TreeInv

variable {s : State} {T : Tree} (h : TreeInv s T)
include h

theorem below_eq {i : Fin FS_NPAGES} {G : Tree} (hG : T.sonsOf i = some G) : s.below i = G.labels := by
  have hn := (List.nodup_cons.1 (Forest.nodup_sonsOf h.nodup hG)).2
  unfold State.below
  rw [(h.sons_threads hG).read_eq (by simpa using Forest.size_le_card hn)]

theorem father_of_first_son {i m : Fin FS_NPAGES} (hm : (s.inode m).first_son = some i) : (s.inode i).father = some m := by
  rw [← h.mem_sons]
  have hchain := (h.chain_sons m).1
  rw [hm] at hchain
  cases hl : s.sons m with
  | nil => rw [hl] at hchain; simp [Links.Chain] at hchain
  | cons k l => rw [hl] at hchain; rw [Option.some.inj hchain.1]; simp

/-- Brothers have the same father. -/
theorem father_of_brother {i m : Fin FS_NPAGES} (hm : (s.inode m).brother = some i) :
    ∃ d, (s.inode m).father = some d ∧ (s.inode i).father = some d := by
  have hmT : m ∈ T.labels := (h.live m).1 fun he => by simp [(h.free m he).2.1] at hm
  have hmr : m ≠ ROOT_INODE := by rintro rfl; simp [h.root_brother] at hm
  obtain ⟨d, -, G, hf, hG, hroot⟩ := h.father_spec hmT hmr
  refine ⟨d, hf, (h.sons_threads hG).father_of_root i ?_⟩
  exact List.mem_of_mem_tail ((h.sons_threads hG).chain.brother_mem hroot hm)

/-- The father of an entry is not below it. -/
theorem father_not_below {i d : Fin FS_NPAGES} {G : Tree} (hG : T.sonsOf i = some G) (hf : (s.inode i).father = some d) :
    d ∉ i :: G.labels := by
  have hn := Forest.nodup_sonsOf h.nodup hG
  have hi : i ∉ G.labels := (List.nodup_cons.1 hn).1
  have below : ∀ {d : Fin FS_NPAGES}, (s.inode i).father = some d → d ∉ G.labels := by
    intro d hf hd
    -- A node of `G` that is the father of `i` has `i` among its sons, which are in `G` too.
    obtain ⟨H, hH⟩ := Forest.exists_sonsOf hd
    have hsons := ((h.sons_threads hG).sonsOf hH).chain
    have hroot : i ∈ H.roots := by
      rw [hsons.unique (h.chain_sons d).1]
      exact (h.mem_sons d i).2 hf
    exact hi (Forest.sonsOf_subset (List.nodup_cons.1 hn).2 hH i (Forest.roots_subset H i hroot))
  intro hd
  rcases List.mem_cons.1 hd with rfl | hd
  · have hsons := (h.mem_sons d d).2 hf
    rw [h.sons_eq hG] at hsons
    exact hi (Forest.roots_subset G d hsons)
  · exact below hf hd

/-- A node below an entry has its father there too. -/
theorem father_of_below {i m : Fin FS_NPAGES} {G : Tree} (hG : T.sonsOf i = some G) (hm : m ∈ G.labels) :
    ∃ d ∈ i :: G.labels, (s.inode m).father = some d := by
  rcases (h.sons_threads hG).father_mem m hm with hf | ⟨k, hk, hf⟩
  · exact ⟨i, by simp, hf⟩
  · exact ⟨k, by simp [hk], hf⟩

end TreeInv

/-! ## `delete_inode` -/

theorem delete_sons_tree {s : State} {T G : Tree} (h : TreeInv s T) {i : Fin FS_NPAGES} (hG : T.sonsOf i = some G) {k : Nat}
    (hk : 2 * G.size + 1 ≤ k) : delete_sons k i s = .ok (s.emptied i G.labels) := by
  have hsub := Forest.sonsOf_subset h.nodup hG
  exact delete_sons_eq (h.sons_threads hG) (Forest.nodup_sonsOf h.nodup hG) h.id (fun j hj => (h.live j).2 (hsub j hj))
    (fun j _ ht => h.file j ht) hk

/-- There are turns enough. -/
theorem delete_fuel {T G : Tree} (hn : T.labels.Nodup) {i : Fin FS_NPAGES} (hG : T.sonsOf i = some G) :
    2 * G.size + 1 ≤ deleteFuel - 1 := by
  have hcard := (Forest.nodup_sonsOf hn hG).length_le_card
  simp only [List.length_cons, Forest.length_labels, Fintype.card_fin] at hcard
  unfold deleteFuel
  omega

/-- Deleting the root empties the tree, then follows the null father. -/
theorem delete_inode_root {s : State} {T : Tree} (h : TreeInv s T) :
    delete_inode deleteFuel ROOT_INODE s = .error .nullPointer := by
  obtain ⟨G, hG⟩ := Forest.exists_sonsOf h.root_mem
  have hroot : ROOT_INODE ∉ G.labels := (List.nodup_cons.1 (Forest.nodup_sonsOf h.nodup hG)).1
  have hi : (s.emptied ROOT_INODE G.labels).inode ROOT_INODE = { s.inode ROOT_INODE with first_son := none } := by
    rw [State.emptied_inode, if_neg hroot, if_pos rfl]
  have hid : ((s.emptied ROOT_INODE G.labels).inode ROOT_INODE).id = (ROOT_INODE.val : Int) := by rw [hi]; exact h.id _
  have hfree : free_inode ROOT_INODE (s.emptied ROOT_INODE G.labels) = .error .nullPointer :=
    free_inode_root (by rw [hi]) (by rw [hi]; exact h.root_father)
  rw [show deleteFuel = deleteFuel - 1 + 1 from rfl]
  unfold delete_inode
  simp only [h.root, delete_sons_tree h hG (delete_fuel h.nodup hG), hid, hfree, bind, Except.bind]

/-- The last `free_inode` of a deletion: the entry, emptied, leaves the chain of its father. -/
theorem free_inode_emptied {s : State} {T G : Tree} (h : TreeInv s T) {i : Fin FS_NPAGES} (hG : T.sonsOf i = some G)
    (hi : i ≠ ROOT_INODE) : free_inode i (s.emptied i G.labels) = .ok (0, s.removed i) := by
  have hiT := Forest.mem_of_sonsOf hG
  have hiG : i ∉ G.labels := (List.nodup_cons.1 (Forest.nodup_sonsOf h.nodup hG)).1
  obtain ⟨d, -, -, hf, -, -⟩ := h.father_spec hiT hi
  have hd := h.father_not_below hG hf
  simp only [List.mem_cons, not_or] at hd
  -- The father and its sons keep their pointers when the entry is emptied.
  have hei : (s.emptied i G.labels).inode i = { s.inode i with first_son := none } := by
    rw [State.emptied_inode, if_neg hiG, if_pos rfl]
  have hed : (s.emptied i G.labels).inode d = s.inode d := by
    rw [State.emptied_inode, if_neg hd.2, if_neg hd.1]
  have hbrother : ∀ m ∈ s.sons d, ((s.emptied i G.labels).inode m).brother = (s.inode m).brother := by
    intro m hm
    have hmG : m ∉ G.labels := by
      intro hm'
      obtain ⟨k, hk, hfk⟩ := h.father_of_below hG hm'
      rw [(h.mem_sons d m).1 hm] at hfk
      cases hfk
      exact (List.mem_cons.1 hk).elim hd.1 hd.2
    rw [State.emptied_inode, if_neg hmG]
    split <;> rfl
  have hchain : (s.emptied i G.labels).links.Chain ((s.emptied i G.labels).inode d).first_son (s.sons d) := by
    rw [hed]
    exact (h.chain_sons d).1.frame hbrother
  -- Only the father points to the entry as first son, and only a son of the father as brother.
  have hfirst : ∀ m, (s.inode m).first_son = some i → m = d := fun m hm =>
    Option.some.inj ((h.father_of_first_son hm).symm.trans hf)
  have hson : ∀ m, (s.inode m).brother = some i → m ∈ s.sons d := by
    intro m hm
    obtain ⟨k, hfm, hfi⟩ := h.father_of_brother hm
    rw [h.mem_sons, hfm, ← hfi, hf]
  have hinode := State.emptied_inode s i
  rw [free_inode_unlink (by rw [hei]) (by rw [hei]; exact hf) hchain (h.sons_nodup d) (h.chain_sons d).2
    (fun m hm => hfirst m ?_) (fun m hm => hson m ?_)]
  · refine congrArg (fun s' => Except.ok ((0 : Int), s')) (State.ext_inode (fun m => ?_) rfl rfl rfl)
    rw [State.modInode_inode, State.relink_inode, State.removed_inode, h.below_eq hG]
    by_cases hm : m = i
    · subst hm; simp [Inode.freed, Links.unlink, State.links, hei]
    · by_cases hmG : m ∈ G.labels
      · simp [hinode, hm, hmG, Inode.freed, Links.unlink, State.links]
      · simp only [hinode, hm, hmG, Links.unlink, State.links, hiG, if_false, if_true, List.mem_cons, or_false]
        rfl
  · rw [hinode] at hm
    split at hm
    · cases hm
    · split at hm
      · cases hm
      · exact hm
  · rw [hinode] at hm
    split at hm
    · cases hm
    · split at hm <;> exact hm

/-- Deleting an entry other than the root gives back its subtree. -/
theorem delete_inode_eq {s : State} {T : Tree} (h : TreeInv s T) {i : Fin FS_NPAGES} (hiT : i ∈ T.labels)
    (hi : i ≠ ROOT_INODE) : delete_inode deleteFuel i s = .ok (s.removed i) := by
  obtain ⟨G, hG⟩ := Forest.exists_sonsOf hiT
  have hiG : i ∉ G.labels := (List.nodup_cons.1 (Forest.nodup_sonsOf h.nodup hG)).1
  have hfree := free_inode_emptied h hG hi
  rw [show deleteFuel = deleteFuel - 1 + 1 from rfl]
  unfold delete_inode
  cases ht : (s.inode i).type with
  | EMPTY => exact absurd ht ((h.live i).2 hiT)
  | FILE =>
    have hs := h.file i ht
    have hnil : G = .nil := by
      have hthreads := h.sons_threads hG
      rw [hs] at hthreads
      cases G with
      | nil => rfl
      | cons m F K => exact absurd hthreads.1 (by simp)
    subst hnil
    rw [show (s.emptied i Forest.nil.labels) = s from State.emptied_nil hs] at hfree
    simp only [h.id, hfree, bind, Except.bind, pure, Except.pure]
  | FOLDER =>
    have hid : ((s.emptied i G.labels).inode i).id = (i.val : Int) := by
      rw [State.emptied_inode, if_neg hiG, if_pos rfl]; exact h.id i
    simp only [delete_sons_tree h hG (delete_fuel h.nodup hG), hid, hfree, bind, Except.bind, pure, Except.pure]

/-- The new table threads the tree without the subtree. -/
theorem TreeInv.removed {s : State} {T : Tree} (h : TreeInv s T) {i : Fin FS_NPAGES} (hiT : i ∈ T.labels)
    (hi : i ≠ ROOT_INODE) : TreeInv (s.removed i) (T.prune (· = i)) := by
  obtain ⟨G, hG⟩ := Forest.exists_sonsOf hiT
  have hbelow := h.below_eq hG
  have hlabels : ∀ m, m ∈ (T.prune (· = i)).labels ↔ m ∈ T.labels ∧ m ∉ i :: s.below i := fun m => by
    rw [hbelow]; exact Forest.mem_labels_prune h.nodup hG
  -- The root is not below another entry: it has no father.
  have hroot : ROOT_INODE ∉ i :: s.below i := by
    rw [hbelow, List.mem_cons, not_or]
    refine ⟨Ne.symm hi, fun hm => ?_⟩
    obtain ⟨d, -, hf⟩ := h.father_of_below hG hm
    rw [h.root_father] at hf; cases hf
  constructor
  case rooted =>
    obtain ⟨F, rfl⟩ := h.rooted
    exact ⟨F.prune (· = i), by simp [Forest.prune, Ne.symm hi]⟩
  case threads =>
    have hthreads := h.threads.unlink i
    rw [if_neg fun e => hi (Option.some.inj e).symm] at hthreads
    apply hthreads.frame
    intro m hm
    have hmi := ((hlabels m).1 hm).2
    refine ⟨?_, ?_, ?_⟩ <;> simp only [State.links, State.removed_inode, if_neg hmi]
    rfl
  case nodup => exact Forest.nodup_prune h.nodup hG
  case live =>
    intro m
    rw [hlabels, State.removed_type]
    by_cases hm : m ∈ i :: s.below i
    · rw [if_pos hm]; simp [hm]
    · rw [if_neg hm, h.live m]; simp [hm]
  case root => rw [State.removed_type, if_neg hroot]; exact h.root
  case id => intro m; rw [State.removed_id]; exact h.id m
  case block => intro m; rw [State.removed_data_block]; exact h.block m
  case free =>
    intro m hm
    rw [State.removed_type] at hm
    rw [State.removed_inode]
    by_cases hmi : m ∈ i :: s.below i
    · rw [if_pos hmi]; exact ⟨rfl, rfl, rfl⟩
    · rw [if_neg hmi] at hm ⊢
      obtain ⟨hf, hb, hs⟩ := h.free m hm
      exact ⟨hf, by simp [Links.unlink, State.links, hb], by simp [Links.unlink, State.links, hs]⟩
  case file =>
    intro m hm
    rw [State.removed_type] at hm
    rw [State.removed_inode]
    by_cases hmi : m ∈ i :: s.below i
    · rw [if_pos hmi]; rfl
    · rw [if_neg hmi] at hm ⊢
      simp [Links.unlink, State.links, h.file m hm]
  case empty =>
    intro m hm
    rw [State.removed_type] at hm
    rw [State.removed_inode]
    by_cases hmi : m ∈ i :: s.below i
    · rw [if_pos hmi]; rfl
    · rw [if_neg hmi] at hm ⊢
      exact h.empty m hm
  case size =>
    intro m
    rw [State.removed_inode]
    split
    · exact Nat.zero_le _
    · exact h.size m

/-! ## `delete_file`, `delete_dir` -/

/-- A path leads to a node of the tree. -/
theorem TreeInv.resolve_mem {s : State} {T : Tree} (h : TreeInv s T) {path : List UInt8} {i : Fin FS_NPAGES}
    (hi : s.resolve path = some i) : i ∈ T.labels := by
  unfold State.resolve at hi
  split at hi
  · exact (h.live i).1 (walk_kind hi)
  · cases hi

/-- Deletion: where the path leads decides. The root is emptied and then followed to its null father. -/
theorem delete_eq {s : State} {T : Tree} (h : TreeInv s T) (ht : s.token.length = MAX_SIZE_NAME + 1) (path : CStr) :
    delete (some path) s = match s.resolve path.chars with
      | none => .ok (.VFS_INVALID_FD, { s with token := s.tokenAfter path.chars })
      | some i =>
        if i = ROOT_INODE then .error .nullPointer
        else .ok (.VFS_OK, ({ s with token := s.tokenAfter path.chars } : State).removed i) := by
  have hp := parse_path_eq h ht path
  generalize s.tokenAfter path.chars = tk at hp ⊢
  have htree := h.setToken tk
  simp only [delete, hp, bind, Except.bind, pure, Except.pure]
  cases hi : s.resolve path.chars with
  | none => rfl
  | some i =>
    by_cases hr : i = ROOT_INODE
    · subst hr
      simp only [delete_inode_root htree, if_true]
    · simp only [delete_inode_eq htree (h.resolve_mem hi) hr, hr, if_false]

end ClbFilesystem
