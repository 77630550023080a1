import ClbFilesystem.Instances
import ClbFilesystem.Iteration
/-!
# What a listing returns

A new entry goes to the end of the chain of its folder, whichever inode it gets,
and a deletion takes entries out without moving the others. So the chain is in
the order in which its entries were created, all along every run, and a slot
that nobody disturbs goes through it from end to end.
-/

namespace ClbFilesystem

open Lib

/-! ## The order of creation -/

/-- The steps counted, each entry stamped with the number of the step that gave it out last. -/
def stampStep (g : Nat × (Fin FS_NPAGES → Nat)) (st : Step State Event) : Nat × (Fin FS_NPAGES → Nat) :=
  (g.1 + 1, fun i => if Appears st i then g.1 + 1 else g.2 i)

def createdAt (tr : List (Step State Event)) : Fin FS_NPAGES → Nat := (tr.foldl stampStep (0, fun _ => 0)).2

/-- The sons of every folder are chained in the order of their stamps. -/
structure Ordered (g : Nat × (Fin FS_NPAGES → Nat)) (s : State) : Prop where
  bound : ∀ i, g.2 i ≤ g.1
  sons : ∀ d, (s.sons d).Pairwise (g.2 · < g.2 ·)

section OneStep
variable {s s' : State} {e : Event} {g : Nat × (Fin FS_NPAGES → Nat)} {st : Step State Event} {i : Fin FS_NPAGES}

theorem stampStep_new (h : Appears st i) : (stampStep g st).2 i = g.1 + 1 := if_pos h

theorem stampStep_old (h : ¬ Appears st i) : (stampStep g st).2 i = g.2 i := if_neg h

theorem stampStep_bound (h : ∀ i, g.2 i ≤ g.1) (st : Step State Event) (i : Fin FS_NPAGES) :
    (stampStep g st).2 i ≤ (stampStep g st).1 := by
  show _ ≤ g.1 + 1
  by_cases hi : Appears st i
  · rw [stampStep_new hi]
  · rw [stampStep_old hi]
    exact Nat.le_succ_of_le (h i)

/-- Where no entry is given out, sons in the order they had are in order. -/
theorem Ordered.keep (h : Ordered g s) (happ : ∀ i, ¬ Appears ⟨s, e, s'⟩ i)
    (hsons : ∀ d, (s'.sons d).Sublist (s.sons d)) : Ordered (stampStep g ⟨s, e, s'⟩) s' := by
  refine ⟨stampStep_bound h.bound _, fun d => ?_⟩
  have hsame : (stampStep g ⟨s, e, s'⟩).2 = g.2 := by
    funext i
    exact stampStep_old (happ i)
  rw [hsame]
  exact (h.sons d).sublist (hsons d)

/-- A new last son has the greatest stamp. -/
theorem Ordered.push (h : Ordered g s) {a d : Fin FS_NPAGES} (happ : ∀ i, Appears ⟨s, e, s'⟩ i ↔ i = a)
    (hnew : ∀ k, a ∉ s.sons k) (hsons : ∀ k, s'.sons k = if k = d then s.sons d ++ [a] else s.sons k) :
    Ordered (stampStep g ⟨s, e, s'⟩) s' := by
  have hold : ∀ {k i}, i ∈ s.sons k → (stampStep g ⟨s, e, s'⟩).2 i = g.2 i := by
    intro k i hi
    apply stampStep_old
    rw [happ]
    rintro rfl
    exact hnew k hi
  have hsame : ∀ k, (s.sons k).Pairwise fun i j => (stampStep g ⟨s, e, s'⟩).2 i < (stampStep g ⟨s, e, s'⟩).2 j := by
    intro k
    refine (h.sons k).imp_of_mem fun hi hj hij => ?_
    rwa [hold hi, hold hj]
  refine ⟨stampStep_bound h.bound _, fun k => ?_⟩
  rw [hsons]
  split
  · refine List.pairwise_append.2 ⟨hsame d, List.pairwise_singleton _ _, fun i hi j hj => ?_⟩
    obtain rfl := List.mem_singleton.1 hj
    rw [hold hi, stampStep_new ((happ j).2 rfl)]
    exact Nat.lt_succ_of_le (h.bound i)
  · exact hsame k

theorem Next.ordered (hi : Inv s) (hn : Next s e s') (h : Ordered g s) : Ordered (stampStep g ⟨s, e, s'⟩) s' := by
  cases hn with
  | user => exact h.keep (fun i hi => hi.2 hi.1) fun d => List.Sublist.refl _
  | @call c r s' hc =>
    obtain ⟨tk, htk, he⟩ := exec_effect hi hc
    obtain ⟨T, ht⟩ := (hi.congr htk).tree
    cases he.treeStep with
    | @created path name type d a hcr hname hp hk hf =>
      have hempty := (State.freeEntry_eq_some.1 hf).1
      refine h.push (fun i => ?_) (fun k hk => ht.kind_of_father ((ht.mem_sons k a).1 hk) hempty)
        (ht.created_sons hk hempty hcr.type_ne)
      unfold Appears
      dsimp only
      rw [State.created_type]
      constructor
      · rintro ⟨h0, h1⟩
        by_contra hia
        rw [if_neg hia] at h1
        exact h1 h0
      · rintro rfl
        rw [if_pos rfl]
        exact ⟨hempty, hcr.type_ne⟩
    | @removed path i hdel hp hr =>
      refine h.keep (fun j hj => ?_) fun k => ?_
      · have hnew := hj.2
        rw [State.removed_type] at hnew
        split at hnew
        · exact hnew rfl
        · exact hnew hj.1
      · rw [ht.removed_sons (ht.resolve_mem hp) hr]
        split
        · exact List.nil_sublist _
        · exact List.filter_sublist
    | kept hlinks hsame =>
      refine h.keep (fun i hi => hi.2 ((hsame i).1.trans hi.1)) fun d => ?_
      rw [State.sons_congr hlinks]
      exact List.Sublist.refl _

end OneStep

/-- In every run the sons of a folder are chained in the order of creation. -/
theorem Runs.sons_ordered {tr : List (Step State Event)} {s : State} (h : Runs tr s) (d : Fin FS_NPAGES) :
    (s.sons d).Pairwise fun i j => createdAt tr i < createdAt tr j := by
  obtain ⟨mem, s₀, hboot, hrun⟩ := h
  have hall : Ordered (tr.foldl stampStep (0, fun _ => 0)) s := by
    refine hrun.history (0, fun _ => 0) stampStep Ordered ⟨fun _ => le_refl 0, fun d => ?_⟩ fun tr g s e s' hr hg hn => ?_
    · rw [init_fs_boot, Except.ok.injEq] at hboot
      subst hboot
      obtain ⟨T, ht⟩ := (initial_inv mem).tree
      have hnone : (initial mem).sons d = [] := by
        rw [List.eq_nil_iff_forall_not_mem]
        intro i hmem
        have hf := (ht.mem_sons d i).1 hmem
        rw [initial_inode, initialInode] at hf
        split at hf <;> cases hf
      rw [hnone]
      exact .nil
    · exact hn.ordered (Reachable.invariant ⟨tr, mem, s₀, hboot, hr⟩) hg
  exact hall.sons d

/-! ## A listing that nobody disturbs -/

/-- The step asks slot `w` for the next son. -/
def asks (w : Fin MAX_OPEN_FILES) (st : Step State Event) : Bool :=
  match st.event with
  | .call (.get_next_dir_son (some v) son_name) _ => v = w.val ∧ son_name ≠ 0
  | _ => false

/-- The step does not use slot `w` unless it asks for the next son, and no entry appears or disappears in it. -/
def Quiet (w : Fin MAX_OPEN_FILES) (st : Step State Event) : Prop :=
  ∀ c r, st.event = .call c r → (∃ son_name, c.Asks w son_name) ∨
    c.given ≠ some (w.val : Int) ∧ ∀ i, st.pre.kind i = .EMPTY ↔ st.post.kind i = .EMPTY

section Quiet
variable {s s' : State} {e : Event} {d : Fin FS_NPAGES} {w : Fin MAX_OPEN_FILES} {it : Iter (Fin FS_NPAGES)}

theorem Call.Asks.asks {c : Call} {son_name : Nat} (h : c.Asks w son_name) (r : Reply) : asks w ⟨s, .call c r, s'⟩ = true := by
  obtain ⟨rfl, hb⟩ := h
  simp [ClbFilesystem.asks, hb]

theorem asks_eq_false {c : Call} (h : ∀ son_name, ¬ c.Asks w son_name) (r : Reply) : asks w ⟨s, .call c r, s'⟩ = false := by
  unfold asks
  split
  · next v son_name r heq =>
    cases heq
    rw [decide_eq_false_iff_not]
    rintro ⟨rfl, hb⟩
    exact h son_name ⟨rfl, hb⟩
  · rfl

/-- A call in which no entry appears or disappears leaves the tree and the names. -/
theorem Effect.quiet {T : Tree} {c : Call} {r : Reply} (ht : TreeInv s T) (h : Effect s c r s')
    (hsame : ∀ i, s.kind i = .EMPTY ↔ s'.kind i = .EMPTY) :
    s'.links = s.links ∧ ∀ j, s'.kind j = s.kind j ∧ (s'.inode j).nameOf = (s.inode j).nameOf := by
  cases h.treeStep with
  | @created path name type d a hcr hname hp hk hf =>
    have hnew := (hsame a).1 (State.freeEntry_eq_some.1 hf).1
    unfold State.kind at hnew
    rw [State.created_type, if_pos rfl] at hnew
    exact absurd hnew hcr.type_ne
  | @removed path i hdel hp hr =>
    have hgone : (s.removed i).kind i = .EMPTY := by
      unfold State.kind
      rw [State.removed_type, if_pos (by simp)]
    exact absurd ((hsame i).2 hgone) ((ht.live i).2 (ht.resolve_mem hp))
  | kept hlinks hkept => exact ⟨hlinks, hkept⟩

/-- A quiet step moves the cursor if it asks, and leaves the names of all entries. -/
theorem Next.quiet (hi : Inv s) (h : Next s e s') (hat : IterAt d w s it) (hq : Quiet w ⟨s, e, s'⟩) :
    IterAt d w s' (if asks w ⟨s, e, s'⟩ then it.next else it) ∧ ∀ j, (s'.inode j).nameOf = (s.inode j).nameOf := by
  cases h with
  | user hm => exact ⟨⟨hat.pointer, hat.folder, hat.sons, hat.cursor⟩, fun _ => rfl⟩
  | @call c r s' hc =>
    rcases hq c r rfl with ⟨son_name, hask⟩ | ⟨hgiven, hsame⟩
    · obtain ⟨T, ht⟩ := hi.tree
      rw [hask.asks, if_pos rfl]
      obtain ⟨rfl, hb⟩ := hask
      rw [exec_asks ht hat.pointer hat.folder hb, Except.ok.injEq, Prod.mk.injEq] at hc
      obtain ⟨-, rfl⟩ := hc
      refine ⟨hat.asked ht son_name, fun j => ?_⟩
      unfold State.inode
      rw [State.asked_table]
    · have hnot : ∀ son_name, ¬ c.Asks w son_name := by
        rintro son_name ⟨rfl, -⟩
        exact hgiven rfl
      obtain ⟨tk, htk, he⟩ := exec_effect hi hc
      obtain ⟨T, ht⟩ := (hi.congr htk).tree
      obtain ⟨hlinks, hkept⟩ := he.quiet ht hsame
      have hopen : ({ s with token := tk } : State).pointers w ≠ none := fun hnone => nomatch hat.pointer.symm.trans hnone
      have hslot := he.slot_kept hopen (fun hcl => hgiven hcl.given_eq) hnot
      rw [asks_eq_false hnot, if_neg (by simp)]
      refine ⟨⟨?_, (hkept d).1.trans hat.folder, ?_, ?_⟩, fun j => (hkept j).2⟩
      · exact (congrArg FileDescriptor.inode hslot).trans hat.pointer
      · rw [State.sons_congr hlinks]
        exact hat.sons
      · exact (congrArg FileDescriptor.next_son hslot).trans hat.cursor

end Quiet

/-- After quiet steps the cursor has moved on once for every time the slot was asked. -/
theorem IterAt.quiet {s₁ s : State} {tr : List (Step State Event)} {d : Fin FS_NPAGES} {w : Fin MAX_OPEN_FILES}
    {it : Iter (Fin FS_NPAGES)} (hi : Inv s₁) (hat : IterAt d w s₁ it) (h : Run Next s₁ tr s) (hq : ∀ st ∈ tr, Quiet w st) :
    IterAt d w s (Iter.next^[tr.countP (asks w)] it) ∧ ∀ j, (s.inode j).nameOf = (s₁.inode j).nameOf := by
  induction h with
  | nil => exact ⟨hat, fun _ => rfl⟩
  | @snoc tr u e t hrun hn ih =>
    obtain ⟨hat', hnames⟩ := ih fun st hst => hq st (by simp [hst])
    have hu := hrun.inv Inv hi fun _ _ _ => Inv.next_step
    obtain ⟨hnext, hkept⟩ := hn.quiet hu hat' (hq _ (by simp))
    refine ⟨?_, fun j => (hkept j).trans (hnames j)⟩
    rw [List.countP_append, List.countP_singleton]
    split
    · next hask =>
      rw [if_pos hask] at hnext
      rw [Function.iterate_succ_apply']
      exact hnext
    · next hask =>
      rw [if_neg hask] at hnext
      exact hnext

/-- A folder has been opened, and only quiet steps have been made since. Each time the slot is asked it answers
with the name of the next of the sons the folder had, in the order of their creation, and with the empty string
once all have been named. -/
theorem Runs.listing_complete {tr₀ : List (Step State Event)} {s₀ s₁ : State} {path : CStr} {fd : Option Int} {r₀ : Reply}
    {d : Fin FS_NPAGES} {w : Fin MAX_OPEN_FILES} (h : Runs tr₀ s₀) (hd : s₀.resolve path.chars = some d)
    (hopen : exec (.open_dir (some path) fd) s₀ = .ok (r₀, s₁)) (hr₀ : r₀.ret = .error .VFS_OK)
    (hw : r₀.fd = some (w.val : Int)) :
    ∃ sons : List (Fin FS_NPAGES), (∀ n, n ∈ sons ↔ (s₀.inode n).father = some d) ∧
      (sons.Pairwise fun i j => createdAt tr₀ i < createdAt tr₀ j) ∧
      ∀ tr s, Run Next s₁ tr s → (∀ st ∈ tr, Quiet w st) → ∀ son_name, son_name ≠ 0 →
        ∃ s', exec (.get_next_dir_son (some (w.val : Int)) son_name) s =
            .ok ({ ret := .error .VFS_OK, fd := some (w.val : Int) }, s') ∧
          s'.mem.HoldsString son_name ((sons.map fun n => (s₀.inode n).nameOf).getD (tr.countP (asks w)) []) := by
  have hi₀ := Reachable.invariant ⟨tr₀, h⟩
  obtain ⟨T₀, ht₀⟩ := hi₀.tree
  refine ⟨s₀.sons d, ht₀.mem_sons d, h.sons_ordered d, fun tr s hrun hq son_name hb => ?_⟩
  obtain ⟨p, d', w', hp, hd', hw', hlinks, hopened, hat⟩ := IterAt.of_open hi₀ hopen hr₀
  obtain rfl := Option.some.inj hp
  obtain rfl := Option.some.inj (hd'.symm.trans hd)
  obtain rfl : w' = w := by
    rw [hw, Option.some.injEq] at hw'
    exact Fin.ext (by omega)
  have hi₁ : Inv s₁ := (Reachable.call ⟨tr₀, h⟩ hopen).invariant
  obtain ⟨hat', hnames⟩ := hat.quiet hi₁ hrun hq
  obtain ⟨T, ht⟩ := (hrun.inv Inv hi₁ fun _ _ _ => Inv.next_step).tree
  refine ⟨_, exec_asks ht hat'.pointer hat'.folder hb, ?_⟩
  have hname : s.nextName w' = ((s₀.sons d').map fun n => (s₀.inode n).nameOf).getD (tr.countP (asks w')) [] := by
    have hcursor := hat'.cursor
    rw [Iter.cursor_iterate_next_start, State.sons_congr hlinks] at hcursor
    unfold State.nextName
    rw [hcursor, List.getD_eq_getElem?_getD, List.getElem?_map]
    cases (s₀.sons d')[tr.countP (asks w')]? with
    | none => rfl
    | some n => exact (hnames n).trans (hopened n)
  rw [← hname]
  exact s.asked_holds w' son_name

/-- Once more the slot is asked, and the root is opened on another slot and closed. -/
def askedOnce : List Call := [ask, .open_dir (some rootName) (some 0), .close_dir (some 1)]

/-- Asked a second time, it names `c`, the son that was created last, though `c` comes first in the table. -/
theorem listing_complete_root : ∃ s', exec ask (callsFrom (afterCalls rootOpened) askedOnce).2 =
    .ok ({ ret := .error .VFS_OK, fd := some 0 }, s') ∧ s'.mem.HoldsString 64 nameC.chars := by
  obtain ⟨sons, hsons, hordered, hall⟩ := Runs.listing_complete (d := ROOT_INODE) (w := slot0) (runs_calls twoSons).1
    (by decide +kernel) exec_rootOpened rfl rfl
  have hkinds : ∀ st ∈ (callsFrom (afterCalls rootOpened) askedOnce).1, ∀ i,
      (st.pre.kind i = .EMPTY ↔ st.post.kind i = .EMPTY) := by decide +kernel
  obtain ⟨s', hex, hholds⟩ := hall _ _ (run_callsFrom _ askedOnce).1 (fun st hst c r he => by
      have hc := mem_callsFrom hst he
      simp only [askedOnce, List.mem_cons, List.not_mem_nil, or_false] at hc
      rcases hc with rfl | rfl | rfl
      · exact .inl ⟨64, rfl, by decide⟩
      · exact .inr ⟨by decide, hkinds st hst⟩
      · exact .inr ⟨by decide, hkinds st hst⟩) 64 (by decide)
  refine ⟨s', hex, ?_⟩
  have htwo : ∀ n, ((afterCalls twoSons).inode n).father = some ROOT_INODE ↔ n = entry2 ∨ n = entry1 := by decide +kernel
  have hlt : createdAt (runCalls twoSons).1 entry2 < createdAt (runCalls twoSons).1 entry1 := by decide +kernel
  -- `b` and `c` are the only sons, so they are the list, in the order of creation.
  have hlist : sons = [entry2, entry1] := by
    have hnodup : sons.Nodup := hordered.imp fun h he => by simp [he] at h
    have hperm : sons.Perm [entry2, entry1] :=
      (List.perm_ext_iff_of_nodup hnodup (by decide)).2 fun n => by rw [hsons, htwo]; simp
    exact hperm.eq_of_pairwise (fun i j _ _ hij hji => absurd hij (by omega)) hordered (by simpa using hlt)
  have honce : (callsFrom (afterCalls rootOpened) askedOnce).1.countP (asks slot0) = 1 := by decide +kernel
  have hname : ((afterCalls twoSons).inode entry1).nameOf = nameC.chars := by decide +kernel
  rw [hlist, honce] at hholds
  rw [← hname]
  exact hholds

end ClbFilesystem
