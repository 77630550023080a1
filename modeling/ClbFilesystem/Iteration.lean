import ClbFilesystem.Lib.Iter
import ClbFilesystem.Paths
import ClbFilesystem.Slots
/-!
# Listing a folder

A slot open on a folder holds a pointer to the son to be named next. `IterAt`
reads it as a cursor in the list of the sons, which other calls change: a
creation puts a son at the end, a deletion takes one out. All goes well as long
as the son under the cursor is not deleted. The pointer then stays on an entry
that is free, or belongs to whatever was created in it since.
-/

namespace ClbFilesystem

open Lib

/-! ## Strings in the memory of the caller -/

/-- The bytes at an address are a string and its NUL. -/
def Mem.HoldsString (m : Mem) : Nat → List UInt8 → Prop
  | a, [] => m a = 0
  | a, c :: name => m a = c ∧ m.HoldsString (a + 1) name

theorem Mem.holdsString_write (m : Mem) (a : Nat) (name : List UInt8) : (m.write a (name ++ [0])).HoldsString a name := by
  induction name generalizing m a with
  | nil => exact Function.update_self a 0 m
  | cons c name ih =>
    refine ⟨?_, ih _ _⟩
    rw [List.cons_append, write, write_outside _ _ _ (by omega), Function.update_self]

/-- Only one string without NUL starts at an address. -/
theorem Mem.HoldsString.unique {m : Mem} {a : Nat} {n n' : List UInt8} (h : m.HoldsString a n) (h' : m.HoldsString a n')
    (h0 : 0 ∉ n) (h0' : 0 ∉ n') : n = n' := by
  induction n generalizing a n' with
  | nil => cases n' with
    | nil => rfl
    | cons c' n' =>
      have hc : c' = 0 := h'.1.symm.trans h
      exact absurd (by simp [hc]) h0'
  | cons c n ih =>
    simp only [List.mem_cons, not_or] at h0
    cases n' with
    | nil => exact absurd (h'.symm.trans h.1) h0.1
    | cons c' n' =>
      simp only [List.mem_cons, not_or] at h0'
      rw [← h.1, ← h'.1, ih h.2 h'.2 h0.2 h0'.2]

/-! ## The cursor of a slot -/

/-- The call asks slot `w` for the next son. -/
def Call.Asks (c : Call) (w : Fin MAX_OPEN_FILES) (son_name : Nat) : Prop :=
  c = .get_next_dir_son (some (w.val : Int)) son_name ∧ son_name ≠ 0

/-- Slot `w` is open on folder `d`, and `next_son` is a cursor in the list of its sons. -/
structure IterAt (d : Fin FS_NPAGES) (w : Fin MAX_OPEN_FILES) (s : State) (it : Iter (Fin FS_NPAGES)) : Prop where
  pointer : s.pointers w = some d
  folder : s.kind d = .FOLDER
  sons : s.sons d = it.list
  cursor : (s.slot w).next_son = it.cursor

namespace State

/-- What slot `w` answers next: the name of an entry, the empty string behind the end. -/
def nextName (s : State) (w : Fin MAX_OPEN_FILES) : List UInt8 :=
  match (s.slot w).next_son with
  | some n => (s.inode n).nameOf
  | none => []

/-- Slot `w` has been asked, and has answered at `son_name`. -/
def asked (s : State) (w : Fin MAX_OPEN_FILES) (son_name : Nat) : State :=
  match (s.slot w).next_son with
  | some n => s.listed (s.mem.write son_name ((s.inode n).nameOf ++ [0])) w n
  | none => { s with mem := s.mem.write son_name [0] }

variable (s : State) (w : Fin MAX_OPEN_FILES) (son_name : Nat)

theorem asked_table : (s.asked w son_name).RAM_inodes_table = s.RAM_inodes_table := by
  unfold asked
  split <;> rfl

theorem asked_pointers : (s.asked w son_name).pointers = s.pointers := by
  unfold asked
  split
  · exact listed_pointers ..
  · rfl

theorem asked_holds : (s.asked w son_name).mem.HoldsString son_name (s.nextName w) := by
  unfold asked nextName
  split
  · exact Mem.holdsString_write ..
  · exact Mem.holdsString_write s.mem son_name []

theorem asked_next_son : ((s.asked w son_name).slot w).next_son =
    (s.slot w).next_son.bind fun n => (s.inode n).brother := by
  unfold asked
  cases hn : (s.slot w).next_son with
  | some n => simp [listed_slot]
  | none => exact hn

theorem sons_congr {s s' : State} (h : s'.links = s.links) : s'.sons = s.sons := by
  funext d
  have hfirst : s'.links.first_son d = s.links.first_son d := by rw [h]
  show s'.links.chainList FS_NPAGES (s'.links.first_son d) = _
  rw [h]
  rfl

end State

section OneStep
variable {s s' : State} {T : Tree} {c : Call} {r : Reply} {d : Fin FS_NPAGES} {w : Fin MAX_OPEN_FILES}
  {it : Iter (Fin FS_NPAGES)} {son_name : Nat}

theorem exec_asks (ht : TreeInv s T) (hp : s.pointers w = some d) (hk : s.kind d = .FOLDER) (hb : son_name ≠ 0) :
    exec (.get_next_dir_son (some (w.val : Int)) son_name) s =
      .ok ({ ret := .error .VFS_OK, fd := some (w.val : Int) }, s.asked w son_name) := by
  have hw : (s.slot w).inode = some d := hp
  simp only [exec]
  rw [get_next_dir_son_eq ht hb]
  simp only [hw, hk, ne_eq, not_true_eq_false, if_false, State.asked]
  cases (s.slot w).next_son <;> rfl

/-- Being asked moves the cursor to the next son. -/
theorem IterAt.asked (ht : TreeInv s T) (hat : IterAt d w s it) (son_name : Nat) : IterAt d w (s.asked w son_name) it.next := by
  have htable := s.asked_table w son_name
  have hlinks : (s.asked w son_name).links = s.links := by simp only [State.links, State.inode, htable]
  refine ⟨?_, ?_, ?_, ?_⟩
  · rw [s.asked_pointers]
    exact hat.pointer
  · rw [State.kind_congr htable]
    exact hat.folder
  · rw [State.sons_congr hlinks, Iter.list_next]
    exact hat.sons
  · rw [s.asked_next_son, hat.cursor]
    cases hn : it.cursor with
    | none => rw [Iter.next_of_end hn, hn]; rfl
    | some n =>
      obtain ⟨l, l', hl, hnext⟩ := Iter.cursor_next hn
      have hchain := (ht.chain_sons d).1
      rw [hat.sons, hl] at hchain
      rw [hnext]
      exact hchain.brother_eq

/-- A slot in use keeps its fields in a call that neither closes it nor asks it. -/
theorem Effect.slot_kept (h : Effect s c r s') (hw : s.pointers w ≠ none) (hclose : ¬ c.Closing (some (w.val : Int)))
    (hask : ∀ son_name, ¬ c.Asks w son_name) : s'.slot w = s.slot w := by
  cases h with
  | @opened c path type set e i hc he hp hk =>
    rw [State.opened_slot, if_neg]
    rintro rfl
    exact hw (State.freeSlot_eq_some.1 he).1
  | @closed c e clear i hc he =>
    rw [State.closed_slot, if_neg]
    rintro rfl
    apply hclose
    cases hc <;> constructor
  | @listed e son_name i n hb he hk hn =>
    rw [State.listed_slot, if_neg]
    rintro rfl
    exact hask son_name ⟨rfl, hb⟩
  | _ => rfl

/-- What a step does to the list a cursor goes through. -/
inductive ListStep (s s' : State) (it : Iter (Fin FS_NPAGES)) : Iter (Fin FS_NPAGES) → Prop
  | same : ListStep s s' it it
  | push {a} : s.kind a = .EMPTY → ListStep s s' it (it.push a)
  | remove {x} : s'.kind x = .EMPTY → ListStep s s' it (it.remove x)

/-- A call that neither closes nor asks the slot, and spares the folder and the son under the cursor, leaves the
cursor where it is. -/
theorem Effect.iter (ht : TreeInv s T) (h : Effect s c r s') (hat : IterAt d w s it)
    (hclose : ¬ c.Closing (some (w.val : Int))) (hask : ∀ son_name, ¬ c.Asks w son_name) (hd : s'.kind d ≠ .EMPTY)
    (hcur : ∀ n, it.cursor = some n → s'.kind n ≠ .EMPTY) : ∃ it', IterAt d w s' it' ∧ ListStep s s' it it' := by
  have hslot := h.slot_kept (by rw [hat.pointer]; simp) hclose hask
  have hp : s'.pointers w = some d := (congrArg FileDescriptor.inode hslot).trans hat.pointer
  have hn : (s'.slot w).next_son = it.cursor := (congrArg FileDescriptor.next_son hslot).trans hat.cursor
  cases h.treeStep with
  | @created path name type e a hc hname hp' hk hf =>
    have hempty := (State.freeEntry_eq_some.1 hf).1
    have hsons : (s.created name type e a).sons d = _ := ht.created_sons hk hempty hc.type_ne d
    have hda : d ≠ a := by
      rintro rfl
      exact absurd (hat.folder.symm.trans hempty) (by decide)
    have hfolder : (s.created name type e a).kind d = .FOLDER := by
      unfold State.kind
      rw [State.created_type, if_neg hda]
      exact hat.folder
    by_cases hde : d = e
    · subst hde
      rw [if_pos rfl, hat.sons, ← Iter.list_push] at hsons
      exact ⟨it.push a, ⟨hp, hfolder, hsons, by rw [Iter.cursor_push]; exact hn⟩, .push hempty⟩
    · rw [if_neg hde, hat.sons] at hsons
      exact ⟨it, ⟨hp, hfolder, hsons, hn⟩, .same⟩
  | @removed path i hc hp' hr =>
    have hsons := ht.removed_sons (ht.resolve_mem hp') hr d
    have hgone : ∀ j, (s.removed i).kind j ≠ .EMPTY → j ∉ i :: s.below i := fun j hj hin => hj <| by
      unfold State.kind
      rw [State.removed_type, if_pos hin]
    have hi : (s.removed i).kind i = .EMPTY := by
      unfold State.kind
      rw [State.removed_type, if_pos (by simp)]
    have hfolder : (s.removed i).kind d = .FOLDER := by
      unfold State.kind
      rw [State.removed_type, if_neg (hgone d hd)]
      exact hat.folder
    have hne : it.cursor ≠ some i := fun h => hcur i h hi
    rw [if_neg (hgone d hd), hat.sons, ← Iter.list_remove] at hsons
    exact ⟨it.remove i, ⟨hp, hfolder, hsons, by rw [Iter.cursor_remove hne]; exact hn⟩, .remove hi⟩
  | kept hlinks hsame =>
    exact ⟨it, ⟨hp, (hsame d).1.trans hat.folder, by rw [State.sons_congr hlinks]; exact hat.sons, hn⟩, .same⟩

end OneStep

/-! ## One step of a run -/

/-- The step leaves slot `w` open and folder `d` there. -/
def Keeps (d : Fin FS_NPAGES) (w : Fin MAX_OPEN_FILES) (st : Step State Event) : Prop :=
  st.post.kind d ≠ .EMPTY ∧ ∀ c r, st.event = .call c r → ¬ c.Closing (some (w.val : Int))

/-- The step deletes the son under the cursor of slot `w`. -/
def Cuts (w : Fin MAX_OPEN_FILES) (st : Step State Event) : Prop :=
  ∃ c r path n, st.event = .call c r ∧ c.Deletes path ∧ st.pre.resolve path.chars = some n ∧ (st.pre.slot w).next_son = some n

section Steps
variable {s s' : State} {e : Event} {d : Fin FS_NPAGES} {w : Fin MAX_OPEN_FILES} {it : Iter (Fin FS_NPAGES)}

theorem IterAt.father {T : Tree} (ht : TreeInv s T) (hat : IterAt d w s it) {n : Fin FS_NPAGES} (hn : it.cursor = some n) :
    (s.inode n).father = some d := by
  rw [← ht.mem_sons, hat.sons]
  exact Iter.cursor_mem hn

theorem TreeInv.kind_of_father {T : Tree} (ht : TreeInv s T) {n : Fin FS_NPAGES} (hf : (s.inode n).father = some d) :
    s.kind n ≠ .EMPTY := by
  intro hk
  rw [(ht.free n hk).1] at hf
  cases hf

/-- Unless it is deleted itself, the son under the cursor goes with its folder only. -/
theorem Effect.cursor_spared {T : Tree} {c : Call} {r : Reply} (ht : TreeInv s T) (h : Effect s c r s')
    (hat : IterAt d w s it) (hd : s'.kind d ≠ .EMPTY)
    (hcut : ∀ path n, c.Deletes path → s.resolve path.chars = some n → it.cursor ≠ some n) :
    ∀ n, it.cursor = some n → s'.kind n ≠ .EMPTY := by
  intro n hn
  have hf := hat.father ht hn
  have hlive := ht.kind_of_father hf
  cases h.treeStep with
  | @created path name type e a hc hname hp hk hfree =>
    have hna : n ≠ a := by
      rintro rfl
      exact hlive (State.freeEntry_eq_some.1 hfree).1
    unfold State.kind
    rwa [State.created_type, if_neg hna]
  | @removed path i hc hp hr =>
    obtain ⟨G, hG⟩ := Forest.exists_sonsOf (ht.resolve_mem hp)
    have hni : n ∉ i :: s.below i := by
      rw [List.mem_cons, not_or]
      refine ⟨fun h => hcut path i hc hp (h ▸ hn), fun hbelow => hd ?_⟩
      rw [ht.below_eq hG] at hbelow
      obtain ⟨k, hk, hfk⟩ := ht.father_of_below hG hbelow
      obtain rfl := Option.some.inj (hfk.symm.trans hf)
      unfold State.kind
      rw [State.removed_type, ht.below_eq hG, if_pos hk]
    unfold State.kind
    rwa [State.removed_type, if_neg hni]
  | kept hlinks hsame => rwa [(hsame n).1]

/-- A step asks the slot, or changes the list around the cursor. -/
theorem Next.iter (hi : Inv s) (h : Next s e s') (hat : IterAt d w s it) (hk : Keeps d w ⟨s, e, s'⟩)
    (hcut : ¬ Cuts w ⟨s, e, s'⟩) :
    (∃ son_name r, e = .call (.get_next_dir_son (some (w.val : Int)) son_name) r ∧ son_name ≠ 0 ∧
      r.ret = .error .VFS_OK ∧ s' = s.asked w son_name ∧ IterAt d w s' it.next) ∨
    (∀ c r son_name, e = .call c r → ¬ c.Asks w son_name) ∧ ∃ it', IterAt d w s' it' ∧ ListStep s s' it it' := by
  obtain ⟨T, ht⟩ := hi.tree
  cases h with
  | user hm => exact .inr ⟨fun _ _ _ he => (by cases he), it, ⟨hat.pointer, hat.folder, hat.sons, hat.cursor⟩, .same⟩
  | @call c r s' hc =>
    by_cases hask : ∃ son_name, c.Asks w son_name
    · obtain ⟨son_name, rfl, hb⟩ := hask
      rw [exec_asks ht hat.pointer hat.folder hb, Except.ok.injEq, Prod.mk.injEq] at hc
      obtain ⟨rfl, rfl⟩ := hc
      exact .inl ⟨son_name, _, rfl, hb, rfl, rfl, hat.asked ht son_name⟩
    · rw [not_exists] at hask
      obtain ⟨tk, -, he⟩ := exec_effect hi hc
      have ht' := ht.setToken tk
      have hat' : IterAt d w { s with token := tk } it := ⟨hat.pointer, hat.folder, hat.sons, hat.cursor⟩
      have hspared := he.cursor_spared ht' hat' hk.1 fun path n hdel hp hn =>
        hcut ⟨c, r, path, n, rfl, hdel, hp, hat.cursor.trans hn⟩
      obtain ⟨it', hit, hstep⟩ := he.iter ht' hat' (hk.2 c r rfl) hask hk.1 hspared
      refine .inr ⟨fun c' r' son_name heq => ?_, it', hit, ?_⟩
      · cases heq
        exact hask son_name
      · cases hstep with
        | same => exact .same
        | push ha => exact .push ha
        | remove hx => exact .remove hx

end Steps

/-! ## Runs -/

/-- The entry whose name the step returns, if it asks slot `w`. -/
def named (w : Fin MAX_OPEN_FILES) (st : Step State Event) : Option (Fin FS_NPAGES) :=
  match st.event with
  | .call (.get_next_dir_son (some v) son_name) _ => if v = w.val ∧ son_name ≠ 0 then (st.pre.slot w).next_son else none
  | _ => none

/-- The entries whose names slot `w` has returned. -/
def returned (w : Fin MAX_OPEN_FILES) (tr : List (Step State Event)) : List (Fin FS_NPAGES) := tr.filterMap (named w)

theorem named_other {w : Fin MAX_OPEN_FILES} {s s' : State} {e : Event}
    (h : ∀ c r son_name, e = .call c r → ¬ c.Asks w son_name) : named w ⟨s, e, s'⟩ = none := by
  unfold named
  split
  · next he =>
    rw [if_neg]
    rintro ⟨rfl, hb⟩
    exact h _ _ _ he ⟨rfl, hb⟩
  · rfl

/-- After a successful open the cursor is in front of the first son. -/
theorem IterAt.of_open {s s₁ : State} {path fd} {r : Reply} (hi : Inv s) (h : exec (.open_dir path fd) s = .ok (r, s₁))
    (hr : r.ret = .error .VFS_OK) : ∃ p d w, path = some p ∧ s.resolve p.chars = some d ∧
      r.fd = some ((w : Fin MAX_OPEN_FILES).val : Int) ∧ s₁.links = s.links ∧
      (∀ j, (s₁.inode j).nameOf = (s.inode j).nameOf) ∧ IterAt d w s₁ (.start (s₁.sons d)) := by
  obtain ⟨tk, htk, he⟩ := exec_effect hi h
  obtain ⟨T, ht⟩ := (hi.congr htk).tree
  cases he with
  | @opened c p type set w d hc hw hp hk =>
    cases hc
    have hlinks : (({ s with token := tk } : State).opened (fun n slot => { slot with next_son := n.first_son }) w d).links = s.links := by
      simp only [State.links, State.opened_inode]
      rfl
    refine ⟨p, d, w, rfl, ?_, rfl, hlinks, fun j => ?_, ?_, ?_, rfl, ?_⟩
    · rwa [State.resolve_setToken] at hp
    · rw [State.opened_inode]
      rfl
    · have hopens : Call.Opens (.open_dir (some p) (some 0)) p .FOLDER _ := .open_dir
      rw [hopens.pointers, setSlot, Function.update_self]
    · rw [State.opened_kind]
      exact hk
    · rw [State.opened_slot, if_pos rfl, State.sons_congr hlinks, Iter.cursor_start]
      exact (ht.chain_sons d).1.head?_eq
  | closed hc => cases hc
  | wrote hc => cases hc
  | created hc => cases hc
  | removed hc => cases hc
  | refused hrefused => simp [Reply.Refused, hr] at hrefused

section Runs
variable {s₁ s : State} {tr : List (Step State Event)} {d : Fin FS_NPAGES} {w : Fin MAX_OPEN_FILES}

/-- Along a run that does not cut, the cursor goes through the list of the sons, and sons that stay are due. -/
theorem IterAt.run (hi : Inv s₁) (hat : IterAt d w s₁ (.start (s₁.sons d))) (h : Run Next s₁ tr s)
    (hkeep : ∀ st ∈ tr, Keeps d w st) (hcut : ∀ st ∈ tr, ¬ Cuts w st) :
    ∃ it, IterAt d w s it ∧ ∀ x, (s₁.inode x).father = some d → (∀ st ∈ tr, (st.post.inode x).father = some d) →
      it.Due x (returned w tr) := by
  obtain ⟨T₁, ht₁⟩ := hi.tree
  induction h with
  | nil => exact ⟨_, hat, fun x hx _ => Iter.due_start ((ht₁.mem_sons d x).2 hx)⟩
  | @snoc tr u e t hrun hn ih =>
    obtain ⟨it, hit, hdue⟩ := ih (fun st hst => hkeep st (by simp [hst])) fun st hst => hcut st (by simp [hst])
    have hu := hrun.inv Inv hi fun _ _ _ => Inv.next_step
    obtain ⟨T, ht⟩ := hu.tree
    obtain ⟨T', ht'⟩ := (hu.next_step hn).tree
    have hdue' : ∀ x, (s₁.inode x).father = some d → (∀ st ∈ tr ++ [⟨u, e, t⟩], (st.post.inode x).father = some d) →
        it.Due x (returned w tr) ∧ (t.inode x).father = some d :=
      fun x hx hall => ⟨hdue x hx fun st hst => hall st (by simp [hst]), hall ⟨u, e, t⟩ (by simp)⟩
    have hreturned : returned w (tr ++ [⟨u, e, t⟩]) = returned w tr ++ (named w ⟨u, e, t⟩).toList := by
      unfold returned
      rw [List.filterMap_append]
      cases hnamed : named w ⟨u, e, t⟩ <;> simp [hnamed]
    rw [hreturned]
    rcases hn.iter hu hit (hkeep _ (by simp)) (hcut _ (by simp)) with
      ⟨son_name, r, rfl, hb, -, rfl, hit'⟩ | ⟨hask, it', hit', hstep⟩
    · refine ⟨it.next, hit', fun x hx hall => ?_⟩
      have hx' := (hdue' x hx hall).1
      have hnamed : named w ⟨u, .call (.get_next_dir_son (some w.val) son_name) r, u.asked w son_name⟩ = it.cursor := by
        unfold named
        simp [hb, hit.cursor]
      rw [hnamed]
      cases hc : it.cursor with
      | none => rw [Iter.next_of_end hc]; simpa using hx'
      | some y =>
        have hnodup : it.list.Nodup := by
          rw [← hit.sons]
          exact ht.sons_nodup d
        exact hx'.next hnodup hc
    · refine ⟨it', hit', fun x hx hall => ?_⟩
      obtain ⟨hx', hf⟩ := hdue' x hx hall
      rw [named_other hask, Option.toList_none, List.append_nil]
      cases hstep with
      | same => exact hx'
      | push ha => exact hx'.push
      | remove hy =>
        apply hx'.remove
        rintro rfl
        exact ht'.kind_of_father hf hy

end Runs

/-- Folder `d` has been opened on slot `w`, and neither has it been deleted since nor the slot closed, and no step
has deleted the son under the cursor. Then every answer of the slot is good: a name is that of a son the folder
has at the moment, and behind the end every son that was there all the time has been returned exactly once. -/
theorem Reachable.listing_sound {s₀ s₁ s s' : State} {path fd} {r₀ r : Reply} {d : Fin FS_NPAGES}
    {w : Fin MAX_OPEN_FILES} {tr : List (Step State Event)} {son_name : Nat} (h : Reachable s₀)
    (hopen : exec (.open_dir path fd) s₀ = .ok (r₀, s₁)) (hr₀ : r₀.ret = .error .VFS_OK) (hw : r₀.fd = some (w.val : Int))
    (hd : s₁.pointers w = some d) (hrun : Run Next s₁ tr s) (hkeep : ∀ st ∈ tr, Keeps d w st)
    (hcut : ∀ st ∈ tr, ¬ Cuts w st) (hb : son_name ≠ 0)
    (hask : exec (.get_next_dir_son (some (w.val : Int)) son_name) s = .ok (r, s')) :
    r.ret = .error .VFS_OK ∧ ∃ name, 0 ∉ name ∧ s'.mem.HoldsString son_name name ∧
      (name ≠ [] → ∃ n, (s.inode n).father = some d ∧ (s.inode n).nameOf = name) ∧
      (name = [] → ∀ x, (s₁.inode x).father = some d → (∀ st ∈ tr, (st.post.inode x).father = some d) →
        (returned w tr).count x = 1) := by
  have h₁ := h.call hopen
  obtain ⟨p, d', w', -, -, hw', -, -, hat⟩ := IterAt.of_open h.invariant hopen hr₀
  obtain rfl : w' = w := by
    rw [hw, Option.some.injEq] at hw'
    exact Fin.ext (by omega)
  obtain rfl : d' = d := Option.some.inj (hat.pointer.symm.trans hd)
  obtain ⟨it, hit, hdue⟩ := hat.run h₁.invariant hrun hkeep hcut
  have hs : Reachable s := hrun.inv Reachable h₁ fun _ _ _ => Reachable.next
  obtain ⟨T, ht⟩ := hs.invariant.tree
  rw [exec_asks ht hit.pointer hit.folder hb, Except.ok.injEq] at hask
  obtain ⟨rfl, rfl⟩ := Prod.mk.inj hask
  refine ⟨rfl, s.nextName w', ?_, s.asked_holds w' son_name, ?_, ?_⟩
  · unfold State.nextName
    split
    · exact zero_not_mem_cstr _
    · simp
  · intro hne
    unfold State.nextName at hne ⊢
    cases hn : (s.slot w').next_son with
    | none => simp [hn] at hne
    | some n => exact ⟨n, hit.father ht (hit.cursor.symm.trans hn), rfl⟩
  · intro hend x hx hall
    apply (hdue x hx hall).count
    rw [← hit.cursor]
    unfold State.nextName at hend
    cases hn : (s.slot w').next_son with
    | none => rfl
    | some n =>
      rw [hn] at hend
      exact absurd hend (hs.nameOf_ne_nil (ht.kind_of_father (hit.father ht (hit.cursor.symm.trans hn))))

/-- The root has the sons `b` and `c`, and `c` has the place in the table that a deleted `a` had, before `b`. -/
def twoSons : List Call := [.create_file (some rootName) (some nameA), .create_file (some rootName) (some nameB),
  .delete_file (some pathA), .create_file (some rootName) (some nameC)]

/-- Then the root is opened on slot 0. -/
def rootOpened : List Call := twoSons ++ [.open_dir (some rootName) (some 0)]

theorem exec_rootOpened : exec (.open_dir (some rootName) (some 0)) (afterCalls twoSons) =
    .ok ({ ret := .error .VFS_OK, fd := some 0 }, afterCalls rootOpened) := exec_afterCalls (by decide +kernel)

/-- Slot 0 is asked for the next son. -/
def ask : Call := .get_next_dir_son (some 0) 64

/-- Between two answers a folder `a` is created in the root and deleted. -/
def asking : List Call := [ask, .create_dir (some rootName) (some nameA), .delete_dir (some pathA), ask]

/-- Asked a third time, the slot is behind the end, and has returned `b` and `c` once each. -/
theorem listing_sound_root : (returned slot0 (callsFrom (afterCalls rootOpened) asking).1).count entry2 = 1 ∧
    (returned slot0 (callsFrom (afterCalls rootOpened) asking).1).count entry1 = 1 := by
  have hask : exec ask (callsFrom (afterCalls rootOpened) asking).2 = .ok ({ ret := .error .VFS_OK, fd := some 0 }, _) :=
    exec_callsFrom (by decide +kernel)
  have hthere : ∀ st ∈ (callsFrom (afterCalls rootOpened) asking).1, st.post.kind ROOT_INODE ≠ .EMPTY ∧
      (st.post.inode entry2).father = some ROOT_INODE ∧ (st.post.inode entry1).father = some ROOT_INODE := by decide +kernel
  -- What a deletion reaches is never the next son.
  have hapart : ∀ st ∈ (callsFrom (afterCalls rootOpened) asking).1, st.pre.resolve pathA.chars ≠ none →
      st.pre.resolve pathA.chars ≠ (st.pre.slot slot0).next_son := by decide +kernel
  obtain ⟨-, name, h0, hname, -, hend⟩ := Reachable.listing_sound (w := slot0) (d := ROOT_INODE) (reachable_afterCalls _)
    exec_rootOpened rfl rfl (by decide +kernel) (run_callsFrom _ asking).1
    (by
      refine fun st hst => ⟨(hthere st hst).1, fun c r he hc => ?_⟩
      have hc' := mem_callsFrom hst he
      cases hc <;> simp [asking, ask] at hc')
    (by
      rintro st hst ⟨c, r, path, n, he, hdel, hn, hnext⟩
      have hc' := mem_callsFrom hst he
      have hpath : path = pathA := by
        cases hdel with
        | delete_file => simp [asking, ask] at hc'
        | delete_dir => simpa [asking, ask] using hc'
      subst hpath
      exact hapart st hst (by simp [hn]) (hn.trans hnext.symm))
    (by decide) hask
  have hempty : name = [] := by
    refine hname.unique ?_ h0 (by simp)
    show _ = _
    decide +kernel
  exact ⟨hend hempty entry2 (by decide +kernel) fun st hst => (hthere st hst).2.1,
    hend hempty entry1 (by decide +kernel) fun st hst => (hthere st hst).2.2⟩

/-- The file `b` is deleted while it is next, and its name is returned all the same. -/
theorem listing_sound_fails : ¬ ∀ s₀, Reachable s₀ → ∀ path fd r₀ s₁, exec (.open_dir path fd) s₀ = .ok (r₀, s₁) →
    r₀.ret = .error .VFS_OK → ∀ w : Fin MAX_OPEN_FILES, r₀.fd = some (w.val : Int) → ∀ d, s₁.pointers w = some d →
    ∀ tr s, Run Next s₁ tr s → (∀ st ∈ tr, Keeps d w st) → ∀ son_name, son_name ≠ 0 → ∀ r s',
    exec (.get_next_dir_son (some (w.val : Int)) son_name) s = .ok (r, s') → ∀ name, 0 ∉ name → name ≠ [] →
    s'.mem.HoldsString son_name name → ∃ n, (s.inode n).father = some d ∧ (s.inode n).nameOf = name := by
  intro hall
  have h₁ : exec (.delete_file (some pathB)) (afterCalls rootOpened) = .ok ({ ret := .error .VFS_OK }, _) :=
    exec_afterCalls (by decide +kernel)
  have h₂ : exec (.get_next_dir_son (some 0) 64) (afterCalls (rootOpened ++ [.delete_file (some pathB)])) =
      .ok ({ ret := .error .VFS_OK, fd := some 0 }, _) := exec_afterCalls (by decide +kernel)
  obtain ⟨n, hf, hn⟩ := hall _ (reachable_afterCalls _) _ _ _ _ exec_rootOpened rfl slot0 rfl ROOT_INODE (by decide +kernel) _ _
    (Run.nil.snoc (.call h₁))
    (by
      intro st hst
      obtain rfl := List.mem_singleton.1 hst
      refine ⟨by decide +kernel, fun c r he hc => ?_⟩
      cases he
      cases hc)
    64 (by decide) _ _ h₂ nameB.chars (by decide) (by decide) ⟨by decide +kernel, by show _ = _; decide +kernel⟩
  have hgone : ∀ n, ((afterCalls (rootOpened ++ [.delete_file (some pathB)])).inode n).father = some ROOT_INODE → n = entry1 := by
    decide +kernel
  obtain rfl := hgone n hf
  exact absurd hn (by decide +kernel)

end ClbFilesystem
