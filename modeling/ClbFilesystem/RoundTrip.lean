import ClbFilesystem.Paths
/-!
# Reaching what was created

Creation checks that a name is neither empty nor too long, the tokenizer splits
paths at `/`. So a new entry is reached through the path of its folder and its
name unless the name contains a `/`, in which case no path reaches it. Paths that
led somewhere before still lead there.
-/

namespace ClbFilesystem

open Lib

/-- After the step the new entry is reached by `path/name`, and every path that led somewhere leads there. -/
def RoundTrip (s s' : State) (path name : CStr) : Prop :=
  (∃ i, (s.inode i).type = .EMPTY ∧ (s'.inode i).type ≠ .EMPTY ∧ Designates s' (path.join name) i) ∧
  ∀ p j, Designates s p j → Designates s' p j

section Tree
variable {s : State} {T : Tree} (h : TreeInv s T) {name : CStr} {type : TypeFile} {d i : Fin FS_NPAGES}
  (hd : s.kind d = .FOLDER) (hi : (s.inode i).type = .EMPTY) (ht : type ≠ .EMPTY)
include h hd hi ht

/-- A creation changes no path that leads somewhere. -/
theorem TreeInv.created_resolve (hl : name.chars.length ≤ MAX_SIZE_NAME) {path : List UInt8} {j : Fin FS_NPAGES}
    (hp : s.resolve path = some j) : (s.created name type d i).resolve path = some j := by
  unfold State.resolve at hp ⊢
  split at hp
  · next hslash =>
    rw [if_pos hslash]
    refine walk_mono (fun k hk => ?_) (fun k c m hm => ?_) hp
    · unfold State.kind at hk ⊢
      rw [State.created_type, if_neg]
      rintro rfl
      exact hk hi
    · rw [h.created_lookup hl hd hi ht, hm]
      rfl
  · cases hp

/-- A name without `/` that was not in the folder leads to the new entry. -/
theorem TreeInv.created_found (hn : ValidName name.chars) (hs : slash ∉ name.chars) {path : List UInt8}
    (hp : s.resolve path = some d) (hfresh : s.lookup d name.chars = none) :
    (s.created name type d i).resolve (path ++ slash :: name.chars) = some i := by
  have hd' : (s.created name type d i).kind d = .FOLDER := by
    unfold State.kind
    rw [State.created_type, if_neg]
    · exact hd
    · rintro rfl
      rw [State.kind, hi] at hd
      cases hd
  have hi' : (s.created name type d i).kind i ≠ .EMPTY := by
    unfold State.kind
    rw [State.created_type, if_pos rfl]
    exact ht
  rw [State.resolve_join (h.created_resolve hd hi ht hn.2 hp) hd', List.splitOn_eq_singleton hs]
  have hfind : (s.created name type d i).lookup d name.chars = some i := by
    rw [h.created_lookup hn.2 hd hi ht, hfresh]
    simp
  have hlong : ¬ name.chars.length > MAX_SIZE_NAME := by
    have := hn.2
    omega
  simp [walk, hlong, hn.1, hfind, hi']

/-- A name with a `/` is no component of a path: none leads to the new entry. -/
theorem TreeInv.created_lost (hl : name.chars.length ≤ MAX_SIZE_NAME) (hs : slash ∈ name.chars) (path : List UInt8) :
    (s.created name type d i).resolve path ≠ some i := by
  unfold State.resolve
  split
  · refine walk_ne (fun k c hc hf => ?_) ?_
    · have hname := ((h.created name hd hi ht).of_lookup hf).2
      rw [h.created_nameOf hl, if_pos rfl] at hname
      exact slash_not_mem_piece hc (hname ▸ hs)
    · rintro rfl
      rw [h.root] at hi
      cases hi
  · simp

end Tree

/-- A creation that returns `VFS_OK` in a folder without that name: the new entry is reached by the folder's
path and the name if and only if the name contains no `/`. Every path that led somewhere leads there still. -/
theorem Reachable.round_trip_iff {s s' : State} (h : Reachable s) {c : Call} {r : Reply} {path name : CStr}
    {type : TypeFile} {d : Fin FS_NPAGES} (hc : c.Creates path name type) (hd : Designates s path d)
    (hk : (s.inode d).type = .FOLDER) (hfresh : ∀ j, (s.inode j).father = some d → (s.inode j).nameOf ≠ name.chars)
    (hex : exec c s = .ok (r, s')) (hok : r.ret = .error .VFS_OK) :
    (RoundTrip s s' path name ↔ slash ∉ name.chars) ∧ ∀ p j, Designates s p j → Designates s' p j := by
  have hi := h.invariant
  have hi' := (h.call hex).invariant
  obtain ⟨T, ht⟩ := hi.tree
  rw [hi.designates_iff] at hd
  obtain ⟨hn, i, tk, hf, rfl⟩ : ValidName name.chars ∧ ∃ i tk, s.freeEntry = some i ∧
      s' = ({ s with token := tk } : State).created name type d i := by
    rw [hc.exec_eq] at hex
    obtain ⟨x, hx, heq⟩ := map_ok hex
    obtain ⟨rfl, rfl⟩ := Prod.mk.inj heq
    by_cases hn : ValidName name.chars
    · rw [create_eq ht hi.token path hn type, Except.ok.injEq] at hx
      have hk' : s.kind d = .FOLDER := hk
      simp only [hd, hk', ne_eq, not_true_eq_false, if_false] at hx
      cases hf : s.freeEntry with
      | none => rw [hf] at hx; subst hx; simp at hok
      | some i => rw [hf] at hx; subst hx; exact ⟨hn, i, _, rfl, rfl⟩
    · rw [create_invalid hn] at hx
      cases hx
      simp at hok
  have ht' := ht.setToken tk
  have hempty := (State.freeEntry_eq_some.1 hf).1
  have hold : ∀ p j, Designates s p j → Designates (({ s with token := tk } : State).created name type d i) p j := by
    intro p j hp
    rw [hi.designates_iff] at hp
    rw [hi'.designates_iff]
    exact ht'.created_resolve hk hempty hc.type_ne hn.2 hp
  refine ⟨⟨fun hround hs => ?_, fun hs => ⟨⟨i, hempty, ?_, ?_⟩, hold⟩⟩, hold⟩
  · obtain ⟨⟨j, hj, hj', hreach⟩, -⟩ := hround
    rw [State.created_type] at hj'
    split at hj'
    · next hji =>
      subst hji
      exact ht'.created_lost hk hempty hc.type_ne hn.2 hs _ ((hi'.designates_iff _ _).1 hreach)
    · exact hj' hj
  · rw [State.created_type, if_pos rfl]
    exact hc.type_ne
  · rw [hi'.designates_iff]
    apply ht'.created_found hk hempty hc.type_ne hn hs hd
    cases hl : s.lookup d name.chars with
    | none => exact hl
    | some j => exact absurd (ht.of_lookup hl).2 (hfresh j (ht.of_lookup hl).1)

/-- Creations in the root at boot go through. -/
theorem createsAt_boot {c : Call} (name : CStr) {type : TypeFile} (hc : c.Creates rootName name type)
    (hn : ValidName name.chars) : c.CreatesAt (afterCalls []) name ROOT_INODE entry1 :=
  ⟨rootName, type, hc, hn, by decide +kernel, by decide +kernel, by decide +kernel⟩

/-- The file `a`, created in the root, is reached by `//a`. -/
theorem round_trip_named : ∃ s', exec (.create_file (some rootName) (some nameA)) (afterCalls []) =
      .ok ({ ret := .error .VFS_OK }, s') ∧ RoundTrip (afterCalls []) s' rootName nameA := by
  have hr := reachable_afterCalls []
  obtain ⟨tk, type, -, hex⟩ := exec_creates hr.invariant (createsAt_boot nameA .create_file (by decide))
  refine ⟨_, hex, (hr.round_trip_iff (d := ROOT_INODE) .create_file ?_ ?_ ?_ hex rfl).1.2 (by decide)⟩
  · exact (hr.invariant.designates_iff rootName _).2 (by decide +kernel)
  · decide +kernel
  · decide +kernel

/-- The file `a/b`, created in the root, is not reached by `//a/b`. -/
theorem round_trip_fails : ¬ ∀ s s' c r path name type d, Reachable s → Call.Creates c path name type →
    Designates s path d → (s.inode d).type = .FOLDER →
    (∀ j, (s.inode j).father = some d → (s.inode j).nameOf ≠ name.chars) → exec c s = .ok (r, s') →
    r.ret = .error .VFS_OK → RoundTrip s s' path name := by
  intro hall
  have hr := reachable_afterCalls []
  have hi := hr.invariant
  obtain ⟨T, ht⟩ := hi.tree
  have hcr := createsAt_boot nameAB .create_file (by decide)
  obtain ⟨tk, type, htype, hex⟩ := exec_creates hi hcr
  obtain ⟨⟨j, hj, hj', hreach⟩, -⟩ := hall _ _ _ _ _ _ _ ROOT_INODE hr .create_file
    ((hi.designates_iff rootName _).2 (by decide +kernel)) (by decide +kernel) (by decide +kernel) hex rfl
  have hempty : ((afterCalls []).inode entry1).type = .EMPTY := by decide +kernel
  rw [State.created_type] at hj'
  split at hj'
  · next hji =>
    subst hji
    exact (ht.setToken tk).created_lost ht.root hempty htype (by decide) (by decide) _
      (((hr.call hex).invariant.designates_iff _ _).1 hreach)
  · exact hj' hj

end ClbFilesystem
