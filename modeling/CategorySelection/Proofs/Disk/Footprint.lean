import CategorySelection.Proofs.Disk.Follow
import Mathlib.Data.Set.Insert
/-!
Footprints. What an action may change on a disk is told by the places it can reach; at every other
place there is afterwards what was there before. Making the directories of a path reaches the places
on its way only.
-/

namespace CategorySelection

namespace Disk

structure DiffersAt (places : Set Location) (d d' : Disk) : Prop where
  current : d'.current = d.current
  removals : d'.refusesRemovals = d.refusesRemovals
  room : d'.room = d.room
  elsewhere : ∀ l, l ∉ places → d'.at? l = d.at? l

variable {d d' d'' : Disk} {p q : Path} {l : Location}

namespace DiffersAt

variable {places places' : Set Location}

theorem refl (places : Set Location) (d : Disk) :
    DiffersAt places d d := ⟨rfl,rfl,rfl,fun _ _ => rfl⟩

theorem mono (h : DiffersAt places d d') (hsub : places ⊆ places') : DiffersAt places' d d' :=
  ⟨h.current,h.removals,h.room,fun l hl => h.elsewhere l fun hmem => hl (hsub hmem)⟩

theorem of_mem (h : DiffersAt {l} d d') (hl : l ∈ places) : DiffersAt places d d' :=
  h.mono (Set.singleton_subset_iff.mpr hl)

/-- Two changes at some places are one change at these places. -/
theorem trans (h : DiffersAt places d d') (h' : DiffersAt places d' d'') :
    DiffersAt places d d'' := by
  refine ⟨h'.current.trans h.current,h'.removals.trans h.removals,h'.room.trans h.room,?_⟩
  intro l hl
  rw [h'.elsewhere l hl, h.elsewhere l hl]

/-- A change of places does not touch the room for bytes. -/
theorem taken_eq (h : DiffersAt places d d') (bytes : List UInt8) :
    d'.taken bytes = d.taken bytes := by
  rw [taken, taken, h.room]

/-- Putting something changes the disk at its place alone. -/
theorem put (l : Location) (e : Entry) (d : Disk) : DiffersAt {l} d (d.put l e) :=
  ⟨rfl,rfl,rfl,fun _ hother => at?_put_ne e d hother⟩

theorem erase (l : Location) (d : Disk) : DiffersAt {l} d (d.erase l) :=
  ⟨rfl,rfl,rfl,fun _ hother => at?_erase_ne d hother⟩

/-- Where there was nothing and is nothing again, there is no difference. -/
theorem of_gone (h : DiffersAt (insert l places) d d') (hfree : d.at? l = none)
    (hgone : d'.at? l = none) :
    DiffersAt places d d' := by
  refine ⟨h.current,h.removals,h.room,fun m hm => ?_⟩
  by_cases hml : m = l
  · rw [hml, hfree, hgone]
  · exact h.elsewhere m fun hmem => hm (hmem.resolve_left hml)

end DiffersAt

/-- The places on the way along a path: those that its first parts lead to, and its own. -/
def way (d : Disk) (p : Path) : Set Location :=
  { l | ∃ parts, parts <+: p.parts ∧ d.target ⟨p.root,parts⟩ = l }

/-- The way along a path is told by the current directory alone. -/
theorem way_congr (hc : d'.current = d.current) (p : Path) : d'.way p = d.way p := by
  simp only [way, target_congr hc]

def KeepsTo {α : Type} (p : Path) (x : Action Disk α) : Prop :=
  ∀ d, DiffersAt (d.way p) d (x d).world

theorem keepsTo_of_world {α : Type} {x : Action Disk α} (h : ∀ d, (x d).world = d) :
    KeepsTo p x := by
  intro d
  rw [h d]
  exact .refl _ d

/-- Two steps that keep to the way along a path do so together, for the way is the same after the
first one. -/
theorem keepsTo_bind {α β : Type} {x : Action Disk α} {f : α → Action Disk β} (hx : KeepsTo p x)
    (hf : ∀ a, KeepsTo p (f a)) : KeepsTo p (x >>= f) := by
  intro d
  have hfirst := hx d
  rcases hxd : x d with ⟨e | a,d',log⟩ <;> rw [Action.bind_apply, hxd] <;> rw [hxd] at hfirst
  · exact hfirst
  · have hsecond := hf a d'
    rw [way_congr hfirst.current] at hsecond
    exact hfirst.trans hsecond

/-- Making a directory on the way keeps to it, as the one place that changes is the end of the
shorter path. -/
theorem keepsTo_make (hroot : q.root = p.root) (hparts : q.parts <+: p.parts)
    {f : SystemFault → Action Disk Unit} (hf : ∀ e, KeepsTo p (f e)) : KeepsTo p (do
      match (← Action.world).makeDirectory q with
      | .ok d => Action.setWorld d
      | .error e => f e) := by
  intro d
  rw [Action.bind_apply, Action.world_apply]
  dsimp only
  cases hmake : d.makeDirectory q with
  | error e => exact hf e d
  | ok d' =>
    obtain ⟨_,rfl⟩ := makeDirectory_eq_ok hmake
    have hway : d.target q ∈ d.way p := ⟨q.parts,hparts,by rw [← hroot]⟩
    exact (DiffersAt.put (d.target q) .directory d).of_mem hway

theorem keepsTo_at (hroot : q.root = p.root) (hparts : q.parts <+: p.parts) :
    KeepsTo p (ensureDirectoryAt q) := by
  intro d
  refine keepsTo_make hroot hparts (f := fun e =>
    if e.cause = .missing then Action.fail (.system e)
    else do
      if ← Action.ofExcept ((d.hasDirectory q).mapError .system) then return ()
      else Action.fail (.system e)) ?_ d
  intro e
  split_ifs
  · exact keepsTo_of_world fun _ => rfl
  · refine keepsTo_bind (keepsTo_of_world fun _ => rfl) fun there => keepsTo_of_world fun d' => ?_
    cases there <;> rfl

/-- By induction on the parts: the directories above stand on the same way. -/
theorem keepsTo_reversed (reversed : List Text) (h : reversed.reverse <+: p.parts) :
    KeepsTo p (ensureDirectory p.root reversed) := by
  induction reversed with
  | nil => exact keepsTo_at rfl h
  | cons name above ih =>
    have habove : above.reverse <+: p.parts := by
      rw [List.reverse_cons] at h
      exact (List.prefix_append _ _).trans h
    refine keepsTo_make (p := p) (q := ⟨p.root,(name :: above).reverse⟩) rfl h fun e => ?_
    split_ifs
    · exact keepsTo_bind (ih habove) fun _ => keepsTo_at rfl h
    · exact keepsTo_at rfl h

/-- Making the directories of a path keeps to the way along it. -/
theorem keepsTo_ensure (p : Path) : KeepsTo p (ensure p) := by
  have hwhole : p.parts.reverse.reverse <+: p.parts :=
    ⟨[],by rw [List.reverse_reverse, List.append_nil]⟩
  exact keepsTo_bind (keepsTo_of_world fun _ => rfl) fun _ => keepsTo_reversed _ hwhole

/-- Making the directories of a path leaves each place as it was, but for those on the way where
there was nothing. One lemma tells what can come to a place, and the footprint tells to which
places. -/
theorem at?_ensure (p : Path) (d : Disk) (l : Location) :
    (ensure p d).world.at? l = d.at? l ∨
      (l ∈ d.way p ∧ d.at? l = none ∧ (ensure p d).world.at? l = some .directory) := by
  cases hcheck : checkPath p with
  | error e =>
    rw [ensure, hcheck]
    exact Or.inl rfl
  | ok u =>
    rcases ((makesDirectories_ensure hcheck d).1 l).place with hsame | ⟨hnone,hmade⟩
    · exact Or.inl hsame
    · by_cases hway : l ∈ d.way p
      · exact Or.inr ⟨hway,hnone,hmade⟩
      · exact Or.inl ((keepsTo_ensure p d).elsewhere l hway)

/-- Without going up, each name leads one place further down. -/
theorem size_foldl_step {names : List Text} (h : Text.ofString ".." ∉ names) (l : Location) :
    (names.foldl step l).size = l.size+names.length := by
  induction names generalizing l with
  | nil => rfl
  | cons name rest ih =>
    rw [List.mem_cons, not_or] at h
    rw [List.foldl_cons, ih h.2, step, if_neg (Ne.symm h.1), Array.size_push, List.length_cons]
    omega

/-- Only a path that goes up again passes its own place. Without going up, each part of a path leads
one place further down from the same start. -/
theorem two_dots_of_mem_way (h : d.target p ∈ d.way p.parent) :
    p.parts = [] ∨ Text.ofString ".." ∈ p.parts := by
  obtain ⟨parts,hparts,htarget⟩ := h
  by_contra hdown
  rw [not_or] at hdown
  obtain ⟨hne,hdown⟩ := hdown
  let start : Location := if p.root.isEmpty then d.current else #[]
  have hstart (names : List Text) : d.target ⟨p.root,names⟩ = names.foldl step start := rfl
  have hup : Text.ofString ".." ∉ parts := fun hmem =>
    hdown ((List.dropLast_prefix p.parts).subset (hparts.subset hmem))
  have hsize : start.size+parts.length = start.size+p.parts.length := by
    rw [← size_foldl_step hup, ← size_foldl_step hdown, ← hstart, ← hstart]
    exact congrArg Array.size htarget
  have hlength : parts.length ≤ p.parts.dropLast.length := hparts.length_le
  have hpos := List.length_pos_iff.mpr hne
  rw [List.length_dropLast] at hlength
  omega

end Disk

end CategorySelection
