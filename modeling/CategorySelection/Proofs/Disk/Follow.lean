import CategorySelection.Disk
import CategorySelection.Proofs.Action
import Mathlib.Data.List.Basic
import Mathlib.Logic.Basic
/-!
Where paths lead. The location that a path leads to is told by its names alone; what is on the disk
only tells whether it can be followed. So a path goes on leading where it led as long as the
directories stay.
-/

namespace CategorySelection

namespace Disk

section At

variable {l other : Location}

theorem find?_filter_ne (h : other ≠ l) (entries : List (Location × Entry)) :
    (entries.filter (·.1 ≠ l)).find? (·.1 = other) = entries.find? (·.1 = other) := by
  rw [List.find?_filter]
  congr 1
  funext entry
  simp only [decide_eq_true_eq]
  refine decide_eq_decide.mpr ⟨And.right,?_⟩
  rintro rfl
  exact ⟨h,rfl⟩

theorem at?_put_self (e : Entry) (d : Disk) (h : l ≠ #[]) : (d.put l e).at? l = some e := by
  have hne : l.isEmpty = false := by simpa using h
  rw [at?, put, hne, List.find?_cons_of_pos (by simp)]
  rfl

theorem at?_put_ne (e : Entry) (d : Disk) (h : other ≠ l) :
    (d.put l e).at? other = d.at? other := by
  rw [at?, at?, put, List.find?_cons_of_neg (by simpa using h.symm), find?_filter_ne h]

/-- What is put somewhere takes the place of what was put there before. -/
theorem put_put (l : Location) (e e' : Entry) (d : Disk) : (d.put l e).put l e' = d.put l e' := by
  have hfilter : (d.put l e).entries.filter (·.1 ≠ l) = d.entries.filter (·.1 ≠ l) := by
    rw [put, List.filter_cons_of_neg (by simp), List.filter_filter]
    simp only [Bool.and_self]
  rw [put, hfilter]
  rfl

theorem at?_erase_ne (d : Disk) (h : other ≠ l) : (d.erase l).at? other = d.at? other := by
  rw [at?, at?, erase, find?_filter_ne h]

theorem at?_erase_self (d : Disk) (h : l ≠ #[]) : (d.erase l).at? l = none := by
  have hne : l.isEmpty = false := by simpa using h
  rw [at?, erase, hne, List.find?_eq_none.mpr]
  · rfl
  · intro entry hentry
    have hne := (List.mem_filter.mp hentry).2
    rwa [decide_eq_true_eq] at hne ⊢

theorem ne_top_of_free {d : Disk} (h : d.at? l = none) : l ≠ #[] := by
  rintro rfl
  cases h

theorem ne_top {d : Disk} (h : d.at? l ≠ some .directory) : l ≠ #[] := by
  rintro rfl
  exact h rfl

end At

variable {d d' d'' : Disk} {p : Path}

/-- Names that can be followed lead where stepping along them leads. -/
theorem follow_eq {l r : Location} {names : List Text} (h : d.follow l names = .ok r) :
    r = names.foldl step l := by
  induction names generalizing l with
  | nil => exact (Except.ok.inj h).symm
  | cons name rest ih =>
    rw [follow] at h
    split at h
    · cases h
    · cases h
    split_ifs at h with hlong hup
    · rw [ih h, List.foldl_cons, step, if_pos hup]
    · rw [ih h, List.foldl_cons, step, if_neg hup]

/-- More directories lead no path elsewhere. -/
theorem follow_mono (hd : ∀ l, d.at? l = some .directory → d'.at? l = some .directory)
    {l r : Location} {names : List Text} (h : d.follow l names = .ok r) :
    d'.follow l names = .ok r := by
  induction names generalizing l with
  | nil => exact h
  | cons name rest ih =>
    rw [follow] at h ⊢
    split at h
    · cases h
    · cases h
    · next hl =>
      rw [hd l hl]
      dsimp only
      split_ifs at h ⊢ with hlong hup
      · exact ih h
      · exact ih h

theorem locate_eq {l : Location} (h : d.locate p = .ok l) : l = d.target p := by
  rw [locate] at h
  split at h
  · cases h
  · exact follow_eq h

/-- A path that can be followed leads to the same place on a disk with more directories. -/
theorem locate_mono (hc : d'.current = d.current)
    (hd : ∀ l, d.at? l = some .directory → d'.at? l = some .directory) {l : Location}
    (h : d.locate p = .ok l) : d'.locate p = .ok l := by
  rw [locate] at h ⊢
  rw [hc]
  split at h
  · cases h
  · next hshort =>
    rw [if_neg hshort]
    exact follow_mono hd h

/-- The target of a path is told by the current directory alone. -/
theorem target_congr (hc : d'.current = d.current) (p : Path) : d'.target p = d.target p := by
  rw [target, target, hc]

theorem find_of_locate {l : Location} (h : d.locate p = .ok l) :
    d.find p = match d.at? l with
      | none => .error .missing
      | some e => .ok (l,e) := by
  rw [find, h]
  rfl

/-- What is found at the end of a path is what is at its location. -/
theorem locate_of_find {l : Location} {e : Entry} (h : d.find p = .ok (l,e)) :
    d.locate p = .ok l ∧ d.at? l = some e := by
  cases hl : d.locate p with
  | error cause =>
    rw [find, hl] at h
    cases h
  | ok found =>
    rw [find_of_locate hl] at h
    split at h
    · cases h
    · next hat =>
      obtain ⟨rfl,rfl⟩ := Prod.mk.inj (Except.ok.inj h)
      exact ⟨rfl,hat⟩

/-- What is done at the end of a path is done where its names lead. -/
theorem located_of_naming {α : Type} {a : α} {f : Location → Except SystemCause α}
    (h : naming p (d.locate p >>= f) = .ok a) :
    d.locate p = .ok (d.target p) ∧ f (d.target p) = .ok a := by
  cases hlocate : d.locate p with
  | error cause =>
    rw [hlocate] at h
    cases h
  | ok l =>
    rw [hlocate] at h
    obtain rfl := locate_eq hlocate
    dsimp only [bind, Except.bind, naming] at h
    cases hf : f (d.target p) with
    | error cause =>
      rw [hf] at h
      cases h
    | ok b =>
      rw [hf] at h
      exact ⟨rfl,congrArg Except.ok (Except.ok.inj h)⟩

theorem makeDirectory_eq_ok (h : d.makeDirectory p = .ok d') :
    d.at? (d.target p) = none ∧ d' = d.put (d.target p) .directory := by
  obtain ⟨_,hmade⟩ := located_of_naming h
  split at hmade
  · cases hmade
  · next hnone => exact ⟨hnone,(Except.ok.inj hmade).symm⟩

/-- What leaves a location alone: the directories stay, and there is at the location what was there,
or a directory where there was nothing. -/
structure Spares (l : Location) (d d' : Disk) : Prop where
  current : d'.current = d.current
  directories : ∀ m, d.at? m = some .directory → d'.at? m = some .directory
  place : d'.at? l = d.at? l ∨ (d.at? l = none ∧ d'.at? l = some .directory)

namespace Spares

variable {l m : Location}

theorem refl (l : Location) (d : Disk) : Spares l d d := ⟨rfl,fun _ h => h,Or.inl rfl⟩

theorem trans (h : Spares l d d') (h' : Spares l d' d'') : Spares l d d'' := by
  refine ⟨h'.current.trans h.current,fun m hm => h'.directories m (h.directories m hm),?_⟩
  rcases h.place with hsame | ⟨hnone,hmade⟩
  · rw [← hsame]
    exact h'.place
  · exact Or.inr ⟨hnone,h'.directories l hmade⟩

/-- Putting something where no directory is leaves other locations alone. -/
theorem put (hne : l ≠ m) (hm : d.at? m ≠ some .directory) (e : Entry) :
    Spares l d (d.put m e) := by
  refine ⟨rfl,?_,Or.inl (at?_put_ne e d hne)⟩
  intro other hother
  have hdiffers : other ≠ m := by
    rintro rfl
    exact hm hother
  rwa [at?_put_ne e d hdiffers]

theorem erase (hne : l ≠ m) (hm : d.at? m ≠ some .directory) : Spares l d (d.erase m) := by
  refine ⟨rfl,?_,Or.inl (at?_erase_ne d hne)⟩
  intro other hother
  have hdiffers : other ≠ m := by
    rintro rfl
    exact hm hother
  rwa [at?_erase_ne d hdiffers]

/-- Making a directory leaves every location alone. It may be made at the location itself, which was
free then. -/
theorem makeDirectory (l : Location) (h : d.makeDirectory p = .ok d') : Spares l d d' := by
  obtain ⟨hnone,rfl⟩ := makeDirectory_eq_ok h
  have hfree : d.at? (d.target p) ≠ some .directory := by
    rw [hnone]
    nofun
  by_cases hne : l = d.target p
  · rw [← hne] at hnone hfree ⊢
    have htop : l ≠ #[] := ne_top hfree
    exact ⟨rfl,(put (l := #[]) htop.symm hfree .directory).directories,
      Or.inr ⟨hnone,at?_put_self _ d htop⟩⟩
  · exact put hne hfree .directory

end Spares

def MakesDirectories {α : Type} (x : Action Disk α) : Prop :=
  ∀ d, (∀ l, Spares l d (x d).world) ∧ ∀ e, (x d).result = .error e → ∃ f, e = .system f

/-- Two steps that at most make directories make at most directories. -/
theorem makesDirectories_bind {α β : Type} {x : Action Disk α} {f : α → Action Disk β}
    (hx : MakesDirectories x) (hf : ∀ a, MakesDirectories (f a)) : MakesDirectories (x >>= f) := by
  intro d
  obtain ⟨hspares,hfails⟩ := hx d
  rcases hxd : x d with ⟨e | a,d',log⟩ <;> rw [Action.bind_apply, hxd] <;>
    rw [hxd] at hspares hfails
  · exact ⟨hspares,fun fault hfault => hfails fault (congrArg _ (Except.error.inj hfault))⟩
  · obtain ⟨hspares',hfails'⟩ := hf a d'
    exact ⟨fun l => (hspares l).trans (hspares' l),hfails'⟩

theorem makesDirectories_fail {α : Type} (e : SystemFault) :
    MakesDirectories (Action.fail (.system e) : Action Disk α) :=
  fun d => ⟨fun l => .refl l d,fun _ he => ⟨e,(Except.error.inj he).symm⟩⟩

/-- Where a directory was made, that is all; where it was not, the disk is as before. -/
theorem makesDirectories_make {p : Path} {f : SystemFault → Action Disk Unit}
    (hf : ∀ e, MakesDirectories (f e)) : MakesDirectories (do
      match (← Action.world).makeDirectory p with
      | .ok d => Action.setWorld d
      | .error e => f e) := by
  intro d
  rw [Action.bind_apply, Action.world_apply]
  dsimp only
  cases hmake : d.makeDirectory p with
  | ok d' => exact ⟨fun l => .makeDirectory l hmake,nofun⟩
  | error e => exact hf e d

/-- Making the directory of a path makes at most directories. -/
theorem makesDirectories_at (p : Path) : MakesDirectories (ensureDirectoryAt p) := by
  intro d
  refine makesDirectories_make (p := p) (f := fun e =>
    if e.cause = .missing then Action.fail (.system e)
    else do
      if ← Action.ofExcept ((d.hasDirectory p).mapError .system) then return ()
      else Action.fail (.system e)) ?_ d
  intro e
  split_ifs
  · exact makesDirectories_fail e
  · refine makesDirectories_bind ?_ ?_
    · intro d'
      refine ⟨fun l => .refl l d',?_⟩
      intro fault hfault
      rw [Action.ofExcept_apply] at hfault
      cases hhas : d.hasDirectory p with
      | ok there =>
        rw [hhas] at hfault
        cases hfault
      | error cause =>
        rw [hhas] at hfault
        exact ⟨cause,(Except.error.inj hfault).symm⟩
    · intro there
      cases there
      · exact makesDirectories_fail e
      · exact fun d' => ⟨fun l => .refl l d',nofun⟩

/-- By induction on the parts: the directories above are made in the same way. -/
theorem makesDirectories_reversed (root : Text) (reversed : List Text) :
    MakesDirectories (ensureDirectory root reversed) := by
  induction reversed with
  | nil => exact makesDirectories_at _
  | cons name above ih =>
    refine makesDirectories_make fun e => ?_
    split_ifs
    · exact makesDirectories_bind ih fun _ => makesDirectories_at _
    · exact makesDirectories_at _

/-- Making the directories of a path that the system can take. -/
theorem makesDirectories_ensure (hp : checkPath p = .ok ()) : MakesDirectories (ensure p) := by
  refine makesDirectories_bind ?_ fun _ => makesDirectories_reversed _ _
  rw [hp]
  exact fun d => ⟨fun l => .refl l d,nofun⟩

end Disk

end CategorySelection
