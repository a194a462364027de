import CategorySelection.Proofs.Catalog.Follows
import CategorySelection.Proofs.Store.Change
/-!
What a store leaves alone. A store in a file writes the file, its lock and temporary files, and
makes the directory that they stand in; everything else on the disk stays.
-/

namespace CategorySelection

namespace Store.File

open Disk

/-- A location of none of the files of a store: neither the file itself nor its lock nor a temporary
file. -/
structure IsApart (p : Path) (l : Location) (d : Disk) : Prop where
  file : l ≠ d.target p
  lock : l ≠ d.target (lockPath p)
  temporary : ∀ n, l ≠ d.target (p.sibling (temporaryName p n))

variable {options : FileOptions} {p : Path} {d d' : Disk} {l : Location}

theorem IsApart.of_current (h : IsApart p l d) (hc : d'.current = d.current) : IsApart p l d' := by
  refine ⟨?_,?_,fun n => ?_⟩ <;> rw [target_congr hc]
  · exact h.file
  · exact h.lock
  · exact h.temporary n

/-- Moving a temporary file to its place leaves everything but the two alone. -/
theorem spares_move {place : Location} {n : Nat} {bytes : List UInt8} (hne : place ≠ l)
    (hplace : place ≠ d.target p) (hp : d.target p ≠ l) (hfree : d.at? l = none)
    (h : (withTemporary l n bytes d).move l p = .ok d') : Spares place d d' := by
  have hfilled := spares_temporary n bytes hne hfree
  obtain ⟨m,e,hlocate,_,hm,rfl⟩ := move_eq_ok h
  obtain rfl : m = d.target p := (locate_eq hlocate).trans (target_congr hfilled.current p)
  have htaken : Spares place (withTemporary l n bytes d) ((withTemporary l n bytes d).erase l) :=
    .erase hne (by rw [at?_temporary hfree]; nofun)
  have hput : ((withTemporary l n bytes d).erase l).at? (d.target p) ≠ some .directory := by
    rwa [at?_erase_ne _ hp]
  exact (hfilled.trans htaken).trans (.put hplace hput e)

/-- However writing ends, no more than a temporary file and the file itself are touched. -/
theorem spares_write (hp : p.name ≠ []) (h : IsApart p l d) (fields : Assoc Json) :
    Spares l d (write p fields d).world := by
  rcases write_steps p fields d with ⟨_,_,_,hworld⟩ | ⟨temporary,n,htemporary,hfree,hsteps⟩
  · rw [hworld]
    exact .refl l d
  have hne : l ≠ temporary := htemporary ▸ h.temporary n
  have hp' : d.target p ≠ temporary := htemporary ▸ target_ne_temporary hp d n
  have hspares :=
    spares_temporary n (d.taken (encodeChunks (Json.pageChunks (.object fields))).1) hne hfree
  rcases hsteps with ⟨_,_,_,hworld⟩ | ⟨_,_,hmove⟩ | ⟨_,_,hremove | ⟨_,_,hworld⟩⟩
  · rwa [hworld]
  · exact spares_move hne h.file hp' hfree hmove
  · exact spares_remove hne hfree hremove
  · rwa [hworld]

/-- A change leaves alone what is apart from its files. Paths lead where they led before, so the
location is apart under the lock as well. -/
theorem spares_change (h : IsApart options.path l d) (edit : Assoc Json → Option (Assoc Json)) :
    Spares l d (change options edit d).world := by
  rcases change_under_lock options edit d with ⟨_,_,_,hworld⟩ | ⟨hp,d₁,hlocks,hsteps⟩
  · rw [hworld]
    exact .refl l d
  have hspares := hlocks.spares h.lock
  rcases hsteps with ⟨_,_,_,hworld⟩ | hdone
  · rwa [hworld]
  rw [hdone]
  split
  · exact hspares
  · next fields _ =>
    cases edit fields with
    | none => exact hspares
    | some changed =>
      exact hspares.trans (spares_write hp.named (h.of_current hspares.current) changed)

/-- Setting leaves alone what is apart; a path that the system cannot take is not followed at
all. -/
theorem spares_set (h : IsApart options.path l d) (key value : Text) :
    Spares l d (set options key value d).world := by
  have hmade : Spares l d (Disk.ensure options.path.parent d).world := by
    cases hcheck : checkPath options.path.parent with
    | error e =>
      rw [Disk.ensure, hcheck]
      exact .refl l d
    | ok u => exact (makesDirectories_ensure hcheck d).1 l
  rw [set_eq, Action.bind_apply]
  rcases hensure : Disk.ensure options.path.parent d with ⟨e | u,d₁,log⟩ <;> rw [hensure] at hmade
  · exact hmade
  · have hchanged := spares_change (h.of_current hmade.current)
      fun fields => some (fields.put key (.string value))
    exact hmade.trans hchanged

theorem spares_removing (h : IsApart options.path l d) (key : Text) :
    Spares l d (remove options key d).world := by
  rw [remove_eq, Action.bind_apply, Action.world_apply]
  dsimp only
  rw [Action.bind_apply, Action.ofExcept_apply]
  cases (d.has options.path).mapError Fault.system with
  | error e => exact .refl l d
  | ok there =>
    cases there with
    | false => exact .refl l d
    | true => exact spares_change h _

def Spared (l : Location) (d₀ : Disk) (_ : Nat) (d d' : Disk) : Prop := d = d' ∧ Spares l d₀ d

/-- A store in a file leaves what is apart from its files alone, call by call. It follows itself, so
that only the location is left to be looked at. -/
theorem follows_spared (options : FileOptions) (h : IsApart options.path l d) (key : Text) :
    (Store.file options).Follows (Spared l d) key (Store.file options) where
  room := fun _ _ _ _ _ hst => hst
  get := by
    rintro room s t ⟨rfl,hs⟩
    refine ⟨rfl,rfl,?_⟩
    change Spares l d (get options key s).world
    rw [get, Action.bind_apply, Action.ofExcept_apply]
    cases checkPath options.path with
    | error e => exact hs
    | ok u => exact hs
  set := by
    rintro names room s t ⟨rfl,hs⟩
    exact ⟨rfl,rfl,hs.trans (spares_set (h.of_current hs.current) key _)⟩
  remove := by
    rintro room s t ⟨rfl,hs⟩
    exact ⟨rfl,rfl,hs.trans (spares_removing (h.of_current hs.current) key)⟩

end Store.File

/-- Loading a catalog in a file leaves what is apart from its files alone. -/
theorem Catalog.spares_load {options : Store.FileOptions} {l : Location} {d : Disk}
    (h : Store.File.IsApart options.path l d) (key : Text) (seeds : List Text) :
    Disk.Spares l d (Catalog.load ⟨Store.file options,key,seeds⟩ d).world := by
  have hload := (Store.File.follows_spared options h key).load seeds 0 d d ⟨rfl,.refl l d⟩
  exact hload.2.2

end CategorySelection
