import CategorySelection.Proofs.Store.Ends
import CategorySelection.Proofs.Store.Serving
/-!
Calls that change nothing. A call on a file that is refused leaves the file as it was, wherever it
was stopped: only a file that was written whole is ever moved to its place. The same holds of a call
that has nothing to take away.
-/

namespace CategorySelection.Store.File

open Disk

variable {options : FileOptions} {edit : Assoc Json → Option (Assoc Json)} {p : Path} {d : Disk}
  {o : Outcome Disk Unit} {fields : Assoc Json} {key value : Text}

/-- The place of a file changes only if the change of its entries is done. -/
theorem Ends.place (h : Ends p edit d o) :
    o.world.at? (d.target p) = d.at? (d.target p) ∨
      (o.result = .ok () ∧ ∃ fields changed, kept p d = .ok fields ∧
        edit fields = some changed) := by
  cases h with
  | untouched e result world =>
    rw [world]
    exact Or.inl rfl
  | refused e named result differs => exact Or.inl (differs.elsewhere _ (target_ne_lock named d))
  | idle fields named kept edited result differs =>
    exact Or.inl (differs.elsewhere _ (target_ne_lock named d))
  | done fields changed kept edited result differs =>
    exact Or.inr ⟨result,fields,changed,kept,edited⟩
  | left fields changed l named kept edited leaves differs =>
    obtain ⟨n,rfl⟩ := leaves.name
    refine Or.inl (differs.elsewhere _ ?_)
    rintro (htemporary | hlock)
    · exact target_ne_temporary named d n htemporary
    · exact target_ne_lock named d hlock

theorem find_of_has (h : d.has p = .ok true) : ∃ found, d.find p = .ok found := by
  rw [Disk.has, look] at h
  split at h
  · cases h
  · next l e _ hfind => exact ⟨_,hfind⟩
  all_goals cases h

/-- Removing an entry leaves the place of the file as it was, or it is done and there were
entries. -/
theorem remove_place (options : FileOptions) (key : Text) (d : Disk) :
    (remove options key d).world.at? (d.target options.path) = d.at? (d.target options.path) ∨
      ((remove options key d).result = .ok () ∧ d.has options.path = .ok true ∧
        ∃ fields, kept options.path d = .ok fields ∧ fields.has key = true) := by
  rcases remove_cases options key d with ⟨_,hworld⟩ | ⟨hhas,hremove⟩
  · rw [hworld]
    exact Or.inl rfl
  rw [hremove]
  rcases (ends_change options (erasing key) d).place
    with hsame | ⟨hresult,fields,changed,hkept,hedit⟩
  · exact Or.inl hsame
  · refine Or.inr ⟨hresult,hhas,fields,hkept,?_⟩
    rw [erasing] at hedit
    split_ifs at hedit with hkey
    exact hkey

/-- To set an entry, directories are made first, and then the file is as it was unless all is
done. -/
theorem set_place (options : FileOptions) (key value : Text) (d : Disk) :
    let place := d.target options.path
    let d' := (set options key value d).world
    d'.at? place = d.at? place ∨
      (place ∈ d.way options.path.parent ∧ d.at? place = none ∧ d'.at? place = some .directory) ∨
      (set options key value d).result = .ok () := by
  intro place d'
  have hcurrent := (keepsTo_ensure options.path.parent d).current
  have hplace := (ends_set options key value d).place
  rw [target_congr hcurrent] at hplace
  rcases hplace with hsame | ⟨hresult,_⟩
  · rcases at?_ensure options.path.parent d place with hmade | ⟨hway,hnone,hmade⟩
    · exact Or.inl (hsame.trans hmade)
    · exact Or.inr (Or.inl ⟨hway,hnone,hsame.trans hmade⟩)
  · exact Or.inr (Or.inr hresult)

/-- A call that is refused leaves the file as it was or missing, and so does removing an entry that
is not there; removing from a file that is missing changes nothing at all. The one exception is a
path that goes up again and passes the missing file's own place on its way: the directory that
setting makes there stays. -/
theorem refused_call_keeps_file (options : FileOptions) (d : Disk) (key value : Text) :
    let p := options.path
    let place := d.target p
    (∀ e, ((Store.file options).set key value d).result = .error e →
      let d' := ((Store.file options).set key value d).world
      d'.at? place = d.at? place ∨
        (place ∈ d.way p.parent ∧ (p.parts ≠ [] → Text.ofString ".." ∈ p.parts) ∧
          d.at? place = none ∧ d'.at? place = some .directory)) ∧
    (∀ e, ((Store.file options).remove key d).result = .error e →
      ((Store.file options).remove key d).world.at? place = d.at? place) ∧
    (∀ fields, entries d p = .ok fields → fields.has key = false →
      ((Store.file options).remove key d).world.at? place = d.at? place) ∧
    ((∀ found, d.find p ≠ .ok found) → ((Store.file options).remove key d).world = d) := by
  intro p place
  refine ⟨fun e he => ?_,fun e he => ?_,fun fields hentries hkey => ?_,fun hmissing => ?_⟩
  · rcases set_place options key value d with hsame | ⟨hway,hnone,hmade⟩ | hdone
    · exact Or.inl hsame
    · exact Or.inr ⟨hway,(two_dots_of_mem_way hway).resolve_left,hnone,hmade⟩
    · rw [Store.file, hdone] at he
      cases he
  · rcases remove_place options key d with hsame | ⟨hdone,_⟩
    · exact hsame
    · rw [Store.file, hdone] at he
      cases he
  · rcases remove_place options key d with hsame | ⟨_,hhas,fields',hkept,hkey'⟩
    · exact hsame
    obtain ⟨⟨l,e⟩,hfind⟩ := find_of_has hhas
    obtain ⟨hlocate,_⟩ := locate_of_find hfind
    have hkept' := kept_of_entries (by rw [hlocate, locate_eq hlocate]) hentries
    obtain rfl := Except.ok.inj (hkept.symm.trans hkept')
    rw [hkey] at hkey'
    cases hkey'
  · rcases remove_cases options key d with ⟨_,hworld⟩ | ⟨hhas,_⟩
    · exact hworld
    · obtain ⟨found,hfind⟩ := find_of_has hhas
      exact absurd hfind (hmissing found)

/-- A blank file whose lock somebody else holds: neither call gets at it, and once the lock is free
there is nothing to remove. -/
theorem refused_call_keeps_file_of_held :
    let options : FileOptions := ⟨onlyPath,FileOptions.defaultPatience⟩
    let free := onlyFile [0x20]
    let d : Disk := { free with held := [#[Text.ofString "notes.json.lock"]] }
    let fault : Fault := .storage (.lockHeld "notes.json" "5.0")
    (((Store.file options).set "k" "v" d).result = .error fault ∧
      ((Store.file options).set "k" "v" d).world.at? #[Text.ofString "notes.json"] =
        some (.file [0x20])) ∧
    (((Store.file options).remove "k" d).result = .error fault ∧
      ((Store.file options).remove "k" d).world.at? #[Text.ofString "notes.json"] =
        some (.file [0x20])) ∧
    (entries free options.path = .ok [] ∧
      ((Store.file options).remove "k" free).world.at? #[Text.ofString "notes.json"] =
        some (.file [0x20])) ∧
    ((∀ found, Disk.find {} options.path ≠ .ok found) ∧ ((Store.file options).remove "k" {}).world =
      {}) := by
  intro options free d fault
  have hset : ((Store.file options).set "k" "v" d).result = .error fault := by decide +kernel
  have hremove : ((Store.file options).remove "k" d).result = .error fault := by decide +kernel
  have hentries : entries free options.path = .ok [] := by cbv
  have hfind : Disk.find {} onlyPath = .error .missing := rfl
  have hmissing (found : Location × Entry) : Disk.find {} options.path ≠ .ok found := by
    intro h
    rw [hfind] at h
    cases h
  obtain ⟨hkeeps,hkeeps',_,_⟩ := refused_call_keeps_file options d "k" "v"
  obtain ⟨_,_,hnothing,_⟩ := refused_call_keeps_file options free "k" "v"
  obtain ⟨_,_,_,hstill⟩ := refused_call_keeps_file options {} "k" "v"
  refine ⟨⟨hset,?_⟩,⟨hremove,hkeeps' _ hremove⟩,⟨hentries,hnothing [] hentries rfl⟩,hmissing,
    hstill hmissing⟩
  rcases hkeeps _ hset with hsame | ⟨_,_,hnone,_⟩
  · exact hsame
  · cases hnone

/-- On a path that goes back up over the place of its missing file, the call that is refused leaves
a directory there. -/
theorem refused_call_makes_directory :
    ∃ (options : FileOptions) (d : Disk) (key value : Text) (e : Fault),
      ((Store.file options).set key value d).result = .error e ∧
        d.at? (d.target options.path) = none ∧
        ((Store.file options).set key value d).world.at? (d.target options.path) =
          some .directory := by
  refine ⟨⟨⟨[],["x","..","x"]⟩,FileOptions.defaultPatience⟩,{},"k","v",
    .storage (.unreadable "x/../x" (.system ⟨.isDirectory,some "x/../x",none⟩)),?_,?_,?_⟩
  · decide +kernel
  · decide
  · decide +kernel

end CategorySelection.Store.File
