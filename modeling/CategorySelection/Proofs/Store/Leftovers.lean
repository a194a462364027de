import CategorySelection.Proofs.Store.Ends
import CategorySelection.Proofs.Store.Serving
/-!
What calls on a file leave beside it. The temporary file that entries are written to is moved to the
place of the file or taken away again, but for a text with a single surrogate, whose fault is not
one of the system.
-/

namespace CategorySelection.Store.File

open Disk

/-- Files that are there afterwards were there before, with the same bytes, but for those at some
places. -/
def AddsNoFile (places : Set Location) (d d' : Disk) : Prop :=
  ∀ l bytes, l ∉ places → d'.at? l = some (.file bytes) → d.at? l = some (.file bytes)

variable {options : FileOptions} {edit : Assoc Json → Option (Assoc Json)} {p : Path}
    {d d' d'' : Disk} {o : Outcome Disk Unit} {places places' : Set Location} {changed : Assoc Json}
    {l : Location}

theorem AddsNoFile.trans (h : AddsNoFile places d d') (h' : AddsNoFile places d' d'') :
    AddsNoFile places d d'' :=
  fun l bytes hl hfile => h l bytes hl (h' l bytes hl hfile)

theorem AddsNoFile.mono (h : AddsNoFile places d d') (hsub : places ⊆ places') :
    AddsNoFile places' d d' :=
  fun l bytes hl hfile => h l bytes (fun hmem => hl (hsub hmem)) hfile

/-- What changes some places only adds files only there. -/
theorem addsNoFile_of_differsAt (h : DiffersAt places d d') : AddsNoFile places d d' := by
  intro l bytes hl hfile
  rwa [h.elsewhere l hl] at hfile

/-- Making directories adds no file. What is made is a directory. -/
theorem addsNoFile_ensure (p : Path) (d : Disk) : AddsNoFile ∅ d (Disk.ensure p d).world := by
  intro l bytes _ hfile
  rcases at?_ensure p d l with hsame | ⟨_,_,hmade⟩
  · rwa [hsame] at hfile
  · rw [hmade] at hfile
    cases hfile

/-- A change adds no file beside the file and its lock, unless it leaves its temporary file. -/
theorem Ends.beside (h : Ends p edit d o) :
    AddsNoFile {d.target p, d.target (lockPath p)} d o.world ∨
      ∃ fields changed l, kept p d = .ok fields ∧ edit fields = some changed ∧
        Leaves p changed d o l ∧
        AddsNoFile {l, d.target p, d.target (lockPath p)} d o.world := by
  cases h with
  | untouched e result world =>
    rw [world]
    exact Or.inl fun _ _ _ hfile => hfile
  | refused e named result differs =>
    exact Or.inl (addsNoFile_of_differsAt (differs.mono (Set.subset_insert _ _)))
  | idle fields named kept edited result differs =>
    exact Or.inl (addsNoFile_of_differsAt (differs.mono (Set.subset_insert _ _)))
  | done fields changed kept edited result differs => exact Or.inl (addsNoFile_of_differsAt differs)
  | left fields changed l named kept edited leaves differs =>
    have hfurther := differs.mono (Set.insert_subset_insert (Set.subset_insert (d.target p) _))
    exact Or.inr ⟨fields,changed,l,kept,edited,leaves,addsNoFile_of_differsAt hfurther⟩

/-- Making directories changes nothing that a file keeps. -/
theorem kept_ensure (p q : Path) (d : Disk) : kept p (Disk.ensure q d).world = kept p d := by
  have hcurrent := (keepsTo_ensure q d).current
  rcases at?_ensure q d (d.target p) with hsame | ⟨_,hnone,hmade⟩
  · exact kept_of_same hcurrent hsame
  · rw [kept, kept, target_congr hcurrent, hnone, hmade]

/-- A temporary file that is there after directories were made is one for the disk without them. -/
theorem Leaves.unmake {q : Path} (h : Leaves p changed (Disk.ensure q d).world o l) :
    Leaves p changed d o l := by
  have hkeeps := keepsTo_ensure q d
  obtain ⟨n,hl⟩ := h.name
  rw [target_congr hkeeps.current] at hl
  have hfree : d.at? l = none := by
    rcases at?_ensure q d l with hsame | ⟨_,hnone,_⟩
    · rw [← hsame]
      exact h.free
    · exact hnone
  exact ⟨⟨n,hl⟩,hfree,(hkeeps.taken_eq _) ▸ h.stays,hkeeps.removals ▸ h.reason⟩

/-- Whether setting or removing returns or fails, no file is added beside the file and its lock, so
every temporary file of the call is gone. There is one temporary file left just if the system
refuses to take it away after it has refused to move it, or if the changed entries hold a single
surrogate and so have no bytes. -/
theorem temporary_files_taken_away (options : FileOptions) (d : Disk) (key value : Text) :
    let p := options.path
    let own : Set Location := {d.target p, d.target (lockPath p)}
    let written := (Store.file options).set key value d
    let removed := (Store.file options).remove key d
    (AddsNoFile own d written.world ∨
      ∃ fields l, kept p d = .ok fields ∧ Leaves p (fields.put key (.string value)) d written l ∧
        AddsNoFile (insert l own) d written.world) ∧
    (AddsNoFile own d removed.world ∨
      ∃ fields l, kept p d = .ok fields ∧ fields.has key = true ∧
        Leaves p (fields.erase key) d removed l ∧
        AddsNoFile (insert l own) d removed.world) := by
  intro p own written removed
  constructor
  · have hmade := addsNoFile_ensure p.parent d
    have hends := (ends_set options key value d).beside
    rw [target_congr (keepsTo_ensure p.parent d).current,
      target_congr (keepsTo_ensure p.parent d).current, kept_ensure] at hends
    rcases hends with hnone | ⟨fields,changed,l,hkept,hedit,hleaves,hone⟩
    · exact Or.inl ((hmade.mono (Set.empty_subset _)).trans hnone)
    · obtain rfl := Option.some_inj.mp hedit
      exact Or.inr ⟨fields,l,hkept,hleaves.unmake,(hmade.mono (Set.empty_subset _)).trans hone⟩
  · rcases remove_cases options key d with ⟨_,hworld⟩ | ⟨_,hremove⟩
    · have hsame : removed.world = d := hworld
      rw [hsame]
      exact Or.inl fun _ _ _ hfile => hfile
    · have hchange : removed = change options (erasing key) d := hremove
      rw [hchange]
      rcases (ends_change options (erasing key) d).beside with
        hnone | ⟨fields,changed,l,hkept,hedit,hleaves,hone⟩
      · exact Or.inl hnone
      · refine Or.inr ⟨fields,l,hkept,?_,eq_of_erasing hedit ▸ hleaves,hone⟩
        rw [erasing] at hedit
        split_ifs at hedit with hkey
        exact hkey

/-- A value that is a single surrogate is refused, and the temporary file with the text up to it
stays, though the system moves and takes away every file. -/
theorem surrogate_leaves_temporary_file :
    ∃ (options : FileOptions) (d : Disk) (key value : Text) (e : Utf8.EncodeFault) (n : Nat),
      let l := d.target (options.path.sibling (temporaryName options.path n))
      d.refusesMoves = false ∧ d.refusesRemovals = false ∧ d.at? l = none ∧
        ((Store.file options).set key value d).result = .error (.encoding e) ∧
        (((Store.file options).set key value d).world.at? l).isSome = true := by
  refine ⟨⟨onlyPath,FileOptions.defaultPatience⟩,{},"k",[0xd800],⟨0xd800,1,2⟩,0,rfl,rfl,?_,?_,?_⟩
  · decide +kernel
  · decide +kernel
  · decide +kernel

end CategorySelection.Store.File
