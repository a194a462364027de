import CategorySelection.Proofs.Store.Change
import Mathlib.Data.List.Permutation
import Mathlib.Tactic.IntervalCases
/-!
Disks that serve a file. Where the directory is there, the lock is free, and the lock and the
temporary files can be opened, no call on the file is refused, and the disk goes on serving it.
-/

namespace CategorySelection

namespace Disk

variable {d d' : Disk} {p : Path} {l m : Location}

/-- Files make no directories, and directories are not taken for files. -/
theorem directory_put_iff (hm : d.at? m ≠ some .directory) (bytes : List UInt8) (l : Location) :
    (d.put m (.file bytes)).at? l = some .directory ↔ d.at? l = some .directory := by
  by_cases hl : l = m
  · subst hl
    rw [at?_put_self _ d (ne_top hm)]
    exact iff_of_false nofun hm
  · rw [at?_put_ne _ d hl]

theorem directory_erase_iff (hm : d.at? m ≠ some .directory) (l : Location) :
    (d.erase m).at? l = some .directory ↔ d.at? l = some .directory := by
  by_cases hl : l = m
  · subst hl
    rw [at?_erase_self d (ne_top hm)]
    exact iff_of_false nofun hm
  · rw [at?_erase_ne d hl]

def CanOpen (d : Disk) (p : Path) : Prop :=
  d.locate p = .ok (d.target p) ∧ d.at? (d.target p) ≠ some .directory

theorem openEmpty_of_canOpen (h : d.CanOpen p) :
    d.openEmpty p = .ok (d.target p,d.put (d.target p) (.file [])) := by
  rw [openEmpty, h.1]
  dsimp only [bind, Except.bind, naming]
  split
  · next hdirectory => exact absurd hdirectory h.2
  · rfl

theorem canOpen_of_openEmpty (h : d.openEmpty p = .ok (l,d')) : d.CanOpen p := by
  obtain ⟨rfl,hfree,_⟩ := openEmpty_eq_ok h
  exact ⟨(located_of_naming h).1,hfree⟩

/-- What cannot be opened for writing is refused by the system for one cause or another. -/
theorem openEmpty_of_not_canOpen (h : ¬d.CanOpen p) : ∃ why, d.openEmpty p = .error why := by
  cases hopen : d.openEmpty p with
  | error why => exact ⟨why,rfl⟩
  | ok opened => exact absurd (canOpen_of_openEmpty hopen) h

/-- What can be opened can be opened on every disk with the same directories. -/
theorem CanOpen.mono (h : d.CanOpen p) (hcurrent : d'.current = d.current)
    (hdirectories : ∀ l, d'.at? l = some .directory ↔ d.at? l = some .directory) :
    d'.CanOpen p := by
  rw [CanOpen, target_congr hcurrent p]
  refine ⟨locate_mono hcurrent (fun l hl => (hdirectories l).mpr hl) h.1,?_⟩
  rw [ne_eq, hdirectories]
  exact h.2

/-- Making a directory that is there does nothing. -/
theorem ensure_of_directory (hp : checkPath p = .ok ()) (h : d.find p = .ok (l,.directory)) :
    ensure p d = ⟨.ok (),d,[]⟩ := by
  obtain ⟨hlocate,hat⟩ := locate_of_find h
  have hmake : d.makeDirectory p = .error ⟨.exists,some p.text,none⟩ := by
    rw [makeDirectory, hlocate]
    dsimp only [bind, Except.bind, naming]
    rw [hat]
    rfl
  have hhas : d.hasDirectory p = .ok true := by
    rw [hasDirectory, look, hp, h]
    rfl
  have hhere : ensureDirectoryAt p d = ⟨.ok (),d,[]⟩ := by
    rw [ensureDirectoryAt, Action.bind_apply, Action.world_apply]
    dsimp only
    rw [hmake]
    simp only [reduceCtorEq, ↓reduceIte, hhas, Action.bind_apply]
    rfl
  rw [ensure, hp, Action.bind_apply, Action.ofExcept_apply]
  dsimp only
  have hwhole : Path.mk p.root p.parts = p := rfl
  cases hparts : p.parts.reverse with
  | nil =>
    rw [List.reverse_eq_nil_iff] at hparts
    rw [hparts] at hwhole
    rw [ensureDirectory, hwhole, hhere]
    rfl
  | cons name above =>
    have hback : (name :: above).reverse = p.parts := by rw [← hparts, List.reverse_reverse]
    rw [ensureDirectory, hback, hwhole, Action.bind_apply, Action.world_apply]
    dsimp only
    rw [hmake]
    simp only [reduceCtorEq, ↓reduceIte, hhere]
    rfl

end Disk

namespace Store.File

open Disk

/-- A disk on which no call on a file is refused for a number of changes of the file: what is
written is taken whole, its directory is there, nobody holds the lock, and the file, the lock and
each temporary file can be opened. -/
structure Serves (p : Path) (changes : Nat) (d : Disk) : Prop where
  moves : d.refusesMoves = false
  room : d.room = none
  parent : d.find p.parent = .ok (d.target p.parent,.directory)
  file : d.CanOpen p
  lock : d.CanOpen (lockPath p)
  unheld : d.isHeld (d.target (lockPath p)) = false
  temporary : ∀ n, d.stamp ≤ n → n < d.stamp+changes →
    d.locate (p.sibling (temporaryName p n)) = .ok (d.target (p.sibling (temporaryName p n))) ∧
      d.at? (d.target (p.sibling (temporaryName p n))) = none

variable {options : FileOptions} {p : Path} {d d' : Disk} {changes changes' : Nat}

/-- A disk with the same directories, flags and free numbers serves a file as well. -/
theorem Serves.mono (h : Serves p changes d) (hmoves : d'.refusesMoves = d.refusesMoves)
    (hfull : d'.room = d.room) (hheld : d'.held = d.held) (hcurrent : d'.current = d.current)
    (hdirectories : ∀ l, d'.at? l = some .directory ↔ d.at? l = some .directory)
    (hstamp : d.stamp ≤ d'.stamp) (hroom : d'.stamp+changes' ≤ d.stamp+changes)
    (hfree : ∀ n, d'.stamp ≤ n → d.at? (d.target (p.sibling (temporaryName p n))) = none →
      d'.at? (d.target (p.sibling (temporaryName p n))) = none) : Serves p changes' d' where
  moves := hmoves.trans h.moves
  room := hfull.trans h.room
  parent := by
    obtain ⟨hlocate,hat⟩ := locate_of_find h.parent
    rw [find_of_locate (locate_mono hcurrent (fun l hl => (hdirectories l).mpr hl) hlocate),
      (hdirectories _).mpr hat, target_congr hcurrent]
  file := h.file.mono hcurrent hdirectories
  lock := h.lock.mono hcurrent hdirectories
  unheld := by
    rw [target_congr hcurrent, isHeld, hheld]
    exact h.unheld
  temporary := by
    intro n hn hless
    obtain ⟨hlocate,hnone⟩ := h.temporary n (by omega) (by omega)
    rw [target_congr hcurrent]
    exact ⟨locate_mono hcurrent (fun l hl => (hdirectories l).mpr hl) hlocate,hfree n hn hnone⟩

theorem Serves.lower (h : Serves p changes d) (hless : changes' ≤ changes) : Serves p changes' d :=
  h.mono rfl rfl rfl rfl (fun _ => Iff.rfl) le_rfl (by omega) fun _ _ hnone => hnone

theorem Serves.locked (h : Serves p changes d) :
    Serves p changes (d.put (d.target (lockPath p)) (.file [])) := by
  refine h.mono rfl rfl rfl rfl (directory_put_iff h.lock.2 []) le_rfl le_rfl ?_
  intro n _ hnone
  rwa [at?_put_ne _ d (lock_ne_temporary d p n).symm]

def nextTemporary (p : Path) (d : Disk) : Location := d.target (p.sibling (temporaryName p d.stamp))

/-- A disk that serves a file has a temporary file free, under the first number that is tried. -/
theorem Serves.openTemporary (h : Serves p (changes+1) d) :
    File.openTemporary d p =
      .ok (nextTemporary p d,{ d.put (nextTemporary p d) (.file []) with stamp := d.stamp+1 }) := by
  obtain ⟨hlocate,hnone⟩ := h.temporary d.stamp le_rfl (by omega)
  have hstamp : freeStamp d p (d.entries.length+1) d.stamp = d.stamp := by
    rw [freeStamp, find_of_locate hlocate, hnone]
  rw [File.openTemporary]
  dsimp only
  rw [hstamp, openNew, hlocate]
  dsimp only [bind, Except.bind, naming]
  rw [hnone]
  rfl

section Moved

variable {l : Location} (n : Nat) (bytes : List UInt8)

def moved (l place : Location) (n : Nat) (bytes : List UInt8) (d : Disk) : Disk :=
  ((withTemporary l n bytes d).erase l).put place (.file bytes)

theorem directory_withTemporary_iff (hfree : d.at? l = none) (m : Location) :
    (withTemporary l n bytes d).at? m = some .directory ↔ d.at? m = some .directory := by
  have hfile : d.at? l ≠ some .directory := by
    rw [hfree]
    nofun
  have hopened := directory_put_iff hfile []
  exact (directory_put_iff (mt (hopened l).mp hfile) bytes m).trans (hopened m)

theorem directory_moved_iff (hfree : d.at? l = none) {place : Location}
    (hplace : d.at? place ≠ some .directory) (m : Location) :
    (moved l place n bytes d).at? m = some .directory ↔ d.at? m = some .directory := by
  have hfile : d.at? l ≠ some .directory := by
    rw [hfree]
    nofun
  have hfilled := directory_withTemporary_iff n bytes hfree
  have htaken (m : Location) := (directory_erase_iff (mt (hfilled l).mp hfile) m).trans (hfilled m)
  exact (directory_put_iff (mt (htaken place).mp hplace) bytes m).trans (htaken m)

/-- A temporary file can be moved to the place of the file. -/
theorem move_temporary (hfree : d.at? l = none) (hmoves : d.refusesMoves = false)
    (hp : d.CanOpen p) :
    (withTemporary l n bytes d).move l p = .ok (moved l (d.target p) n bytes d) := by
  have hfilled := directory_withTemporary_iff n bytes hfree
  have hopen : (withTemporary l n bytes d).CanOpen p := hp.mono rfl hfilled
  have hplace : (withTemporary l n bytes d).locate p = .ok (d.target p) := hopen.1
  have hthere : (withTemporary l n bytes d).at? l = some (.file bytes) := at?_temporary hfree
  have hallowed : ¬(withTemporary l n bytes d).refusesMoves = true := by
    rw [Bool.not_eq_true]
    exact hmoves
  rw [move, if_neg hallowed]
  dsimp only
  rw [hplace, hthere]
  dsimp only
  rw [if_neg (mt (hfilled _).mp hp.2)]
  rfl

end Moved

/-- Filling the temporary file, which is taken whole. -/
theorem Serves.fill (h : Serves p (changes+1) d) (bytes : List UInt8) :
    ({ d.put (nextTemporary p d) (.file []) with stamp := d.stamp+1 } : Disk).fill
        (nextTemporary p d) bytes =
      (withTemporary (nextTemporary p d) d.stamp bytes d,.ok ()) := by
  have hroom := hasRoom_of_room h.room bytes
  rw [fill_temporary, taken_of_hasRoom hroom, if_pos hroom]

/-- Writing the file is done, and the next temporary file has the next number. -/
theorem Serves.write (hp : p.name ≠ []) (h : Serves p (changes+1) d) {fields : Assoc Json}
    (hencode : (encodeChunks (Json.pageChunks (.object fields))).2 = none) :
    (File.write p fields d).result = .ok () ∧ Serves p changes (File.write p fields d).world := by
  rcases hchunks : encodeChunks (Json.pageChunks (.object fields)) with ⟨bytes,fault⟩
  rw [hchunks] at hencode
  obtain rfl : fault = none := hencode
  have hfree : d.at? (nextTemporary p d) = none := (h.temporary d.stamp le_rfl (by omega)).2
  have hmove := move_temporary d.stamp bytes hfree h.moves h.file
  have hwrite : File.write p fields d =
      ⟨.ok (),moved (nextTemporary p d) (d.target p) d.stamp bytes d,[]⟩ := by
    rw [File.write, Action.bind_apply, Action.world_apply]
    dsimp only
    rw [h.openTemporary, hchunks]
    dsimp only
    rw [h.fill]
    dsimp only
    rw [hmove]
    rfl
  rw [hwrite]
  refine ⟨rfl,h.mono rfl rfl rfl rfl (directory_moved_iff d.stamp bytes hfree h.file.2)
    (Nat.le_succ _) ?_ ?_⟩
  · change d.stamp+1+changes ≤ d.stamp+(changes+1)
    omega
  · intro n _ hnone
    rw [moved, at?_put_ne _ _ (target_ne_temporary hp d n).symm]
    by_cases hn : d.target (p.sibling (temporaryName p n)) = nextTemporary p d
    · rw [hn]
      exact at?_erase_self _ (ne_top_of_free hfree)
    · rw [at?_erase_ne _ hn]
      exact (at?_put_ne _ _ hn).trans ((at?_put_ne _ d hn).trans hnone)

theorem Serves.write_of_fault (h : Serves p (changes+1) d) {fields : Assoc Json}
    {e : Utf8.EncodeFault}
    (hencode : (encodeChunks (Json.pageChunks (.object fields))).2 = some e) :
    (File.write p fields d).result = .error (.encoding e) := by
  rcases hchunks : encodeChunks (Json.pageChunks (.object fields)) with ⟨bytes,fault⟩
  rw [hchunks] at hencode
  obtain rfl : fault = some e := hencode
  rw [File.write, Action.bind_apply, Action.world_apply]
  dsimp only
  rw [h.openTemporary, hchunks]
  dsimp only
  rw [h.fill]
  rfl

section Calls

variable {fields : Assoc Json}

theorem entries_of_canOpen {r : Except Fault (Assoc Json)} (h : d.CanOpen p)
    (hholds : Holds p r d) :
    entries d p = r := by
  rcases hholds with ⟨rfl,hnone | hdirectory⟩ | ⟨bytes,hfind,rfl⟩
  · have hfind : d.find p = .error .missing := by rw [find_of_locate h.1, hnone]
    rcases entries_of_not_found hfind with ⟨_,hentries⟩ | ⟨hcause,_⟩
    · exact hentries
    · exact absurd rfl hcause
  · exact absurd hdirectory h.2
  · exact entries_of_file hfind

/-- A change reads the entries and writes them anew, with the lock taken. -/
theorem Serves.change_eq (hp : options.path.NamesFile) (h : Serves options.path changes d)
    (hholds : Holds options.path (.ok fields) d) (edit : Assoc Json → Option (Assoc Json)) :
    ∃ d₁, Serves options.path changes d₁ ∧
      match edit fields with
      | some changed =>
        (File.change options edit d).result = (File.write options.path changed d₁).result ∧
          (File.change options edit d).world = (File.write options.path changed d₁).world
      | none =>
        (File.change options edit d).result = .ok () ∧ (File.change options edit d).world = d₁ := by
  have hopen := openEmpty_of_canOpen h.lock
  have hlocked := h.locked
  have hspares := (locks_of_openEmpty hopen d.held).spares (target_ne_lock hp.named d)
  have hentries := entries_of_canOpen hlocked.file (hholds.spares hspares)
  have hheld : Disk.isHeld (d.put (d.target (lockPath options.path)) (.file []))
      (d.target (lockPath options.path)) = false := h.unheld
  refine ⟨_,hlocked,?_⟩
  rw [File.change, locked_eq hp]
  simp only [Action.bind_apply, Action.world_apply, hopen, Action.setWorld_apply, hheld,
    Bool.not_false, ↓reduceIte, hentries, Action.ofExcept_apply]
  cases edit fields with
  | none => exact ⟨rfl,rfl⟩
  | some changed => exact ⟨rfl,rfl⟩

/-- A change is done, and the disk serves one change fewer. -/
theorem Serves.change (hp : options.path.NamesFile) (h : Serves options.path (changes+1) d)
    (hholds : Holds options.path (.ok fields) d) (edit : Assoc Json → Option (Assoc Json))
    (hedit : ∀ changed, edit fields = some changed →
      Json.Writable Json.maxNesting (.object changed)) :
    (File.change options edit d).result = .ok () ∧
      Serves options.path changes (File.change options edit d).world := by
  obtain ⟨d₁,hserves,hchange⟩ := h.change_eq hp hholds edit
  cases hchanged : edit fields with
  | none =>
    rw [hchanged] at hchange
    obtain ⟨hresult,hworld⟩ := hchange
    exact ⟨hresult,hworld ▸ hserves.lower (Nat.le_succ changes)⟩
  | some changed =>
    rw [hchanged] at hchange
    obtain ⟨hresult,hworld⟩ := hchange
    rw [hresult, hworld]
    exact hserves.write hp.named (contents_written (hedit changed hchanged) options.path.text).1

def Ready (p : Path) (changes : Nat) (d : Disk) : Prop :=
  Serves p changes d ∨
    (d.find p = .error .missing ∧ (Disk.ensure p.parent d).result = .ok () ∧
      Serves p changes (Disk.ensure p.parent d).world)

theorem Ready.lower (h : Ready p changes d) (hless : changes' ≤ changes) : Ready p changes' d :=
  h.imp (fun hserves => hserves.lower hless)
    fun hmakes => ⟨hmakes.1,hmakes.2.1,hmakes.2.2.lower hless⟩

/-- A disk that will serve a file has its entries at hand; without its directories the file is
missing, and has none. -/
theorem Ready.entries (h : Ready p changes d) (hholds : Holds p (.ok fields) d) :
    File.entries d p = .ok fields := by
  rcases h with hserves | ⟨hmissing,_⟩
  · exact entries_of_canOpen hserves.file hholds
  · rcases hholds.entries with hentries | ⟨e,hentries,_⟩
    · exact hentries
    · rcases entries_of_not_found hmissing with ⟨_,hnone⟩ | ⟨hcause,_⟩
      · rw [hnone] at hentries
        cases hentries
      · exact absurd rfl hcause

/-- Getting an entry is done on a disk that serves the file. -/
theorem Ready.get (options : FileOptions) (hp : checkPath options.path = .ok ())
    (h : Ready options.path changes d) (hholds : Holds options.path (.ok fields) d) (key : Text) :
    File.get options key d = ⟨heldText key options.path.text (fields.get? key),d,[]⟩ := by
  rw [get_eq hp, entry_eq, h.entries hholds]
  rfl

/-- To set an entry is to change the file on a disk that serves it. The directories are there
already, or they can be made. -/
theorem Ready.set_eq (hp : options.path.NamesFile) (h : Ready options.path changes d)
    (hholds : Holds options.path (.ok fields) d) (key value : Text) :
    ∃ d₁, Serves options.path changes d₁ ∧ Holds options.path (.ok fields) d₁ ∧
      (File.set options key value d).result =
        (File.change options (fun fields => some (fields.put key (.string value))) d₁).result ∧
      (File.set options key value d).world =
        (File.change options (fun fields => some (fields.put key (.string value))) d₁).world := by
  have hparent : checkPath options.path.parent = .ok () :=
    (hp.usable_beside (List.forall_mem_nil _)).1
  obtain ⟨hspares,_⟩ := makesDirectories_ensure hparent d
  have hserves : (Disk.ensure options.path.parent d).result = .ok () ∧
      Serves options.path changes (Disk.ensure options.path.parent d).world := by
    rcases h with hserves | ⟨_,hmakes⟩
    · rw [ensure_of_directory hparent hserves.parent]
      exact ⟨rfl,hserves⟩
    · exact hmakes
  obtain ⟨hresult,hserves⟩ := hserves
  rw [File.set_eq, Action.bind_apply]
  rcases hensure : Disk.ensure options.path.parent d with ⟨e | _,d₁,log⟩ <;>
    rw [hensure] at hspares hresult hserves
  · cases hresult
  · exact ⟨d₁,hserves,hholds.spares (hspares _),rfl,rfl⟩

/-- Setting an entry is done on a disk that serves the file. -/
theorem Ready.set (hp : options.path.NamesFile) (h : Ready options.path (changes+1) d)
    (hholds : Holds options.path (.ok fields) d) (key : Text) {value : Text}
    (hwritable : Json.Writable Json.maxNesting (.object (fields.put key (.string value)))) :
    (File.set options key value d).result = .ok () ∧
      Ready options.path changes (File.set options key value d).world := by
  obtain ⟨d₁,hserves,hholds₁,hresult,hworld⟩ := h.set_eq hp hholds key value
  obtain ⟨hdone,hafter⟩ := hserves.change hp hholds₁
    (fun fields => some (fields.put key (.string value))) (by
      intro changed hchanged
      obtain rfl := Option.some_inj.mp hchanged
      exact hwritable)
  rw [hresult, hworld]
  exact ⟨hdone,Or.inl hafter⟩

/-- A file with single surrogates cannot be written anew. -/
theorem Ready.set_of_fault (hp : options.path.NamesFile) (h : Ready options.path (changes+1) d)
    (hholds : Holds options.path (.ok fields) d) (key value : Text) {e : Utf8.EncodeFault}
    (hencode : (encodeChunks (Json.pageChunks (.object (fields.put key (.string value))))).2 =
      some e) :
    (File.set options key value d).result = .error (.encoding e) := by
  obtain ⟨d₁,hserves,hholds₁,hresult,_⟩ := h.set_eq hp hholds key value
  obtain ⟨d₂,hserves₂,hwrite,_⟩ := hserves.change_eq hp hholds₁
    (fun fields => some (fields.put key (.string value)))
  rw [hresult, hwrite]
  exact hserves₂.write_of_fault hencode

/-- Removing an entry is done on a disk that serves the file. -/
theorem Ready.remove (hp : options.path.NamesFile) (h : Ready options.path (changes+1) d)
    (hholds : Holds options.path (.ok fields) d) (key : Text)
    (hwritable : Json.Writable Json.maxNesting (.object (fields.erase key))) :
    (File.remove options key d).result = .ok () ∧
      Ready options.path changes (File.remove options key d).world := by
  rw [remove_eq]
  simp only [Action.bind_apply, Action.world_apply, Action.ofExcept_apply]
  rcases h with hserves | hmakes
  · have hhas : ∃ there, d.has options.path = .ok there := by
      rw [Disk.has, look, hp.usable, find_of_locate hserves.file.1]
      cases d.at? (d.target options.path) with
      | none => exact ⟨false,rfl⟩
      | some e => exact ⟨true,rfl⟩
    obtain ⟨there,hhas⟩ := hhas
    rw [hhas]
    cases there with
    | false => exact ⟨rfl,Or.inl (hserves.lower (Nat.le_succ changes))⟩
    | true =>
      obtain ⟨hdone,hafter⟩ := hserves.change hp hholds (erasing key) (by
        intro changed hchanged
        rw [eq_of_erasing hchanged]
        exact hwritable)
      exact ⟨hdone,Or.inl hafter⟩
  · have hhas : d.has options.path = .ok false := by
      rw [Disk.has, look, hp.usable, hmakes.1]
      rfl
    rw [hhas]
    exact ⟨rfl,Ready.lower (Or.inr hmakes) (Nat.le_succ changes)⟩

end Calls

section Example

def onlyPath : Path := ⟨[],[Text.ofString "notes.json"]⟩

def onlyFile (bytes : List UInt8) : Disk where
  entries := [(#[Text.ofString "notes.json"],.file bytes)]

theorem namesFile_onlyPath : onlyPath.NamesFile := ⟨by decide,by decide⟩

theorem holds_onlyFile (bytes : List UInt8) :
    Holds onlyPath (contents onlyPath.text bytes) (onlyFile bytes) :=
  Or.inr ⟨bytes,rfl,rfl⟩

theorem ready_onlyFile (bytes : List UInt8) : Ready onlyPath 5 (onlyFile bytes) := by
  refine Or.inl ⟨rfl,rfl,rfl,⟨rfl,nofun⟩,⟨rfl,nofun⟩,rfl,?_⟩
  intro number _ hless
  have hnumber : number < 5 := hless
  interval_cases number <;> exact ⟨by cbv,by cbv⟩

end Example

end Store.File

end CategorySelection
