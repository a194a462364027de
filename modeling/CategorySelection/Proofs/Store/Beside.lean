import CategorySelection.Proofs.Disk.Follow
import CategorySelection.Proofs.Disk.Usable
import CategorySelection.Store.File
/-!
Files beside a file. The lock and the temporary files stand in the directory of the file under
longer names, so that opening, filling and removing them leaves the file alone, and moving one of
them puts it in the place of the file.
-/

namespace CategorySelection

def Fault.isOutage : Fault → Bool
  | .system _ | .storage (.unreadable _ (.system _)) | .storage (.unlockable ..)
  | .storage (.lockHeld ..) | .storage (.unwritable ..) => true
  | _ => false

namespace Disk

section Open

variable {d d' : Disk} {p : Path} {l : Location}

/-- A file that was opened for writing is empty, where no directory was. -/
theorem openEmpty_eq_ok (h : d.openEmpty p = .ok (l,d')) :
    l = d.target p ∧ d.at? l ≠ some .directory ∧ d' = d.put l (.file []) := by
  obtain ⟨_,hopened⟩ := located_of_naming h
  split at hopened
  · cases hopened
  · next hfree =>
    obtain ⟨rfl,rfl⟩ := Prod.mk.inj (Except.ok.inj hopened)
    exact ⟨rfl,hfree,rfl⟩

theorem openNew_eq_ok (h : d.openNew p = .ok (l,d')) :
    l = d.target p ∧ d.at? l = none ∧ d' = d.put l (.file []) := by
  obtain ⟨_,hopened⟩ := located_of_naming h
  split at hopened
  · cases hopened
  · next hfree =>
    obtain ⟨rfl,rfl⟩ := Prod.mk.inj (Except.ok.inj hopened)
    exact ⟨rfl,hfree,rfl⟩

/-- A file that was moved stands where the path leads and no longer where it was. -/
theorem move_eq_ok {source : Location} (h : d.move source p = .ok d') :
    ∃ l e, d.locate p = .ok l ∧ d.at? source = some e ∧ d.at? l ≠ some .directory ∧
      d' = (d.erase source).put l e := by
  rw [move] at h
  split_ifs at h
  dsimp only at h
  split at h
  · cases h
  · cases h
  · next l e hlocate hsource =>
    split_ifs at h with hl
    exact ⟨l,e,hlocate,hsource,hl,(Except.ok.inj h).symm⟩

end Open

section Fill

variable {d : Disk} {bytes : List UInt8}

theorem taken_of_hasRoom (h : d.hasRoom bytes = true) : d.taken bytes = bytes := of_decide_eq_true h

theorem hasRoom_of_room (h : d.room = none) (bytes : List UInt8) : d.hasRoom bytes = true := by
  rw [hasRoom, taken, h]
  exact decide_eq_true rfl

end Fill

section Beside

variable (d : Disk)

/-- A file beside another one is one step from the directory. -/
theorem target_sibling (p : Path) (name : Text) :
    d.target (p.sibling name) = step (d.target p.parent) name := by
  rw [target, target, Path.sibling, Path.child, Path.parent, List.foldl_append]
  rfl

/-- A longer name in the same directory leads elsewhere. -/
theorem target_siblings_ne (p : Path) {name longer : Text} (hlong : name.length < longer.length)
    (htwo : 2 < longer.length) : d.target (p.sibling name) ≠ d.target (p.sibling longer) := by
  have hdown : longer ≠ Text.ofString ".." := by
    rintro rfl
    exact absurd htwo (by decide)
  rw [target_sibling, target_sibling, step, step, if_neg hdown]
  intro h
  have hsize := congrArg Array.size h
  split_ifs at h hsize
  · rw [Array.size_pop, Array.size_push] at hsize
    omega
  · rw [(Array.push_inj_right.mp h)] at hlong
    exact absurd hlong (Nat.lt_irrefl _)

end Beside

end Disk

namespace Store.File

open Disk

variable {d d' : Disk} {p : Path} {l : Location}

/-- The name of a temporary file is longer than that of the file. -/
theorem length_temporaryName (p : Path) (n : Nat) :
    p.name.length+6 ≤ (temporaryName p n).length := by
  have hdot : (Text.ofString ".").length = 1 := rfl
  have hend : (Text.ofString ".tmp").length = 4 := rfl
  simp only [temporaryName, List.length_append, hdot, hend]
  omega

theorem target_ne_lock (hp : p.name ≠ []) (d : Disk) : d.target p ≠ d.target (lockPath p) := by
  have hend : (Text.ofString ".lock").length = 5 := rfl
  have hne : d.target (p.sibling p.name) ≠ d.target (lockPath p) :=
    target_siblings_ne d p (by rw [List.length_append]; omega) (by rw [List.length_append]; omega)
  rwa [Path.sibling_name hp] at hne

theorem target_ne_temporary (hp : p.name ≠ []) (d : Disk) (n : Nat) :
    d.target p ≠ d.target (p.sibling (temporaryName p n)) := by
  have hlength := length_temporaryName p n
  have hne : d.target (p.sibling p.name) ≠ d.target (p.sibling (temporaryName p n)) :=
    target_siblings_ne d p (by omega) (by omega)
  rwa [Path.sibling_name hp] at hne

theorem lock_ne_temporary (d : Disk) (p : Path) (n : Nat) :
    d.target (lockPath p) ≠ d.target (p.sibling (temporaryName p n)) := by
  have hlength := length_temporaryName p n
  have hend : (Text.ofString ".lock").length = 5 := rfl
  exact target_siblings_ne d p (by rw [List.length_append]; omega) (by omega)

structure Locks (p : Path) (d d' : Disk) : Prop where
  located : d.locate (lockPath p) = .ok (d.target (lockPath p))
  free : d.at? (d.target (lockPath p)) ≠ some .directory
  opened : ∃ held, d' = { d.put (d.target (lockPath p)) (.file []) with held }

/-- Opening the file of the lock changes nothing but this file. -/
theorem locks_of_openEmpty (h : d.openEmpty (lockPath p) = .ok (l,d')) (held : List Location) :
    Locks p d { d' with held } := by
  obtain ⟨rfl,hfree,rfl⟩ := openEmpty_eq_ok h
  exact ⟨(located_of_naming h).1,hfree,held,rfl⟩

/-- Opening the lock leaves every other place alone. -/
theorem Locks.spares (h : Locks p d d') {place : Location} (hne : place ≠ d.target (lockPath p)) :
    Spares place d d' := by
  obtain ⟨held,rfl⟩ := h.opened
  have hput : Spares place d (d.put (d.target (lockPath p)) (.file [])) := .put hne h.free _
  exact ⟨hput.current,hput.directories,hput.place⟩

/-- A temporary file is opened under a number whose place was free. -/
theorem openTemporary_eq_ok (h : openTemporary d p = .ok (l,d')) :
    ∃ n, l = d.target (p.sibling (temporaryName p n)) ∧ d.at? l = none ∧
      d' = { d.put l (.file []) with stamp := n+1 } := by
  rw [openTemporary] at h
  split at h
  · next hopen =>
    obtain ⟨rfl,rfl⟩ := Prod.mk.inj (Except.ok.inj h)
    obtain ⟨hl,hnone,rfl⟩ := openNew_eq_ok hopen
    exact ⟨_,hl,hnone,rfl⟩
  · cases h

structure Replaced (p : Path) (bytes : List UInt8) (d d' : Disk) : Prop where
  current : d'.current = d.current
  directories : ∀ l, d.at? l = some .directory → d'.at? l = some .directory
  found : d'.find p = .ok (d.target p, .file bytes)

section Temporary

variable {n : Nat} {bytes : List UInt8}

def withTemporary (l : Location) (n : Nat) (bytes : List UInt8) (d : Disk) : Disk :=
  ({ d.put l (.file []) with stamp := n+1 } : Disk).put l (.file bytes)

/-- Filling a temporary file that was just opened. -/
theorem fill_temporary (l : Location) (n : Nat) (bytes : List UInt8) (d : Disk) :
    ({ d.put l (.file []) with stamp := n+1 } : Disk).fill l bytes =
      (withTemporary l n (d.taken bytes) d,
        if d.hasRoom bytes then .ok () else .error ⟨.noSpace,none,none⟩) := rfl

theorem at?_temporary (hfree : d.at? l = none) :
    (withTemporary l n bytes d).at? l = some (.file bytes) :=
  at?_put_self _ _ (ne_top_of_free hfree)

theorem spares_temporary (n : Nat) (bytes : List UInt8) {place : Location} (hne : place ≠ l)
    (hfree : d.at? l = none) :
    Spares place d (withTemporary l n bytes d) := by
  have hopened : Spares place d { d.put l (.file []) with stamp := n+1 } := by
    have hput : Spares place d (d.put l (.file [])) := .put hne (by rw [hfree]; nofun) _
    exact ⟨hput.current,hput.directories,hput.place⟩
  have hthere : ({ d.put l (.file []) with stamp := n+1 } : Disk).at? l = some (.file []) :=
    at?_put_self _ d (ne_top_of_free hfree)
  exact hopened.trans (.put hne (by rw [hthere]; nofun) _)

/-- Removing a temporary file leaves everything else as well. -/
theorem spares_remove {place : Location} (hne : place ≠ l) (hfree : d.at? l = none)
    (h : (withTemporary l n bytes d).remove l = .ok d') : Spares place d d' := by
  rw [Disk.remove] at h
  split_ifs at h
  obtain rfl := Except.ok.inj h
  exact (spares_temporary n bytes hne hfree).trans (.erase hne (by rw [at?_temporary hfree]; nofun))

/-- A temporary file that is moved leaves the directories and is found where the file was. -/
theorem replaced_of_move (hne : d.target p ≠ l) (hfree : d.at? l = none)
    (h : (withTemporary l n bytes d).move l p = .ok d') : Replaced p bytes d d' := by
  have hfilled := spares_temporary n bytes hne hfree
  obtain ⟨place,e,hlocate,hsource,hplace,rfl⟩ := move_eq_ok h
  obtain rfl : e = .file bytes := by
    rw [at?_temporary hfree] at hsource
    exact (Option.some_inj.mp hsource).symm
  obtain rfl : place = d.target p := (locate_eq hlocate).trans (target_congr hfilled.current p)
  let taken := (withTemporary l n bytes d).erase l
  have htaken : Spares (d.target p) (withTemporary l n bytes d) taken :=
    .erase hne (by rw [at?_temporary hfree]; nofun)
  have htop : d.target p ≠ #[] := by
    intro htop
    rw [htop] at hplace
    exact hplace rfl
  have hdirectories (m : Location) (hm : (withTemporary l n bytes d).at? m = some .directory) :
      (taken.put (d.target p) (.file bytes)).at? m = some .directory := by
    have hdiffers : m ≠ d.target p := by
      rintro rfl
      exact hplace hm
    rw [at?_put_ne _ _ hdiffers]
    exact htaken.directories m hm
  have hcurrent : (taken.put (d.target p) (.file bytes)).current =
      (withTemporary l n bytes d).current :=
    htaken.current
  refine ⟨hcurrent.trans hfilled.current,fun m hm => hdirectories m (hfilled.directories m hm),?_⟩
  rw [find_of_locate (locate_mono hcurrent hdirectories hlocate), at?_put_self _ _ htop]

end Temporary

/-- A temporary file that is given up is gone, unless the system refuses to take it away. -/
theorem giveUp_cases (p : Path) (l : Location) (e : SystemFault) (d s : Disk) :
    let o := giveUp p l e d s
    o.result = .error (.storage (.unwritable p.text e)) ∧
      (d.remove l = .ok o.world ∨
        (d.refusesRemovals = true ∧ o.log = [leftoverRecord l] ∧ o.world = d)) := by
  intro o
  have ho : o = giveUp p l e d s := rfl
  rw [giveUp] at ho
  cases hremove : d.remove l with
  | ok d' =>
    rw [hremove] at ho
    rw [ho]
    exact ⟨rfl,Or.inl rfl⟩
  | error e' =>
    rw [hremove] at ho
    rw [ho]
    have hrefuses : d.refusesRemovals = true := by
      rw [Disk.remove] at hremove
      split_ifs at hremove with hrefuses
      exact hrefuses
    exact ⟨rfl,Or.inr ⟨hrefuses,rfl,rfl⟩⟩

/-- Once a temporary file is open, all that writing does is told by what the system takes of the
text, by whether the text has bytes, and by whether the temporary file can be moved. -/
theorem write_of_openTemporary {n : Nat} (fields : Assoc Json)
    (hopen : openTemporary d p = .ok (l,{ d.put l (.file []) with stamp := n+1 })) :
    let written := encodeChunks (Json.pageChunks (.object fields))
    let filled := withTemporary l n (d.taken written.1) d
    write p fields d =
      if d.hasRoom written.1 then
        match written.2 with
        | some e => ⟨.error (.encoding e),filled,[]⟩
        | none => match filled.move l p with
          | .ok d' => ⟨.ok (),d',[]⟩
          | .error e => giveUp p l e filled d
      else giveUp p l ⟨.noSpace,none,none⟩ filled d := by
  intro written filled
  have hwritten : encodeChunks (Json.pageChunks (.object fields)) = (written.1,written.2) := rfl
  rw [write, Action.bind_apply, Action.world_apply]
  dsimp only
  rw [hopen, hwritten]
  dsimp only
  rw [fill_temporary]
  cases d.hasRoom written.1 with
  | false => rfl
  | true =>
    cases written.2 with
    | some e => rfl
    | none =>
      dsimp only [↓reduceIte]
      cases filled.move l p <;> rfl

/-- What writing a file can do. If the temporary file cannot be opened, nothing; else the system
takes the text or a part of it, and the file stays so if the text has no bytes, is moved to the
place of the file, or is taken away when the system refuses to write or to move it, and stays only
if the system refuses to take it away as well. -/
theorem write_steps (p : Path) (fields : Assoc Json) (d : Disk) :
    let written := encodeChunks (Json.pageChunks (.object fields))
    let o := write p fields d
    (∃ e, o.result = .error e ∧ e.isOutage = true ∧ o.world = d) ∨
    ∃ l n, l = d.target (p.sibling (temporaryName p n)) ∧ d.at? l = none ∧
      ((∃ e, written.2 = some e ∧ o.result = .error (.encoding e) ∧
          o.world = withTemporary l n (d.taken written.1) d) ∨
        (written.2 = none ∧ o.result = .ok () ∧
          (withTemporary l n written.1 d).move l p = .ok o.world) ∨
        ∃ e, o.result = .error (.storage (.unwritable p.text e)) ∧
          ((withTemporary l n (d.taken written.1) d).remove l = .ok o.world ∨
            (d.refusesRemovals = true ∧ o.log = [leftoverRecord l] ∧
              o.world = withTemporary l n (d.taken written.1) d))) := by
  intro written o
  cases hopen : openTemporary d p with
  | error e =>
    have ho : o = ⟨.error (.storage (.unlockable p.text e)),d,[]⟩ := by
      change write p fields d = _
      rw [write, Action.bind_apply, Action.world_apply]
      dsimp only
      rw [hopen]
      rfl
    rw [ho]
    exact Or.inl ⟨_,rfl,rfl,rfl⟩
  | ok opened =>
    obtain ⟨l,d₁⟩ := opened
    obtain ⟨n,hl,hfree,rfl⟩ := openTemporary_eq_ok hopen
    have ho : o = _ := write_of_openTemporary fields hopen
    have hgiven (e : SystemFault) := giveUp_cases p l e (withTemporary l n (d.taken written.1) d) d
    refine Or.inr ⟨l,n,hl,hfree,?_⟩
    rw [ho]
    split_ifs with hroom
    · cases hfault : written.2 with
      | some e => exact Or.inl ⟨e,rfl,rfl,rfl⟩
      | none =>
        cases hmove : (withTemporary l n (d.taken written.1) d).move l p with
        | ok d' =>
          rw [taken_of_hasRoom hroom] at hmove
          exact Or.inr (Or.inl ⟨rfl,rfl,hmove⟩)
        | error e => exact Or.inr (Or.inr ⟨e,hgiven e⟩)
    · exact Or.inr (Or.inr ⟨_,hgiven _⟩)

/-- Writing a file ends with a fault of the system, which leaves the file alone, with a text that
has no bytes, which leaves it alone as well, or with the file that was to be written. -/
theorem write_cases (hp : p.name ≠ []) (fields : Assoc Json) (d : Disk) :
    (∃ e, (write p fields d).result = .error e ∧ e.isOutage = true ∧
      Spares (d.target p) d (write p fields d).world) ∨
    (∃ e, (encodeChunks (Json.pageChunks (.object fields))).2 = some e ∧
      (write p fields d).result = .error (.encoding e) ∧
      Spares (d.target p) d (write p fields d).world) ∨
    ((encodeChunks (Json.pageChunks (.object fields))).2 = none ∧
      (write p fields d).result = .ok () ∧
      Replaced p (encodeChunks (Json.pageChunks (.object fields))).1 d
        (write p fields d).world) := by
  rcases write_steps p fields d with ⟨e,hresult,he,hworld⟩ | ⟨l,n,hl,hfree,hsteps⟩
  · refine Or.inl ⟨e,hresult,he,?_⟩
    rw [hworld]
    exact .refl _ d
  have hne : d.target p ≠ l := hl ▸ target_ne_temporary hp d n
  have hspares :=
    spares_temporary n (d.taken (encodeChunks (Json.pageChunks (.object fields))).1) hne hfree
  rcases hsteps with ⟨e,hfault,hresult,hworld⟩ | ⟨hfault,hresult,hmove⟩ |
    ⟨e,hresult,hremove | ⟨_,_,hworld⟩⟩
  · exact Or.inr (Or.inl ⟨e,hfault,hresult,hworld ▸ hspares⟩)
  · exact Or.inr (Or.inr ⟨hfault,hresult,replaced_of_move hne hfree hmove⟩)
  · exact Or.inl ⟨_,hresult,rfl,spares_remove hne hfree hremove⟩
  · exact Or.inl ⟨_,hresult,rfl,hworld ▸ hspares⟩

end Store.File

end CategorySelection
