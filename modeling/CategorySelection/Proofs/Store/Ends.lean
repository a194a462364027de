import CategorySelection.Proofs.Disk.Footprint
import CategorySelection.Proofs.Store.Change
/-!
How changes of a file end. A change is refused, has nothing to do, is done, or leaves behind the
temporary file that it was writing. Each end is told with the entries that led to it and with the
places that it may change.
-/

namespace CategorySelection

namespace Disk

variable {d : Disk} {p : Path}

theorem follow_append (d : Disk) (l : Location) (names rest : List Text) :
    d.follow l (names ++ rest) = (d.follow l names).bind fun m => d.follow m rest := by
  induction names generalizing l with
  | nil => rfl
  | cons name more ih =>
    rw [List.cons_append, follow, follow]
    split
    · rfl
    · rfl
    · split_ifs
      · rfl
      · exact ih _
      · exact ih _

theorem length_nameBytes_append (name behind : Text) :
    (Utf8.nameBytes name).length ≤ (Utf8.nameBytes (name ++ behind)).length := by
  rw [Utf8.nameBytes, Utf8.nameBytes, List.flatMap_append, List.length_append]
  exact Nat.le_add_right _ _

/-- Where a longer name can be followed, the name can be. A name is refused for its length only. -/
theorem follow_of_longer {l r : Location} {name behind : Text}
    (h : d.follow l [name ++ behind] = .ok r) :
    ∃ r', d.follow l [name] = .ok r' := by
  have hbytes := length_nameBytes_append name behind
  rw [follow] at h ⊢
  split at h
  · cases h
  · cases h
  · have hshort : ¬maxNameBytes < (Utf8.nameBytes (name ++ behind)).length := by
      intro hlong
      rw [if_pos hlong] at h
      cases h
    rw [if_neg (by omega)]
    split_ifs <;> exact ⟨_,rfl⟩

/-- A path can be followed if the one with a longer last name can be. Both go through the same
directory. -/
theorem locate_of_longer (hp : p.name ≠ []) {behind : Text} {l : Location}
    (h : d.locate (p.sibling (p.name ++ behind)) = .ok l) : d.locate p = .ok (d.target p) := by
  have hbytes := length_nameBytes_append p.text behind
  have hfound : ∃ r, d.locate p = .ok r := by
    rw [locate, Path.text_sibling_append hp] at h
    have hshort : ¬maxPathBytes < (Utf8.nameBytes (p.text ++ behind)).length := by
      intro hlong
      rw [if_pos hlong] at h
      cases h
    rw [if_neg hshort] at h
    change d.follow (if p.root.isEmpty then d.current else #[])
      (p.parts.dropLast ++ [p.name ++ behind]) = .ok l at h
    rw [follow_append] at h
    rw [locate, if_neg (by omega), Path.parts_eq hp, follow_append]
    cases habove : d.follow (if p.root.isEmpty then d.current else #[]) p.parts.dropLast with
    | error cause =>
      rw [habove] at h
      cases h
    | ok m =>
      rw [habove] at h
      exact follow_of_longer h
  obtain ⟨r,hr⟩ := hfound
  rw [hr, locate_eq hr]

end Disk

namespace Store.File

open Disk

variable {options : FileOptions} {edit : Assoc Json → Option (Assoc Json)} {p : Path} {d d' : Disk}
  {l : Location} {fields changed : Assoc Json}

def kept (p : Path) (d : Disk) : Except Fault (Assoc Json) :=
  match d.at? (d.target p) with
  | some (.file bytes) => contents p.text bytes
  | none | some .directory => .ok []

theorem kept_of_same (hc : d'.current = d.current) (h : d'.at? (d.target p) = d.at? (d.target p)) :
    kept p d' = kept p d := by
  rw [kept, target_congr hc, h]
  rfl

/-- Entries that can be read are those that are kept at the place of the file, if the way there can
be followed at all. -/
theorem kept_of_entries (hlocate : d.locate p = .ok (d.target p)) (h : entries d p = .ok fields) :
    kept p d = .ok fields := by
  have hfind := find_of_locate hlocate
  cases hat : d.at? (d.target p) with
  | none =>
    rw [hat] at hfind
    rcases entries_of_not_found hfind with ⟨_,hnone⟩ | ⟨hcause,_⟩
    · rw [kept, hat, ← h, hnone]
    · exact absurd rfl hcause
  | some e =>
    rw [hat] at hfind
    cases e with
    | file bytes =>
      rw [kept, hat, ← h]
      exact (entries_of_file hfind).symm
    | directory =>
      obtain ⟨e,he,_⟩ := entries_of_directory hfind
      rw [he] at h
      cases h

/-- A temporary file that stays behind when entries are written, with the bytes that the system
took. The text of the entries has no bytes from some place on, or the system refuses to write or to
move the file and refuses to take it away. -/
structure Leaves (p : Path) (fields : Assoc Json) (d : Disk) (o : Outcome Disk Unit)
    (l : Location) : Prop where
  name : ∃ n, l = d.target (p.sibling (temporaryName p n))
  free : d.at? l = none
  stays : o.world.at? l = some (.file (d.taken (encodeChunks (Json.pageChunks (.object fields))).1))
  reason : (∃ e, (encodeChunks (Json.pageChunks (.object fields))).2 = some e ∧
    o.result = .error (.encoding e)) ∨
    (d.refusesRemovals = true ∧ leftoverRecord l ∈ o.log ∧
      ∃ e, o.result = .error (.storage (.unwritable p.text e)))

theorem Locks.differsAt (h : Locks p d d') : DiffersAt {d.target (lockPath p)} d d' := by
  obtain ⟨held,rfl⟩ := h.opened
  have hput : DiffersAt {d.target (lockPath p)} d (d.put (d.target (lockPath p)) (.file [])) :=
    .put _ _ d
  exact ⟨hput.current,hput.removals,hput.room,hput.elsewhere⟩

section Temporary

variable {n : Nat} {bytes : List UInt8}

theorem differsAt_temporary (n : Nat) (bytes : List UInt8) (d : Disk) (l : Location) :
    DiffersAt {l} d (withTemporary l n bytes d) := by
  have hopened : DiffersAt {l} d { d.put l (.file []) with stamp := n+1 } := by
    have hput := DiffersAt.put l (.file []) d
    exact ⟨hput.current,hput.removals,hput.room,hput.elsewhere⟩
  exact hopened.trans (.put l _ _)

/-- A temporary file that is taken away again leaves no trace. -/
theorem differsAt_remove (hfree : d.at? l = none)
    (h : (withTemporary l n bytes d).remove l = .ok d') :
    DiffersAt ∅ d d' := by
  rw [Disk.remove] at h
  split_ifs at h
  obtain rfl := Except.ok.inj h
  have htop := ne_top_of_free hfree
  have htaken : DiffersAt {l} d ((withTemporary l n bytes d).erase l) :=
    (differsAt_temporary n bytes d l).trans (.erase l _)
  rw [← insert_empty_eq] at htaken
  exact htaken.of_gone hfree (at?_erase_self _ htop)

/-- One that is moved is gone from its own place. -/
theorem differsAt_move (hne : d.target p ≠ l) (hfree : d.at? l = none)
    (h : (withTemporary l n bytes d).move l p = .ok d') : DiffersAt {d.target p} d d' := by
  have hfilled := differsAt_temporary n bytes d l
  obtain ⟨place,e,hlocate,_,_,rfl⟩ := move_eq_ok h
  obtain rfl : place = d.target p := (locate_eq hlocate).trans (target_congr hfilled.current p)
  have htop := ne_top_of_free hfree
  have htaken := (hfilled.trans (.erase l _)).of_mem (Set.mem_insert l {d.target p})
  have hput := (DiffersAt.put (d.target p) e ((withTemporary l n bytes d).erase l)).mono
    (Set.subset_insert l _)
  refine (htaken.trans hput).of_gone hfree ?_
  rw [at?_put_ne _ _ hne.symm, at?_erase_self _ htop]

end Temporary

/-- How writing ends: refused with nothing changed, done with the file alone changed, or with the
temporary file left behind. -/
theorem write_ends (hp : p.name ≠ []) (fields : Assoc Json) (d : Disk) :
    (∃ e, (write p fields d).result = .error e ∧ DiffersAt ∅ d (write p fields d).world) ∨
    ((write p fields d).result = .ok () ∧ DiffersAt {d.target p} d (write p fields d).world) ∨
    ∃ l, Leaves p fields d (write p fields d) l ∧ DiffersAt {l} d (write p fields d).world := by
  rcases write_steps p fields d with ⟨e,hresult,_,hworld⟩ | ⟨l,n,hl,hfree,hsteps⟩
  · refine Or.inl ⟨e,hresult,?_⟩
    rw [hworld]
    exact .refl _ d
  let bytes := d.taken (encodeChunks (Json.pageChunks (.object fields))).1
  have hleft (hworld : (write p fields d).world = withTemporary l n bytes d) :
      (write p fields d).world.at? l = some (.file bytes) ∧
      DiffersAt {l} d (write p fields d).world := by
    rw [hworld]
    exact ⟨at?_temporary hfree,differsAt_temporary n bytes d l⟩
  rcases hsteps with ⟨e,hfault,hresult,hworld⟩ | ⟨_,hresult,hmove⟩ |
    ⟨e,hresult,hremove | ⟨hrefuses,hlog,hworld⟩⟩
  · obtain ⟨hstays,hdiffers⟩ := hleft hworld
    exact Or.inr (Or.inr ⟨l,⟨⟨n,hl⟩,hfree,hstays,Or.inl ⟨e,hfault,hresult⟩⟩,hdiffers⟩)
  · have hne : d.target p ≠ l := hl ▸ target_ne_temporary hp d n
    exact Or.inr (Or.inl ⟨hresult,differsAt_move hne hfree hmove⟩)
  · exact Or.inl ⟨_,hresult,differsAt_remove hfree hremove⟩
  · obtain ⟨hstays,hdiffers⟩ := hleft hworld
    refine Or.inr (Or.inr ⟨l,⟨⟨n,hl⟩,hfree,hstays,Or.inr ⟨hrefuses,?_,e,hresult⟩⟩,hdiffers⟩)
    rw [hlog]
    exact List.mem_singleton_self _

inductive Ends (p : Path) (edit : Assoc Json → Option (Assoc Json)) (d : Disk)
    (o : Outcome Disk Unit) : Prop
  | untouched (e : Fault) (result : o.result = .error e) (world : o.world = d)
  | refused (e : Fault) (named : p.name ≠ []) (result : o.result = .error e)
      (differs : DiffersAt {d.target (lockPath p)} d o.world)
  | idle (fields : Assoc Json) (named : p.name ≠ []) (kept : kept p d = .ok fields)
      (edited : edit fields = none) (result : o.result = .ok ())
      (differs : DiffersAt {d.target (lockPath p)} d o.world)
  | done (fields changed : Assoc Json) (kept : kept p d = .ok fields)
    (edited : edit fields = some changed) (result : o.result = .ok ())
    (differs : DiffersAt {d.target p, d.target (lockPath p)} d o.world)
  | left (fields changed : Assoc Json) (l : Location) (named : p.name ≠ [])
    (kept : kept p d = .ok fields) (edited : edit fields = some changed)
    (leaves : Leaves p changed d o l) (differs : DiffersAt {l, d.target (lockPath p)} d o.world)

/-- What a temporary file that stays behind is like on the disk without the lock. The lock has a
name of its own, so opening it did not free the place. -/
theorem Leaves.unlock {o : Outcome Disk Unit} (hlock : DiffersAt {d.target (lockPath p)} d d')
    (h : Leaves p fields d' o l) : Leaves p fields d o l := by
  obtain ⟨n,hl⟩ := h.name
  rw [target_congr hlock.current] at hl
  have hne : l ≠ d.target (lockPath p) := hl ▸ (lock_ne_temporary d p n).symm
  have hfree := h.free
  rw [hlock.elsewhere l hne] at hfree
  exact ⟨⟨n,hl⟩,hfree,(hlock.taken_eq _) ▸ h.stays,hlock.removals ▸ h.reason⟩

/-- A change ends as writing does, with the file alone changed besides the lock, or not at all. The
way to the lock is the way to the file, so what is read under the lock is what the file keeps. -/
theorem ends_change (options : FileOptions) (edit : Assoc Json → Option (Assoc Json)) (d : Disk) :
    Ends options.path edit d (change options edit d) := by
  rcases change_under_lock options edit d with ⟨e,hresult,_,hworld⟩ | ⟨hp,d₁,hlocks,hsteps⟩
  · exact .untouched e hresult hworld
  have hname := hp.named
  have hdiffers := hlocks.differsAt
  have hspares := hlocks.spares (target_ne_lock hname d)
  have hkept (fields : Assoc Json) (hentries : entries d₁ options.path = .ok fields) :
      kept options.path d = .ok fields := by
    have hfollowed :=
      locate_mono hspares.current hspares.directories (locate_of_longer hname hlocks.located)
    rw [← target_congr hspares.current] at hfollowed
    have hsame := hdiffers.elsewhere _ (target_ne_lock hname d)
    rw [← kept_of_same hdiffers.current hsame]
    exact kept_of_entries hfollowed hentries
  rcases hsteps with ⟨e,hresult,_,hworld⟩ | hdone
  · exact .refused e hname hresult (hworld ▸ hdiffers)
  cases hentries : entries d₁ options.path with
  | error e =>
    rw [hentries] at hdone
    exact .refused e hname (by rw [hdone]) (by rw [hdone]; exact hdiffers)
  | ok fields =>
    rw [hentries] at hdone
    dsimp only at hdone
    cases hedit : edit fields with
    | none =>
      rw [hedit] at hdone
      exact .idle fields hname (hkept fields hentries) hedit (by rw [hdone])
        (by rw [hdone]; exact hdiffers)
    | some changed =>
      rw [hedit] at hdone
      rw [hdone]
      rcases write_ends hname changed d₁ with ⟨e,hresult,hsame⟩ | ⟨hresult,hfile⟩ |
        ⟨l,hleaves,hleft⟩
      · exact .refused e hname hresult (hdiffers.trans (hsame.mono (Set.empty_subset _)))
      · rw [target_congr hdiffers.current] at hfile
        refine .done fields changed (hkept fields hentries) hedit hresult ?_
        exact (hdiffers.mono (Set.subset_insert _ _)).trans (hfile.of_mem (Set.mem_insert _ _))
      · refine .left fields changed l hname (hkept fields hentries) hedit
          (hleaves.unlock hdiffers) ?_
        exact (hdiffers.mono (Set.subset_insert l _)).trans (hleft.of_mem (Set.mem_insert l _))

def putting (key value : Text) (fields : Assoc Json) : Option (Assoc Json) :=
  some (fields.put key (.string value))

theorem Ends.after {o : Outcome Disk Unit} (h : Ends p edit d o) (log : List Log.Record) :
    Ends p edit d ⟨o.result,o.world,log ++ o.log⟩ := by
  cases h with
  | untouched e result world => exact .untouched e result world
  | refused e named result differs => exact .refused e named result differs
  | idle fields named kept edited result differs =>
    exact .idle fields named kept edited result differs
  | done fields changed kept edited result differs =>
    exact .done fields changed kept edited result differs
  | left fields changed l named kept edited leaves differs =>
    refine .left fields changed l named kept edited
      ⟨leaves.name,leaves.free,leaves.stays,leaves.reason.imp_right ?_⟩ differs
    rintro ⟨hrefuses,hlog,hresult⟩
    exact ⟨hrefuses,List.mem_append_right log hlog,hresult⟩

/-- Setting an entry is a change of the file on the disk with the directories made. -/
theorem ends_set (options : FileOptions) (key value : Text) (d : Disk) :
    Ends options.path (putting key value) (Disk.ensure options.path.parent d).world
      (set options key value d) := by
  rw [set_eq, Action.bind_apply]
  rcases Disk.ensure options.path.parent d with ⟨e | _,d₁,log⟩
  · exact .untouched e rfl rfl
  · exact (ends_change options (putting key value) d₁).after log

/-- Removing an entry is a change of the file, if the file is there. -/
theorem remove_cases (options : FileOptions) (key : Text) (d : Disk) :
    (d.has options.path ≠ .ok true ∧ (remove options key d).world = d) ∨
      (d.has options.path = .ok true ∧ remove options key d = change options (erasing key) d) := by
  rw [remove_eq]
  simp only [Action.bind_apply, Action.world_apply, Action.ofExcept_apply]
  cases d.has options.path with
  | error cause => exact Or.inl ⟨nofun,rfl⟩
  | ok there =>
    cases there with
    | false => exact Or.inl ⟨nofun,rfl⟩
    | true => exact Or.inr ⟨rfl,rfl⟩

end Store.File

end CategorySelection
