import CategorySelection.Proofs.Json.Kept
import CategorySelection.Proofs.Store.Beside
/-!
What a file keeps. The entries of a file are told by its bytes alone, and a file that was written
gives the entries it was written for, in increasing order of the names.
-/

namespace CategorySelection

namespace Store.File

open Disk

def contents (path : Text) (bytes : List UInt8) : Except Fault (Assoc Json) :=
  match Utf8.decode bytes with
  | .error e => .error (.storage (.unreadable path (.bytes e)))
  | .ok t =>
    if t.unifyLineEnds.isBlank then .ok []
    else
      match Json.read t.unifyLineEnds with
      | .ok (.object fields) => .ok fields
      | .ok value => .error (.storage (.notObject path value.kindName))
      | .error (.malformed reason line column offset) =>
        .error (.storage (.notJson path (.malformed reason line column offset)))
      | .error e => .error (.json e)

/-- The entries of a file are within the limits of the reader. -/
theorem legible_of_contents {path : Text} {bytes : List UInt8} {fields : Assoc Json}
    (h : contents path bytes = .ok fields) : Json.Legible Json.maxNesting (.object fields) := by
  rw [contents] at h
  split at h
  · cases h
  · next t _ =>
    split_ifs at h
    · obtain rfl := Except.ok.inj h
      exact .object List.nodup_nil (List.forall_mem_nil _) (List.forall_mem_nil _)
    · split at h
      · next read hread =>
        obtain rfl := Except.ok.inj h
        exact Json.legible_of_read hread
      all_goals cases h

section Entries

variable {d d' : Disk} {p : Path} {l : Location} {bytes : List UInt8}

theorem entries_of_file (h : d.find p = .ok (l,.file bytes)) :
    entries d p = contents p.text bytes := by
  have hbytes : d.readBytes p = .ok bytes := by
    rw [readBytes, h]
    rfl
  rw [entries, readText, hbytes, contents]
  dsimp only
  cases Utf8.decode bytes <;> rfl

theorem entries_of_directory (h : d.find p = .ok (l,.directory)) :
    ∃ e, entries d p = .error e ∧ e.isOutage = true := by
  have hbytes : d.readBytes p = .error ⟨.isDirectory,some p.text,none⟩ := by
    rw [readBytes, h]
    rfl
  rw [entries, readText, hbytes]
  exact ⟨_,rfl,rfl⟩

/-- A file that is missing has no entries; whatever else keeps it from being found is an outage. -/
theorem entries_of_not_found {cause : SystemCause} (h : d.find p = .error cause) :
    (cause = .missing ∧ entries d p = .ok []) ∨
      (cause ≠ .missing ∧ ∃ e, entries d p = .error e ∧ e.isOutage = true) := by
  have hbytes : d.readBytes p = .error ⟨cause,some p.text,none⟩ := by
    rw [readBytes, h]
    rfl
  rw [entries, readText, hbytes]
  dsimp only
  split_ifs with hmissing
  · exact Or.inl ⟨hmissing,rfl⟩
  · exact Or.inr ⟨hmissing,_,rfl,rfl⟩

theorem legible_of_entries {fields : Assoc Json} (h : entries d p = .ok fields) :
    Json.Legible Json.maxNesting (.object fields) := by
  cases hfind : d.find p with
  | error cause =>
    rcases entries_of_not_found hfind with ⟨_,hnone⟩ | ⟨_,e,he,_⟩
    · rw [hnone] at h
      obtain rfl := Except.ok.inj h
      exact .object List.nodup_nil (List.forall_mem_nil _) (List.forall_mem_nil _)
    · rw [he] at h
      cases h
  | ok found =>
    obtain ⟨l,_ | _⟩ := found
    · rw [entries_of_file hfind] at h
      exact legible_of_contents h
    · obtain ⟨e,he,_⟩ := entries_of_directory hfind
      rw [he] at h
      cases h

/-- What can be read at the place of a file, as long as the system lets it be read: without a file
there are no entries, and else the bytes tell them. -/
def Holds (p : Path) (r : Except Fault (Assoc Json)) (d : Disk) : Prop :=
  (r = .ok [] ∧ (d.at? (d.target p) = none ∨ d.at? (d.target p) = some .directory)) ∨
    ∃ bytes, d.find p = .ok (d.target p,.file bytes) ∧ r = contents p.text bytes

variable {r : Except Fault (Assoc Json)}

/-- What a file holds is read there, or there is an outage. A directory in its place cannot be read,
which is an outage and no content. -/
theorem Holds.entries (h : Holds p r d) :
    entries d p = r ∨ ∃ e, entries d p = .error e ∧ e.isOutage = true := by
  rcases h with ⟨rfl,hplace⟩ | ⟨bytes,hfind,rfl⟩
  · cases hfind : d.find p with
    | error cause => exact (entries_of_not_found hfind).imp And.right And.right
    | ok found =>
      obtain ⟨l,e⟩ := found
      obtain ⟨hlocate,hat⟩ := locate_of_find hfind
      rw [locate_eq hlocate] at hat
      rcases hplace with hplace | hplace <;> rw [hplace] at hat
      · cases hat
      · obtain rfl := Option.some_inj.mp hat
        exact Or.inr (entries_of_directory hfind)
  · exact Or.inl (entries_of_file hfind)

/-- What leaves the place of a file alone leaves what can be read there. A file that is there is no
place where a directory could be made. -/
theorem Holds.spares (h : Holds p r d) (hs : Spares (d.target p) d d') : Holds p r d' := by
  have htarget := target_congr hs.current p
  rcases h with ⟨rfl,hplace⟩ | ⟨bytes,hfind,rfl⟩
  · refine Or.inl ⟨rfl,?_⟩
    rw [htarget]
    rcases hs.place with hsame | ⟨_,hmade⟩
    · rwa [hsame]
    · exact Or.inr hmade
  · obtain ⟨hlocate,hat⟩ := locate_of_find hfind
    have hkept : d'.at? (d.target p) = some (.file bytes) := by
      rcases hs.place with hsame | ⟨hnone,_⟩
      · rw [hsame, hat]
      · rw [hat] at hnone
        cases hnone
    refine Or.inr ⟨bytes,?_,rfl⟩
    rw [find_of_locate (locate_mono hs.current hs.directories hlocate), hkept, htarget]

theorem Holds.replaced (h : Replaced p bytes d d') : Holds p (contents p.text bytes) d' := by
  refine Or.inr ⟨bytes,?_,rfl⟩
  rw [h.found, target_congr h.current p]

/-- What an entry counts as: a string is its text, null is nothing. -/
def heldText (key path : Text) : Option Json → Except Fault (Option Text)
  | none | some .null => .ok none
  | some (.string t) => .ok (some t)
  | some value => .error (.storage (.notText key path value.kindName))

theorem entry_eq (d : Disk) (p : Path) (key : Text) :
    entry d p key =
      (File.entries d p).bind fun fields => heldText key p.text (fields.get? key) := by
  rw [entry]
  cases File.entries d p with
  | error e => rfl
  | ok fields =>
    dsimp only [bind, Except.bind]
    cases fields.get? key with
    | none => rfl
    | some value => cases value <;> rfl

/-- To get an entry is to read it, which changes nothing. -/
theorem get_eq {options : FileOptions} (hp : checkPath options.path = .ok ())
    (key : Text) (d : Disk) :
    File.get options key d = ⟨entry d options.path key,d,[]⟩ := by
  rw [File.get, hp]
  rfl

/-- Reading an entry of a path that the system can take. -/
theorem Holds.get (options : FileOptions) (hp : checkPath options.path = .ok ())
    (h : Holds options.path r d) (key : Text) :
    (File.get options key d).world = d ∧
      ((File.get options key d).result =
          r.bind (fun fields => heldText key options.path.text (fields.get? key)) ∨
        ∃ e, (File.get options key d).result = .error e ∧ e.isOutage = true) := by
  rw [get_eq hp, entry_eq]
  refine ⟨rfl,?_⟩
  rcases h.entries with hentries | ⟨e,hentries,he⟩ <;> rw [hentries]
  · exact Or.inl rfl
  · exact Or.inr ⟨e,rfl,he⟩

end Entries

def settled (fields : Assoc Json) : Assoc Json :=
  (Assoc.sorted (fields.map fun field => (field.1,field.2.sortNames))).map
    fun field => (field.1,field.2.reread)

theorem settled_object (fields : Assoc Json) :
    (Json.object fields).sortNames.reread = .object (settled fields) := by
  rw [Json.sortNames_object, Json.reread_object, settled]

section Writable

variable {depth : Nat} {fields : Assoc Json}

theorem distinct_of_writable (h : Json.Writable depth (.object fields)) :
    (Assoc.names fields).Nodup := by
  cases h with
  | scalar hv _ => cases hv
  | object hdistinct _ _ => exact hdistinct

theorem within_put {scalar : Json → Prop} {name : Text → Prop}
    (h : Json.Within scalar name depth (.object fields)) {key value : Text} (hkey : name key)
    (hvalue : scalar (.string value)) :
    Json.Within scalar name depth (.object (fields.put key (.string value))) := by
  cases h with
  | scalar hv _ => cases hv
  | object hdistinct hnames hvalues =>
    refine .object (Assoc.nodup_names_put _ _ _ hdistinct) ?_ ?_
    · intro field hfield
      rcases Assoc.mem_of_mem_put hfield with rfl | hfield
      · exact hkey
      · exact hnames field hfield
    · intro field hfield
      rcases Assoc.mem_of_mem_put hfield with rfl | hfield
      · exact .scalar rfl hvalue
      · exact hvalues field hfield

/-- Entries that can be written stay so when a text with bytes is put under a key with bytes. -/
theorem writable_put (h : Json.Writable depth (.object fields)) {key value : Text}
    (hkey : key.isEncodable = true) (hvalue : value.isEncodable = true) :
    Json.Writable depth (.object (fields.put key (.string value))) :=
  within_put h hkey ⟨trivial,hvalue⟩

theorem within_erase {scalar : Json → Prop} {name : Text → Prop}
    (h : Json.Within scalar name depth (.object fields)) (key : Text) :
    Json.Within scalar name depth (.object (fields.erase key)) := by
  cases h with
  | scalar hv _ => cases hv
  | object hdistinct hnames hvalues =>
    exact .object (hdistinct.sublist (Assoc.names_filter_sublist _ fields))
      (fun field hfield => hnames field (List.mem_of_mem_filter hfield))
      fun field hfield => hvalues field (List.mem_of_mem_filter hfield)

/-- Entries that can be written stay so when one is erased. -/
theorem writable_erase (h : Json.Writable depth (.object fields)) (key : Text) :
    Json.Writable depth (.object (fields.erase key)) := within_erase h key

/-- Entries that come back from a file can be written again. -/
theorem writable_settled (h : Json.Writable depth (.object fields)) :
    Json.Writable depth (.object (settled fields)) := by
  rw [← settled_object]
  exact Json.Writable.reread (Json.Within.sortNames h)

end Writable

/-- An entry that comes back from a file is found under its key. -/
theorem get?_settled (key : Text) {fields : Assoc Json} (h : (Assoc.names fields).Nodup) :
    (settled fields).get? key = (fields.get? key).map fun value => value.sortNames.reread := by
  have hsorted : (Assoc.names (fields.map fun field => (field.1,field.2.sortNames))).Nodup := by
    rwa [Assoc.names_map_snd]
  rw [settled, Assoc.get?_map_snd, Assoc.get?_sorted _ _ hsorted, Assoc.get?_map_snd,
    Option.map_map]
  rfl

/-- Chunks of a text without single surrogates are written to the end. -/
theorem encodeChunks_eq {chunks : List Text} (h : Text.isEncodable chunks.flatten = true) :
    encodeChunks chunks = (chunks.flatten.flatMap Utf8.bytesOf,none) := by
  induction chunks with
  | nil => rfl
  | cons chunk rest ih =>
    rw [List.flatten_cons, Text.isEncodable, List.all_append, Bool.and_eq_true] at h
    rw [encodeChunks, Utf8.encode_eq h.1, ih h.2, List.flatten_cons, List.flatMap_append]

/-- Chunks that are written to the end have no single surrogates. -/
theorem isEncodable_of_encodeChunks {chunks : List Text} (h : (encodeChunks chunks).2 = none) :
    Text.isEncodable chunks.flatten = true := by
  induction chunks with
  | nil => rfl
  | cons chunk rest ih =>
    rw [encodeChunks] at h
    split at h
    · cases h
    · next bytes hbytes =>
      rw [List.flatten_cons, Text.isEncodable, List.all_append, Bool.and_eq_true]
      exact ⟨Utf8.isEncodable_of_encode hbytes,ih h⟩

theorem isBlank_writePage (fields : Assoc Json) :
    Text.isBlank (Json.writePage (.object fields)) = false := by
  have hbrace (rest : Text) : Text.isBlank (CodePoint.ofChar '\x7b' :: rest) = false := rfl
  have hpage : Json.writePage (.object fields) = Json.pageAt 0 (Json.object fields).sortNames := rfl
  rw [hpage, Json.sortNames_object]
  generalize Assoc.sorted (fields.map fun field => (field.1,field.2.sortNames)) = sorted
  cases sorted with
  | nil => rfl
  | cons field rest =>
    rw [Json.pageAt_object 0 (List.cons_ne_nil field rest)]
    exact hbrace _

/-- A file that was written keeps what it was written for. -/
theorem contents_written {fields : Assoc Json} (h : Json.Writable Json.maxNesting (.object fields))
    (path : Text) :
    (encodeChunks (Json.pageChunks (.object fields))).2 = none ∧
      contents path (encodeChunks (Json.pageChunks (.object fields))).1 = .ok (settled fields) := by
  have hkept : Json.IsKept (Json.writePage (.object fields)) :=
    Json.isKept_pageAt (Json.Within.sortNames h) 0
  have hencodable : Text.isEncodable (Json.writePage (.object fields)) = true := hkept.isEncodable
  rw [encodeChunks_eq hencodable]
  refine ⟨rfl,?_⟩
  rw [contents, ← Json.writePage, Utf8.decode_flatMap hencodable]
  dsimp only
  rw [hkept.unifyLineEnds_eq_self, isBlank_writePage, if_neg Bool.false_ne_true,
    Json.read_writePage h, settled_object]

end Store.File

end CategorySelection
