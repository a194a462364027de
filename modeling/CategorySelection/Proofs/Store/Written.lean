import CategorySelection.Proofs.Json.Sorted
import CategorySelection.Proofs.Store.Map
/-!
The bytes of a file that was written. A change that is done leaves the page of the entries that it
leads to, whatever order the file had them in, and a call that writes nothing leaves the bytes as
they were.
-/

namespace CategorySelection

namespace Store

def Call.edit : Call → Assoc Json → Assoc Json
  | .get _, fields => fields
  | .set key value, fields => fields.put key (.string value)
  | .remove key, fields => fields.erase key

def Call.writes : Call → Assoc Json → Bool
  | .get _, _ => false
  | .set _ _, _ => true
  | .remove key, fields => fields.has key

def Call.isChange : Call → Bool
  | .get _ => false
  | _ => true

theorem edit_of_not_writes {call : Call} {fields : Assoc Json} (h : call.writes fields = false) :
    call.edit fields = fields := by
  cases call with
  | get key => rfl
  | set key value => cases h
  | remove key =>
    exact Assoc.erase_eq_self (by rw [Call.writes] at h; rw [h]; exact Bool.false_ne_true)

namespace File

open Disk

def pageBytes (fields : Assoc Json) : List UInt8 :=
  (encodeChunks (Json.pageChunks (.object fields))).1

section Exact

variable {fields others : Assoc Json} {depth : Nat}

theorem distinct_of_exact (h : Json.Exact depth (.object fields)) : (Assoc.names fields).Nodup :=
  distinct_of_writable h.writable

theorem settled_of_exact (h : Json.Exact depth (.object fields)) :
    Json.object (settled fields) = (Json.object fields).sortNames := by
  rw [← settled_object, h.sortNames_reread]

/-- Entries that come back from a file are exact if they were. -/
theorem exact_settled (h : Json.Exact depth (.object fields)) :
    Json.Exact depth (.object (settled fields)) := by
  rw [settled_of_exact h]
  exact Json.Within.sortNames h

/-- Entries stay exact when a text with bytes is put under a key with bytes. -/
theorem exact_put (h : Json.Exact depth (.object fields)) {key value : Text}
    (hkey : key.isEncodable = true) (hvalue : value.isEncodable = true) :
    Json.Exact depth (.object (fields.put key (.string value))) :=
  within_put h hkey ⟨⟨trivial,hvalue⟩,rfl⟩

/-- Being written to a file and read from there changes entries in their order only. -/
theorem alike_settled (h : Json.Exact depth (.object fields)) :
    Json.Alike (settled fields) fields := by
  intro key
  rw [get?_settled key (distinct_of_exact h), Option.map_map]
  cases hfound : fields.get? key with
  | none => rfl
  | some value =>
    cases h with
    | scalar hv _ => cases hv
    | object _ _ hvalues =>
      have hvalue := hvalues (key,value) (Assoc.mem_of_get?_eq_some hfound)
      have hreread := Json.Exact.sortNames_reread hvalue
      have hsorted := Json.sortNames_sortNames hvalue
      dsimp only at hreread hsorted
      rw [Option.map_some, Option.map_some, Function.comp_apply, hreread, hsorted]

theorem pageBytes_eq (h : Json.Alike fields others) (hf : (Assoc.names fields).Nodup)
    (ho : (Assoc.names others).Nodup) : pageBytes fields = pageBytes others := by
  rw [pageBytes, pageBytes, h.pageChunks_eq hf ho]

end Exact

section Bytes

variable {options : FileOptions} {p : Path} {d d' : Disk} {fields : Assoc Json} {changes : Nat}

theorem readBytes_of_find {l : Location} {bytes : List UInt8} (h : d.find p = .ok (l,.file bytes)) :
    d.readBytes p = .ok bytes := by
  rw [readBytes, h]
  rfl

theorem find_of_readBytes {bytes : List UInt8} (h : d.readBytes p = .ok bytes) :
    d.find p = .ok (d.target p,.file bytes) := by
  cases hfind : d.find p with
  | error cause =>
    rw [readBytes, hfind] at h
    cases h
  | ok found =>
    obtain ⟨l,e⟩ := found
    obtain rfl := locate_eq (locate_of_find hfind).1
    cases e with
    | file held =>
      rw [readBytes_of_find hfind] at h
      rw [Except.ok.inj h]
    | directory =>
      rw [readBytes, hfind] at h
      cases h

/-- What leaves the place of a file alone leaves its bytes. -/
theorem readBytes_of_spares (h : Spares (d.target p) d d') {bytes : List UInt8}
    (hbytes : d.readBytes p = .ok bytes) : d'.readBytes p = .ok bytes := by
  obtain ⟨hlocate,hat⟩ := locate_of_find (find_of_readBytes hbytes)
  have hlocate' := locate_mono h.current h.directories hlocate
  rcases h.place with hsame | ⟨hnone,_⟩
  · rw [hat] at hsame
    have hfind : d'.find p = .ok (d.target p,.file bytes) := by rw [find_of_locate hlocate', hsame]
    exact readBytes_of_find hfind
  · rw [hat] at hnone
    cases hnone

/-- Writing leaves the bytes of the page, since both ends that leave the file alone are faults. -/
theorem Serves.write_bytes (hp : p.name ≠ []) (h : Serves p (changes+1) d)
    (hencode : (encodeChunks (Json.pageChunks (.object fields))).2 = none) :
    (File.write p fields d).world.readBytes p = .ok (pageBytes fields) := by
  have hdone := (h.write hp hencode).1
  rcases write_cases hp fields d with ⟨e,hresult,_⟩ | ⟨e,_,hresult,_⟩ | ⟨_,_,hreplaced⟩
  · rw [hresult] at hdone
    cases hdone
  · rw [hresult] at hdone
    cases hdone
  · exact readBytes_of_find hreplaced.found

theorem Serves.change_bytes (hp : options.path.NamesFile) (h : Serves options.path (changes+1) d)
    (hholds : Holds options.path (.ok fields) d) {edit : Assoc Json → Option (Assoc Json)}
    {changed : Assoc Json} (hedit : edit fields = some changed)
    (hwritable : Json.Writable Json.maxNesting (.object changed)) :
    (File.change options edit d).world.readBytes options.path = .ok (pageBytes changed) := by
  obtain ⟨d₁,hserves,hchange⟩ := h.change_eq hp hholds edit
  rw [hedit] at hchange
  obtain ⟨_,hworld⟩ := hchange
  rw [hworld]
  exact hserves.write_bytes hp.named (contents_written hwritable options.path.text).1

/-- Setting an entry leaves the bytes of the changed map. -/
theorem Ready.set_bytes (hp : options.path.NamesFile) (h : Ready options.path (changes+1) d)
    (hholds : Holds options.path (.ok fields) d) {key value : Text}
    (hwritable : Json.Writable Json.maxNesting (.object (fields.put key (.string value)))) :
    (File.set options key value d).world.readBytes options.path =
      .ok (pageBytes (fields.put key (.string value))) := by
  obtain ⟨d₁,hserves,hholds₁,_,hworld⟩ := h.set_eq hp hholds key value
  rw [hworld]
  exact hserves.change_bytes hp hholds₁ rfl hwritable

theorem find_of_entry (hholds : Holds p (.ok fields) d) {key : Text}
    (hhas : fields.has key = true) :
    ∃ bytes, d.find p = .ok (d.target p,.file bytes) := by
  rcases hholds with ⟨hnone,_⟩ | ⟨bytes,hfind,_⟩
  · obtain rfl := Except.ok.inj hnone
    cases hhas
  · exact ⟨bytes,hfind⟩

/-- Removing an entry that is there leaves the bytes of the changed map. -/
theorem Ready.remove_bytes (hp : options.path.NamesFile) (h : Ready options.path (changes+1) d)
    (hholds : Holds options.path (.ok fields) d) {key : Text} (hhas : fields.has key = true)
    (hwritable : Json.Writable Json.maxNesting (.object (fields.erase key))) :
    (File.remove options key d).world.readBytes options.path =
      .ok (pageBytes (fields.erase key)) := by
  obtain ⟨bytes,hfind⟩ := find_of_entry hholds hhas
  have hthere : d.has options.path = .ok true := by
    rw [Disk.has, look, hp.usable, hfind]
    rfl
  have herasing : erasing key fields = some (fields.erase key) := if_pos hhas
  rw [remove_eq]
  simp only [Action.bind_apply, Action.world_apply, Action.ofExcept_apply, hthere]
  rcases h with hserves | ⟨hmissing,_⟩
  · exact hserves.change_bytes hp hholds herasing hwritable
  · rw [hfind] at hmissing
    cases hmissing

/-- Without an entry to take away, no file is written. -/
theorem spares_remove_of_absent (hp : options.path.NamesFile)
    (hholds : Holds options.path (.ok fields) d) {key : Text} (hhas : fields.has key = false) :
    Spares (d.target options.path) d (File.remove options key d).world := by
  have herasing : erasing key fields = none := if_neg (by rw [hhas]; exact Bool.false_ne_true)
  rw [remove_eq]
  simp only [Action.bind_apply, Action.world_apply, Action.ofExcept_apply]
  cases d.has options.path with
  | error cause => exact .refl _ d
  | ok there =>
    cases there with
    | false => exact .refl _ d
    | true =>
      rcases change_cases hp (erasing key) d with ⟨_,_,_,hspares⟩ | ⟨d₁,hspares,hchange⟩
      · exact hspares
      · have hworld : (File.change options (erasing key) d).world = d₁ := by
          rcases (hholds.spares hspares).entries with hentries | ⟨e,hentries,_⟩ <;>
            rw [hchange, hentries]
          dsimp only
          rw [herasing]
        rw [← hworld] at hspares
        exact hspares

end Bytes

def Stands (path : Path) (ideal : Assoc Json) (d : Disk) : Prop :=
  (Assoc.names ideal).Nodup ∧ ∃ fields, Holds path (.ok fields) d ∧
    Json.Exact Json.maxNesting (.object fields) ∧ Json.Alike fields ideal

/-- How a call of a history ends: a change gives nothing, the file has the entries that the call
leads to, its bytes are the page of these once it was written, and as long as it was not, it stays
as it was. -/
structure Advances (path : Path) (changes : Nat) (call : Call) (ideal : Assoc Json) (d : Disk)
    (after : Outcome Disk (Option Text)) : Prop where
  result : call.isChange = true → after.result = .ok none
  ready : Ready path changes after.world
  stands : Stands path (call.edit ideal) after.world
  written : call.writes ideal = true →
    after.world.readBytes path = .ok (pageBytes (call.edit ideal))
  kept : call.writes ideal = false → ∀ bytes, d.readBytes path = .ok bytes →
    after.world.readBytes path = .ok bytes

section Step

variable {options : FileOptions} {d : Disk} {ideal : Assoc Json} {changes : Nat}

theorem advances_get (hp : options.path.NamesFile) (h : Stands options.path ideal d)
    (hready : Ready options.path (changes+1) d) (key : Text) :
    Advances options.path changes (.get key) ideal d ((Call.get key).apply (file options) d) := by
  obtain ⟨_,fields,hholds,_⟩ := id h
  have hworld : ((Call.get key).apply (file options) d).world = d :=
    (hholds.get options hp.usable key).1
  constructor
  case result =>
    intro hchange
    cases hchange
  case written =>
    intro hwrites
    cases hwrites
  all_goals rw [hworld]
  case ready => exact hready.lower (Nat.le_succ changes)
  case stands => exact h
  case kept => exact fun _ _ hbytes => hbytes

/-- Setting writes the changed map. The page is written from what the file had, which is the map
only up to order. -/
theorem advances_set (hp : options.path.NamesFile) (h : Stands options.path ideal d)
    (hready : Ready options.path (changes+1) d) {key value : Text} (hkey : key.isEncodable = true)
    (hvalue : value.isEncodable = true) :
    Advances options.path changes (.set key value) ideal d
      ((Call.set key value).apply (file options) d) := by
  obtain ⟨hideal,fields,hholds,hexact,halike⟩ := h
  have hput := exact_put hexact hkey hvalue
  have hchanged := halike.put key (.string value)
  have hdistinct : (Assoc.names (ideal.put key (.string value))).Nodup :=
    Assoc.nodup_names_put key _ ideal hideal
  obtain ⟨hresult,hafter⟩ := hready.set hp hholds key hput.writable
  have hbytes := hready.set_bytes hp hholds hput.writable
  rw [pageBytes_eq hchanged (distinct_of_exact hput) hdistinct] at hbytes
  have hheld : Holds options.path (.ok (settled (fields.put key (.string value))))
      (File.set options key value d).world := by
    refine (edits_set hp hholds key fun others hothers => ?_).holds hresult
    rw [← Except.ok.inj hothers]
    exact hput.writable
  have hresult' : ((Call.set key value).apply (file options) d).result = .ok none := by
    dsimp only [Call.apply, file]
    rw [result_silently, hresult]
    rfl
  have hworld : ((Call.set key value).apply (file options) d).world =
      (File.set options key value d).world :=
    world_silently _ d
  constructor
  case result => exact fun _ => hresult'
  case kept =>
    intro hwrites
    cases hwrites
  all_goals rw [hworld]
  case ready => exact hafter
  case stands =>
    exact ⟨hdistinct,_,hheld,exact_settled hput,(alike_settled hput).trans hchanged⟩
  case written => exact fun _ => hbytes

/-- Removing writes the changed map if the key is there; if not, the entries are not settled by
being written. -/
theorem advances_remove (hp : options.path.NamesFile) (h : Stands options.path ideal d)
    (hready : Ready options.path (changes+1) d) (key : Text) :
    Advances options.path changes (.remove key) ideal d
      ((Call.remove key).apply (file options) d) := by
  obtain ⟨hideal,fields,hholds,hexact,halike⟩ := h
  have herase : Json.Exact Json.maxNesting (.object (fields.erase key)) := within_erase hexact key
  have hchanged := halike.erase key
  have hdistinct : (Assoc.names (ideal.erase key)).Nodup :=
    hideal.sublist (Assoc.names_filter_sublist _ ideal)
  obtain ⟨hresult,hafter⟩ := hready.remove hp hholds key herase.writable
  have hheld : Holds options.path (.ok (edited (erasing key) fields))
      (File.remove options key d).world := by
    refine (edits_remove hp hholds key fun others hothers => ?_).holds hresult
    rw [← Except.ok.inj hothers]
    exact herase.writable
  have hedited : Json.Exact Json.maxNesting (.object (edited (erasing key) fields)) ∧
      Json.Alike (edited (erasing key) fields) (ideal.erase key) := by
    rcases edited_erasing key fields with hsame | hsame <;> rw [hsame]
    · exact ⟨exact_settled herase,(alike_settled herase).trans hchanged⟩
    · exact ⟨herase,hchanged⟩
  have hresult' : ((Call.remove key).apply (file options) d).result = .ok none := by
    dsimp only [Call.apply, file]
    rw [result_silently, hresult]
    rfl
  have hworld : ((Call.remove key).apply (file options) d).world =
      (File.remove options key d).world :=
    world_silently _ d
  constructor
  case result => exact fun _ => hresult'
  all_goals rw [hworld]
  case ready => exact hafter
  case stands => exact ⟨hdistinct,_,hheld,hedited⟩
  case written =>
    intro hwrites
    have hhas : fields.has key = true := (halike.has_eq key).trans hwrites
    have hbytes := hready.remove_bytes hp hholds hhas herase.writable
    rwa [pageBytes_eq hchanged (distinct_of_exact herase) hdistinct] at hbytes
  case kept =>
    intro hwrites bytes hbytes
    have hhas : fields.has key = false := (halike.has_eq key).trans hwrites
    exact readBytes_of_spares (spares_remove_of_absent hp hholds hhas) hbytes

/-- One call of a history. -/
theorem advances (options : FileOptions) (hp : options.path.NamesFile)
    (h : Stands options.path ideal d) (hready : Ready options.path (changes+1) d) {call : Call}
    (hcall : call.isEncodable = true) :
    Advances options.path changes call ideal d (call.apply (file options) d) := by
  cases call with
  | get key => exact advances_get hp h hready key
  | set key value =>
    rw [Call.isEncodable, Bool.and_eq_true] at hcall
    exact advances_set hp h hready hcall.1 hcall.2
  | remove key => exact advances_remove hp h hready key

end Step

end File

end Store

end CategorySelection
