import CategorySelection.Proofs.Catalog.Returns
import CategorySelection.Proofs.Store.Serving
/-!
Catalogs over files. A file whose bytes are not the JSON object that they should be does a catalog
no harm, and neither does a system that refuses to read, lock, write or move a file. Harm is done by
a file that the reader refuses for its size, and by one with single surrogates, which cannot be
written anew.
-/

namespace CategorySelection

namespace Store.File

open Disk Catalog

variable {options : FileOptions} {key : Text} {d : Disk} {r : Except Fault (Assoc Json)}

/-- What may be read from a file: a fault that stores show, or entries without single surrogates in
which the text under the key is not refused for its size. -/
def Bearable (key : Text) : Except Fault (Assoc Json) → Prop
  | .error e => e.kind.isUnavailable = true
  | .ok fields => (Json.object fields).every Json.isEncodable Text.isEncodable = true ∧
    ∀ raw, fields.get? key = some (.string raw) → (decode raw).isOk = true

def Rewritable (key : Text) : Except Fault (Assoc Json) → Prop
  | .error e => e.kind.isUnavailable = true
  | .ok fields => Json.Writable Json.maxNesting (.object fields) ∧
    ∀ raw, fields.get? key = some (.string raw) → (decode raw).isOk = true

/-- Entries that were read are within the limits of the reader. -/
theorem legible_of_holds {fields : Assoc Json} {p : Path} (h : Holds p (.ok fields) d) :
    Json.Legible Json.maxNesting (.object fields) := by
  rcases h with ⟨hnone,_⟩ | ⟨bytes,_,hcontents⟩
  · rw [Except.ok.inj hnone]
    exact .object List.nodup_nil (List.forall_mem_nil _) (List.forall_mem_nil _)
  · exact legible_of_contents hcontents.symm

/-- What may be read can be written anew, for entries without single surrogates have bytes. -/
theorem Bearable.rewritable {p : Path} (h : Bearable key r) (hholds : Holds p r d) :
    Rewritable key r := by
  cases r with
  | error e => exact h
  | ok fields => exact ⟨(legible_of_holds hholds).writable h.1,h.2⟩

/-- The faults of the system and of the lock are those that stores show when they cannot be used. -/
theorem isUnavailable_of_isOutage {e : Fault} (h : e.isOutage = true) :
    e.kind.isUnavailable = true := by
  cases e with
  | storage fault => cases fault <;> rfl
  | system fault =>
    obtain ⟨cause,_,_⟩ := fault
    cases cause <;> rfl
  | _ => cases h

/-- An edit of a file is tolerable: one that is refused leaves what may be read, and one that is
done leaves the edited entries. -/
theorem Rewritable.tolerable_of_edits {p : Path} {f : Assoc Json → Assoc Json}
    {o : Outcome Disk Unit} (h : Rewritable key r) (hedits : Edits p f r o)
    (hf : ∀ fields, Rewritable key (.ok fields) → Rewritable key (.ok (f fields))) :
    o.IsTolerable fun d => ∃ r, Holds p r d ∧ Rewritable key r := by
  rcases hedits with ⟨e,hresult,he,hholds⟩ | ⟨hresult,hholds⟩
  · refine ⟨⟨r,hholds,h⟩,fun fault hfault => ?_⟩
    rw [hresult] at hfault
    rw [← Except.error.inj hfault]
    exact isUnavailable_of_isOutage he
  · cases r with
    | error e =>
      refine ⟨⟨_,hholds,h⟩,fun fault hfault => ?_⟩
      rw [hresult] at hfault
      rw [← Except.error.inj hfault]
      exact h
    | ok fields =>
      refine ⟨⟨_,hholds,hf fields h⟩,fun fault hfault => ?_⟩
      rw [hresult] at hfault
      cases hfault

/-- Entries can be written anew with names of categories among them. -/
theorem rewritable_put (hkey : key.isEncodable = true) {names : List Text} (hnames : AllNamed names)
    (fields : Assoc Json) (h : Rewritable key (.ok fields)) :
    Rewritable key (.ok (settled (fields.put key (.string (encode names))))) := by
  have hput := writable_put h.1 hkey (isEncodable_encode names)
  refine ⟨writable_settled hput,fun raw hraw => ?_⟩
  rw [get?_settled key (distinct_of_writable hput), Assoc.get?_put, if_pos rfl] at hraw
  obtain rfl := Json.string.inj (Option.some_inj.mp hraw)
  rw [decode_encode hnames]
  rfl

theorem rewritable_erase (fields : Assoc Json) (h : Rewritable key (.ok fields)) :
    Rewritable key (.ok (edited (erasing key) fields)) := by
  have herase := writable_erase h.1 key
  have hnone : (fields.erase key).get? key = none := by rw [Assoc.get?_erase, if_pos rfl]
  rcases edited_erasing key fields with hsame | hsame <;> rw [hsame]
  · refine ⟨writable_settled herase,fun raw hraw => ?_⟩
    rw [get?_settled key (distinct_of_writable herase), hnone] at hraw
    cases hraw
  · refine ⟨herase,fun raw hraw => ?_⟩
    rw [hnone] at hraw
    cases hraw

theorem eq_string_of_heldText {path raw : Text} {entry : Option Json}
    (h : heldText key path entry = .ok (some raw)) : entry = some (.string raw) := by
  cases entry with
  | none => cases h
  | some value =>
    cases value with
    | string t => rw [Option.some_inj.mp (Except.ok.inj h)]
    | _ => cases h

/-- An entry that is no text is refused as stores refuse when they cannot be used. -/
theorem isUnavailable_of_heldText {path : Text} {entry : Option Json} {e : Fault}
    (h : heldText key path entry = .error e) : e.kind.isUnavailable = true := by
  cases entry with
  | none => cases h
  | some value => cases value <;> cases h <;> rfl

/-- A file bears a catalog if it may be read and written anew, whatever the system does. -/
theorem bears_catalog (hkey : key.isEncodable = true) (hp : options.path.NamesFile) :
    (file options).Bears key fun d => ∃ r, Holds options.path r d ∧ Rewritable key r where
  get := by
    rintro d ⟨r,hholds,h⟩
    obtain ⟨hworld,hresult⟩ := hholds.get options hp.usable key
    refine ⟨⟨r,hworld.symm ▸ hholds,h⟩,fun e he => ?_⟩
    have he : (File.get options key d).result = .error e := he
    rcases hresult with hresult | ⟨fault,hresult,hfault⟩ <;> rw [hresult] at he
    · cases r with
      | error cause =>
        rw [← Except.error.inj he]
        exact h
      | ok fields => exact isUnavailable_of_heldText he
    · rw [← Except.error.inj he]
      exact isUnavailable_of_isOutage hfault
  raw := by
    rintro d raw ⟨r,hholds,h⟩ hraw
    have hraw : (File.get options key d).result = .ok (some raw) := hraw
    obtain ⟨_,hresult | ⟨fault,hresult,_⟩⟩ := hholds.get options hp.usable key <;>
      rw [hresult] at hraw
    · cases r with
      | error cause => cases hraw
      | ok fields => exact h.2 raw (eq_string_of_heldText hraw)
    · cases hraw
  set := by
    rintro names d hnames ⟨r,hholds,h⟩
    refine h.tolerable_of_edits (edits_set hp hholds key ?_) (rewritable_put hkey hnames)
    rintro fields rfl
    exact writable_put h.1 hkey (isEncodable_encode names)
  remove := by
    rintro d ⟨r,hholds,h⟩
    refine h.tolerable_of_edits (edits_remove hp hholds key ?_) rewritable_erase
    rintro fields rfl
    exact writable_erase h.1 key

end Store.File

namespace Catalog

/-- The operations of a catalog return, whatever is done with it one after the other, and loading
gives the default names unless the store gives an array of strings: over any store that bears the
catalog, over a table whose text under the key is not refused for its size, and over a file that may
be read and has no single surrogates, whatever calls the system refuses. A text that is refused for
its size ends a load, and a file that cannot be written anew ends a save. -/
theorem operations_return (key : Text) (seeds : List Text) :
    (∀ (σ : Type) (store : Store σ) (usable : σ → Prop), store.Bears key usable → ∀ w, usable w →
      Unfailing ⟨store,key,seeds.filter Category.isName⟩ w) ∧
    (∀ table : Assoc Text, (∀ raw, table.get? key = some raw → (decode raw).isOk = true) →
      Unfailing ⟨Store.memory,key,seeds.filter Category.isName⟩ table) ∧
    (key.isEncodable = true → ∀ options : Store.FileOptions, options.path.NamesFile →
      ∀ (d : Disk) (r : Except Fault (Assoc Json)), Store.File.Holds options.path r d →
        Store.File.Bearable key r →
        Unfailing ⟨Store.file options,key,seeds.filter Category.isName⟩ d) ∧
    (∀ (σ : Type) (store : Store σ) (w : σ) (raw : Text) (e : Fault),
      (store.get key w).result = .ok (some raw) → decode raw = .error e →
        (load ⟨store,key,seeds.filter Category.isName⟩ w).result = .error e) ∧
    (∀ options : Store.FileOptions, options.path.NamesFile → ∀ (d : Disk) (fields : Assoc Json),
      Store.File.Ready options.path 1 d → Store.File.Holds options.path (.ok fields) d →
        ∀ (names : List Text) (e : Utf8.EncodeFault),
          (Store.File.encodeChunks (Json.pageChunks
            (.object (fields.put key (.string (encode names)))))).2 = some e →
          (save ⟨Store.file options,key,seeds.filter Category.isName⟩ names d).result =
            .error (.encoding e)) := by
  have hseeds : AllNamed (seeds.filter Category.isName) := fun _ h => (List.mem_filter.mp h).2
  refine ⟨?_,?_,?_,?_,?_⟩
  · intro σ store usable hs w hw
    exact unfailing_of_bears hs hseeds hw
  · intro table htable
    exact unfailing_of_bears (bears_memory key) hseeds htable
  · intro hkey options hp d r hholds h
    exact unfailing_of_bears (Store.File.bears_catalog hkey hp) hseeds ⟨r,hholds,
      h.rewritable hholds⟩
  · intro σ store w raw e hraw hd
    rcases hget : store.get key w with ⟨result,w',log⟩
    rw [hget] at hraw
    obtain rfl : result = .ok (some raw) := hraw
    let catalog : Catalog σ := ⟨store,key,seeds.filter Category.isName⟩
    have hload : ∃ log', catalog.load w = ⟨.error e,w',log'⟩ := load_of_refused hget hd
    obtain ⟨log',hload⟩ := hload
    exact congrArg Outcome.result hload
  · intro options hp d fields hready hholds names e hencode
    have hset := hready.set_of_fault hp hholds key (encode names) hencode
    exact Action.rescue_of_uncaught hset rfl

section Example

open Store.File

def arrayBytes : List UInt8 := (Text.ofString "[1]").flatMap Utf8.bytesOf

/-- Every operation returns over a table whose text under the key is not JSON, be it that the store
can be written or not, and over a file that is not an object. -/
theorem operations_return_over_nonsense :
    let key := Text.ofString "k"
    let seeds : List Text := [Text.ofString "Smoke"].filter Category.isName
    let table : Assoc Text := [(key,Text.ofString "[1")]
    let full : Store.Outage := ⟨none,some (.foreign .system (Text.ofString "full")),none⟩
    Unfailing ⟨Store.memory.withOutage,key,seeds⟩ (table,full) ∧
      Unfailing ⟨Store.memory,key,seeds⟩ table ∧
      Unfailing ⟨Store.file ⟨onlyPath,.ofInt 5⟩,key,seeds⟩ (onlyFile arrayBytes) := by
  intro key seeds table full
  obtain ⟨hstore,hmemory,hfile,_⟩ := operations_return key [Text.ofString "Smoke"]
  have htable : ∀ raw, table.get? key = some raw → (decode raw).isOk = true := by
    intro raw hraw
    rw [← Option.some_inj.mp hraw]
    decide +kernel
  have hcontents : contents onlyPath.text arrayBytes =
      .error (.storage (.notObject onlyPath.text (Text.ofString "list"))) := by cbv
  have hholds := holds_onlyFile arrayBytes
  rw [hcontents] at hholds
  exact ⟨hstore _ _ _ (bears_memory key).withOutage (table,full) ⟨htable,by decide⟩,
    hmemory table htable,hfile (by decide) ⟨onlyPath,.ofInt 5⟩ namesFile_onlyPath _ _ hholds rfl⟩

def surrogateBytes : List UInt8 := (Text.ofString "\x7b\"a\": \"\\ud800\"\x7d").flatMap Utf8.bytesOf

/-- A numeral of too many digits ends the loading of a table, and a single surrogate in a file ends
the saving of names. -/
theorem numeral_and_surrogate_end_operations :
    let key := Text.ofString "k"
    let seeds : List Text := [Text.ofString "Smoke"]
    ((⟨Store.memory,key,seeds⟩ : Catalog (Assoc Text)).load [(key,Text.repeated 4301 '1')]).result =
        .error (.json (.integerTooLong 4301)) ∧
      ∃ e, ((⟨Store.file ⟨onlyPath,.ofInt 5⟩,key,seeds⟩ : Catalog Disk).save seeds
        (onlyFile surrogateBytes)).result = .error (.encoding e) := by
  intro key seeds
  refine ⟨by decide +kernel,?_⟩
  have hcontents : contents onlyPath.text surrogateBytes =
      .ok [(Text.ofString "a",.string [Fin.mk 0xd800 (by decide)])] := by cbv
  have hfault : (encodeChunks (Json.pageChunks (.object (Assoc.put (Text.ofString "k")
      (.string (encode [Text.ofString "Smoke"]))
      [(Text.ofString "a",.string [Fin.mk 0xd800 (by decide)])])))).2.isSome = true := by cbv
  have hholds := holds_onlyFile surrogateBytes
  rw [hcontents] at hholds
  obtain ⟨e,he⟩ := Option.isSome_iff_exists.mp hfault
  exact ⟨e,Action.rescue_of_uncaught
    ((ready_onlyFile surrogateBytes).set_of_fault namesFile_onlyPath hholds key (encode seeds) he)
    rfl⟩

end Example

end Catalog

end CategorySelection
