import CategorySelection.Catalog
import CategorySelection.Proofs.Action
import CategorySelection.Proofs.Assoc
import CategorySelection.Proofs.Json.Kept
import CategorySelection.Proofs.Json.ReadsBack
/-!
How catalogs are saved. Names that were saved are read again in increasing order, and a catalog that
was never saved is started with its seeds when it is loaded.
-/

namespace CategorySelection

/-- No code point of a name is beyond the small letters. -/
theorem Category.le_of_isName {t : Text} (h : Category.isName t = true) :
    ∀ c ∈ t, c.val ≤ 0x7a := by
  intro c hc
  rw [Category.isName, Bool.and_eq_true] at h
  have hchar := List.all_eq_true.mp h.2 c hc
  simp only [Category.isNameChar, CodePoint.isAsciiLetter, CodePoint.isAsciiDigit,
    CodePoint.isBetween, Bool.or_eq_true, Bool.and_eq_true, decide_eq_true_eq] at hchar
  omega

theorem Category.not_isSurrogate_of_isName {t : Text} (h : Category.isName t = true) :
    ∀ c ∈ t, c.isSurrogate = false := by
  intro c hc
  have hle := Category.le_of_isName h c hc
  simp only [CodePoint.isSurrogate, CodePoint.isBetween, Bool.and_eq_false_iff,
    decide_eq_false_iff_not]
  omega

/-- Names come back from a string as they are, and no other text comes back as a name. -/
theorem Category.rejoined_eq_self {t : Text}
    (h : Category.isName (Json.rejoined true t) = true ∨ Category.isName t = true) :
    Json.rejoined true t = t := by
  rcases h with hback | hname
  · apply Json.rejoined_eq_self
    intro c hc
    exact ⟨Category.not_isSurrogate_of_isName hback c hc,
      (Category.le_of_isName hback c hc).trans (by decide)⟩
  · exact Json.joinParts_flatMap true t (Category.not_isSurrogate_of_isName hname)

/-- So the names among texts that came back are the names among the texts. -/
theorem Category.filter_rejoined (ts : List Text) :
    (ts.map (Json.rejoined true)).filter Category.isName = ts.filter Category.isName := by
  induction ts with
  | nil => rfl
  | cons t rest ih =>
    rw [List.map_cons]
    by_cases hname : Category.isName t = true
    · have hsame := Category.rejoined_eq_self (Or.inr hname)
      rw [hsame, List.filter_cons_of_pos hname, List.filter_cons_of_pos hname, ih]
    · have hback : ¬Category.isName (Json.rejoined true t) = true := by
        intro hback
        rw [Category.rejoined_eq_self (Or.inl hback)] at hback
        exact hname hback
      rw [List.filter_cons_of_neg hback, List.filter_cons_of_neg hname, ih]

namespace Catalog

/-- Saved texts are read again as an array of as many texts, each as its string comes back. -/
theorem decode_encode_texts (texts : List Text) :
    decode (encode texts) = .ok (.names ((Text.sortedSet texts).map (Json.rejoined true))) := by
  have hread : Json.read (encode texts) =
      .ok (.array (((Text.sortedSet texts).map (Json.rejoined true)).map .string)) :=
    Json.read_write_strings _
  rw [decode, hread]
  dsimp only
  rw [Json.strings?_array]

/-- Saved names are read again, each once and in increasing order. -/
theorem decode_encode {names : List Text} (h : ∀ name ∈ names, Category.isName name = true) :
    decode (encode names) = .ok (.names (Text.sortedSet names)) := by
  have hsame : (Text.sortedSet names).map (Json.rejoined true) = Text.sortedSet names := by
    conv_rhs => rw [← List.map_id (Text.sortedSet names)]
    apply List.map_congr_left
    intro name hname
    exact Category.rejoined_eq_self (Or.inr (h name ((Text.mem_sortedSet name names).mp hname)))
  rw [decode_encode_texts, hsame]

/-- Whatever texts are saved, no surrogate comes into the store. -/
theorem isEncodable_encode (names : List Text) : (encode names).isEncodable = true :=
  (Json.isKept_writeLine_strings (Text.sortedSet names)).isEncodable

section Calls

variable {σ : Type} {catalog : Catalog σ} {w w' : σ} {log : List Log.Record}

/-- Saving that the store does is done in silence. -/
theorem save_of_ok {names : List Text}
    (h : catalog.store.set catalog.key (encode names) w = ⟨.ok (), w', log⟩) :
    catalog.save names w = ⟨.ok (), w', log⟩ := by
  rw [save, Action.rescue_of_ok h]

/-- Saving to a store that cannot be used is noted, and nothing else happens. -/
theorem save_of_unavailable {names : List Text} {e : Fault}
    (h : catalog.store.set catalog.key (encode names) w = ⟨.error e, w', log⟩)
    (he : e.kind.isUnavailable = true) : ∃ log', catalog.save names w = ⟨.ok (), w', log'⟩ := by
  rw [save, Action.rescue_of_error h he]
  exact ⟨_,rfl⟩

/-- Whatever the store has under the key, reading it is not more than its `get`. -/
theorem load_of_saved {raw : Text} {saved : Saved}
    (h : catalog.store.get catalog.key w = ⟨.ok (some raw), w', log⟩)
    (hd : decode raw = .ok saved) :
    ∃ log', catalog.load w = ⟨.ok (catalog.fromSaved saved).1, w', log'⟩ := by
  have hget : (catalog.store.get catalog.key).attempt w = ⟨.ok (.ok (some raw)), w', log⟩ := by
    rw [Action.attempt_apply, h]
  rw [load, Action.bind_of_ok hget]
  simp only [Action.bind_apply, Action.ofExcept_apply, hd, Action.write_apply]
  exact ⟨_,rfl⟩

/-- A text that is refused for its size ends the loading. -/
theorem load_of_refused {raw : Text} {e : Fault}
    (h : catalog.store.get catalog.key w = ⟨.ok (some raw), w', log⟩) (hd : decode raw = .error e) :
    ∃ log', catalog.load w = ⟨.error e, w', log'⟩ := by
  have hget : (catalog.store.get catalog.key).attempt w = ⟨.ok (.ok (some raw)), w', log⟩ := by
    rw [Action.attempt_apply, h]
  rw [load, Action.bind_of_ok hget]
  simp only [Action.bind_apply, Action.ofExcept_apply, hd]
  exact ⟨_,rfl⟩

/-- A store that cannot be used gives the default names. -/
theorem load_of_unavailable {e : Fault}
    (h : catalog.store.get catalog.key w = ⟨.error e, w', log⟩) (he : e.kind.isUnavailable = true) :
    ∃ log', catalog.load w = ⟨.ok catalog.defaults, w', log'⟩ := by
  have hget : (catalog.store.get catalog.key).attempt w = ⟨.ok (.error e), w', log⟩ := by
    rw [Action.attempt_apply, h]
  rw [load, Action.bind_of_ok hget]
  simp only [he, ↓reduceIte]
  exact ⟨_,rfl⟩

/-- Loading a catalog that is not there saves its seeds. -/
theorem load_of_absent {w'' : σ} {log' : List Log.Record}
    (h : catalog.store.get catalog.key w = ⟨.ok none, w', log⟩)
    (hs : catalog.save catalog.seeds w' = ⟨.ok (), w'', log'⟩) :
    ∃ log'', catalog.load w = ⟨.ok catalog.defaults, w'', log''⟩ := by
  have hget : (catalog.store.get catalog.key).attempt w = ⟨.ok (.ok none), w', log⟩ := by
    rw [Action.attempt_apply, h]
  rw [load, Action.bind_of_ok hget]
  simp only [seed, Action.bind_apply, Action.record_apply, hs]
  exact ⟨_,rfl⟩

end Calls

structure InMemory (catalog : Catalog (Assoc Text)) : Prop where
  store : catalog.store = Store.memory
  named : ∀ name ∈ catalog.seeds, Category.isName name = true

theorem make_apply {σ : Type} (store : Store σ) (key : Text) (seeds : List Text) (s : σ) :
    make store key seeds s = ⟨.ok ⟨store, key, seeds.filter Category.isName⟩, s,
      noteInvalid key "Ignoring invalid default category names: " seeds ++ []⟩ := rfl

theorem inMemory_make (key : Text) (seeds : List Text) :
    InMemory ⟨Store.memory, key, seeds.filter Category.isName⟩ :=
  ⟨rfl,fun _ h => (List.mem_filter.mp h).2⟩

/-- What loading leaves of a table: a catalog that is not there is saved with its seeds. -/
def started (catalog : Catalog (Assoc Text)) (table : Assoc Text) : Assoc Text :=
  match table.get? catalog.key with
  | none => table.put catalog.key (encode catalog.seeds)
  | some _ => table

section Memory

variable {catalog : Catalog (Assoc Text)} {table : Assoc Text}

theorem InMemory.save_apply (hc : catalog.InMemory) (names : List Text) (table : Assoc Text) :
    catalog.save names table = ⟨.ok (), table.put catalog.key (encode names), []⟩ := by
  rw [save, hc.store]
  rfl

theorem InMemory.get_apply (hc : catalog.InMemory) (table : Assoc Text) :
    catalog.store.get catalog.key table = ⟨.ok (table.get? catalog.key), table, []⟩ := by
  rw [hc.store]
  rfl

/-- A catalog that is not in the table is started with the default names. -/
theorem InMemory.load_absent (hc : catalog.InMemory) (h : table.get? catalog.key = none) :
    ∃ log, catalog.load table = ⟨.ok catalog.defaults, catalog.started table, log⟩ := by
  have hget := hc.get_apply table
  rw [h] at hget
  rw [started, h]
  exact load_of_absent hget (hc.save_apply catalog.seeds table)

theorem InMemory.load_saved (hc : catalog.InMemory) {raw : Text} {saved : Saved}
    (h : table.get? catalog.key = some raw) (hd : decode raw = .ok saved) :
    ∃ log, catalog.load table = ⟨.ok (catalog.fromSaved saved).1, catalog.started table, log⟩ := by
  have hget := hc.get_apply table
  rw [h] at hget
  rw [started, h]
  exact load_of_saved hget hd

theorem InMemory.restore_apply (hc : catalog.InMemory) (table : Assoc Text) :
    ∃ log, catalog.restore table = ⟨.ok (), table.erase catalog.key, log⟩ := by
  have hremove : (catalog.store.remove catalog.key).attempt table =
      ⟨.ok (.ok ()), table.erase catalog.key, []⟩ := by
    rw [hc.store]
    rfl
  rw [restore, Action.bind_of_ok hremove]
  exact ⟨_,rfl⟩

end Memory

end Catalog

end CategorySelection
