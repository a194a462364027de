import CategorySelection.Proofs.Catalog.Saved
import CategorySelection.Proofs.Store.Recalls
import CategorySelection.Proofs.Store.Serving
/-!
Texts that are saved without a look at them. They come through the store as an array of strings, and
loading leaves out what is no name, so what is loaded next are the names among them.
-/

namespace CategorySelection

namespace Catalog

variable {σ : Type}

/-- Saving texts is done, and what is loaded next are the names among them, each once and in
increasing order. -/
def ReloadsNames (catalog : Catalog σ) (texts : List Text) (w : σ) : Prop :=
  (catalog.save texts w).result = .ok () ∧
    ∃ loaded, (catalog.load (catalog.save texts w).world).result = .ok loaded ∧ loaded.SortedLT ∧
      ∀ name, name ∈ loaded ↔ name ∈ texts ∧ Category.isName name = true

/-- The names that are loaded from saved texts. -/
theorem fromSaved_texts (catalog : Catalog σ) (texts : List Text) :
    (catalog.fromSaved (.names ((Text.sortedSet texts).map (Json.rejoined true)))).1 =
      Text.sortedSet ((Text.sortedSet texts).filter Category.isName) := by
  rw [fromSaved, Category.filter_rejoined]

/-- Of the texts that are saved, those that are names are loaded. -/
theorem mem_loaded_texts (texts : List Text) (name : Text) :
    name ∈ Text.sortedSet ((Text.sortedSet texts).filter Category.isName) ↔
      name ∈ texts ∧ Category.isName name = true := by
  rw [Text.mem_sortedSet, List.mem_filter, Text.mem_sortedSet]

/-- A store that recalls what is set gives the text back, and the text gives the names. -/
theorem reloadsNames_of_recalls {catalog : Catalog σ} {texts : List Text} {w : σ}
    (h : catalog.store.Recalls catalog.key w)
    (hset : (catalog.store.set catalog.key (encode texts) w).result = .ok ()) :
    catalog.ReloadsNames texts w := by
  have hsave := save_of_ok (Action.apply_of_result hset)
  have hget := Action.apply_of_result (h (encode texts) hset)
  obtain ⟨log,hload⟩ := load_of_saved hget (decode_encode_texts texts)
  rw [fromSaved_texts] at hload
  rw [ReloadsNames, hsave]
  refine ⟨rfl,_,congrArg Outcome.result hload,Text.sortedSet_sortedLT _,mem_loaded_texts texts⟩

/-- Whatever texts are saved, loading gives the names among them: over a table, over a file whenever
the setting is done, and over every store that gives back the text that it was given. -/
theorem saved_texts_load_as_names (key : Text) (seeds texts : List Text) :
    (∀ table, ReloadsNames ⟨Store.memory,key,seeds⟩ texts table) ∧
    (∀ options d, ((Store.file options).set key (encode texts) d).result = .ok () →
      ReloadsNames ⟨Store.file options,key,seeds⟩ texts d) ∧
    (∀ (σ : Type) (store : Store σ) (w : σ), store.Recalls key w →
      (store.set key (encode texts) w).result = .ok () →
        ReloadsNames ⟨store,key,seeds⟩ texts w) := by
  refine ⟨fun table => ?_,fun options d hset => ?_,fun _ store w hrecalls hset => ?_⟩
  · exact reloadsNames_of_recalls (Store.recalls_memory key table) rfl
  · exact reloadsNames_of_recalls (Store.File.recalls_file options key d) hset
  · exact reloadsNames_of_recalls hrecalls hset

/-- Two single surrogates that come back as one code point, a quote and an empty text beside names,
saved in a blank file. -/
theorem saved_texts_load_as_names_surrogates :
    let options : Store.FileOptions := ⟨Store.File.onlyPath,Store.FileOptions.defaultPatience⟩
    let texts : List Text := ["Smoke", [0xd83d, 0xde00], "\"", [], "Beta", [0xd800], "Smoke"]
    let blank := Store.File.onlyFile [0x20]
    ((Store.file options).set "k" (encode texts) blank).result = .ok () ∧
      ReloadsNames ⟨Store.file options,"k",[]⟩ texts blank := by
  intro options texts blank
  have hset : ((Store.file options).set "k" (encode texts) blank).result = .ok () := by
    decide +kernel
  exact ⟨hset,(saved_texts_load_as_names "k" [] texts).2.1 options blank hset⟩

end Catalog

end CategorySelection
