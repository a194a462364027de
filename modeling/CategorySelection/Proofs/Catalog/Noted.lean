import CategorySelection.Proofs.Catalog.Returns
import CategorySelection.Proofs.Log.Noting
/-!
What a catalog notes. Names that are no names are quoted wherever they come from the store or from
the seeds; only the text that is to be added is repeated as it was given, when it is refused.
-/

namespace CategorySelection.Catalog

open Log (Record)

variable {σ : Type} {catalog : Catalog σ} {usable : σ → Prop} {w : σ}

section Records

/-- The notes of a catalog are tidy if its key and what is said have no end of a line. -/
theorem isTidy_note_iff (key : Text) (level : Log.Level) (t : Text) :
    (note key level t).IsTidy ↔ key.IsOneLine ∧ t.IsOneLine :=
  (Record.isTidy_note_iff (.of_all rfl) level t (.ofCatalog key) none).trans
    (and_congr_left' (Log.Context.isOneLine_ofCatalog key))

theorem isTidy_noteOn_iff (key name : Text) (level : Log.Level) (t : Text) :
    (noteOn key name level t).IsTidy ↔ (name.IsOneLine ∧ key.IsOneLine) ∧ t.IsOneLine :=
  (Record.isTidy_note_iff (.of_all rfl) level t _ none).trans
    (and_congr_left' (Log.Context.isOneLine_inCatalog name key))

/-- Bad names are noted in quotes, so the notes of them are tidy. -/
theorem isTidy_of_mem_noteInvalid {key notice : Text} (hkey : key.IsOneLine)
    (hnotice : notice.IsOneLine) (names : List Text) :
    ∀ r ∈ noteInvalid key notice names, r.IsTidy := by
  rw [noteInvalid]
  split
  · exact List.forall_mem_nil _
  · refine List.forall_mem_singleton.mpr ((isTidy_note_iff _ _ _).mpr ⟨hkey,?_⟩)
    exact hnotice.append (Text.isOneLine_quotedList _)

/-- The kind of a value that is no array of strings is told on one line. -/
theorem isOneLine_of_decode {raw found : Text} (h : decode raw = .ok (.notTexts found)) :
    found.IsOneLine := by
  rw [decode] at h
  split at h
  · cases h
  · cases h
  · next value _ =>
    split at h
    · cases h
    · obtain rfl := Saved.notTexts.inj (Except.ok.inj h)
      exact value.isOneLine_kindName

theorem isTidy_of_mem_fromSaved (hkey : catalog.key.IsOneLine) {saved : Saved}
    (hfound : ∀ found, saved = .notTexts found → found.IsOneLine) :
    ∀ r ∈ (catalog.fromSaved saved).2, r.IsTidy := by
  cases saved with
  | names all => exact isTidy_of_mem_noteInvalid hkey (.of_all rfl) all
  | notJson fault =>
    refine List.forall_mem_singleton.mpr ((isTidy_note_iff _ _ _).mpr ⟨hkey,?_⟩)
    exact .append (.of_all rfl) fault.isOneLine_message
  | notTexts found =>
    refine List.forall_mem_singleton.mpr ((isTidy_note_iff _ _ _).mpr ⟨hkey,?_⟩)
    exact .append (.append (.of_all rfl) (hfound found rfl)) (.of_all rfl)

/-- Whatever was saved, only names of categories are taken from it. -/
theorem allNamed_fromSaved (hseeds : AllNamed catalog.seeds) (saved : Saved) :
    AllNamed (catalog.fromSaved saved).1 := by
  cases saved with
  | names all =>
    exact fun name hname => (List.mem_filter.mp ((Text.mem_sortedSet name _).mp hname)).2
  | notJson fault => exact allNamed_defaults hseeds
  | notTexts found => exact allNamed_defaults hseeds

end Records

section Operations

variable (hs : catalog.store.IsTidy catalog.key usable) (hkey : catalog.key.IsOneLine)
  (hseeds : AllNamed catalog.seeds) (hw : usable w)

include hs hw in
theorem save_notes (names : List Text) :
    (catalog.save names w).Notes usable Record.IsTidy fun _ => True :=
  (hs.set _ w hw).rescue fun _ _ ht => .record ht (Record.isTidy_of_trouble rfl)

include hs hkey hseeds hw in
/-- Loading notes only what is tidy. An outage is noted with its message, for which the store
answers. -/
theorem load_notes : (catalog.load w).Notes usable Record.IsTidy AllNamed := by
  refine (hs.get w hw).attempt.bind fun got t hgot ht => ?_
  cases got with
  | error e =>
    dsimp only
    split_ifs with he
    · have hmessage := hs.message w e hw hgot.symm he
      refine (Outcome.Notes.record ht ?_).bind fun _ t _ ht => .pure ht (allNamed_defaults hseeds)
      exact (isTidy_note_iff _ _ _).mpr ⟨hkey,.append (.of_all rfl) hmessage⟩
    · exact .fail e ht
  | ok got =>
    cases got with
    | none =>
      have hcount : (Text.ofNat catalog.seeds.length).IsOneLine := (Text.IsPlain.ofNat _).isOneLine
      have hstart : (note catalog.key Log.Level.info ("No saved categories, seeding " ++
          Text.ofNat catalog.seeds.length ++ " defaults")).IsTidy :=
        (isTidy_note_iff _ _ _).mpr ⟨hkey,.append (.append (.of_all rfl) hcount) (.of_all rfl)⟩
      have hseed : (catalog.seed t).Notes usable Record.IsTidy fun _ => True :=
        (Outcome.Notes.record ht hstart).bind fun _ t _ ht => save_notes hs ht catalog.seeds
      exact hseed.bind fun _ t _ ht => .pure ht (allNamed_defaults hseeds)
    | some raw =>
      have hdecode : (Action.ofExcept (decode raw) t).Notes usable Record.IsTidy
          fun saved => ∀ found, saved = .notTexts found → found.IsOneLine :=
        .ofExcept ht fun saved hsaved found hfound => isOneLine_of_decode (hfound ▸ hsaved)
      refine hdecode.bind fun saved t hfound ht => ?_
      exact (Outcome.Notes.write ht (isTidy_of_mem_fromSaved hkey hfound)).bind fun _ t _ ht =>
        .pure ht (allNamed_fromSaved hseeds saved)

include hs hkey hseeds hw in
/-- Deleting notes only what is tidy, since nothing but a name that was loaded is deleted. -/
theorem delete_notes (name : Text) :
    (catalog.delete name w).Notes usable Record.IsTidy fun _ => True := by
  refine (load_notes hs hkey hseeds hw).bind fun names t hnamed ht => ?_
  split_ifs with hmem
  · have hname : name.IsOneLine := .of_isName (hnamed name hmem)
    refine (save_notes hs ht _).bind fun _ t _ ht => .record ht ?_
    exact (isTidy_noteOn_iff _ _ _ _).mpr ⟨⟨hname,hkey⟩,.append (.of_all rfl) hname⟩
  · exact .pure ht trivial

include hs hkey hw in
theorem restore_notes : (catalog.restore w).Notes usable Record.IsTidy fun _ => True := by
  refine (hs.remove w hw).attempt.bind fun result t _ ht => ?_
  cases result with
  | ok u => exact .record ht ((isTidy_note_iff _ _ _).mpr ⟨hkey,.of_all rfl⟩)
  | error e =>
    dsimp only
    split_ifs
    · exact .record ht (Record.isTidy_of_trouble rfl)
    · exact .fail e ht

theorem rejection?_of_broken {name : Text} (h : ¬name.IsOneLine) (names : List Text) :
    rejection? name names = some (.invalid name) := by
  have hempty : ¬name.isEmpty = true := by
    rw [List.isEmpty_iff]
    rintro rfl
    exact h .nil
  have hname : Category.isName name = false :=
    Bool.eq_false_iff.mpr fun hname => h (.of_isName hname)
  rw [rejection?, if_neg hempty, hname]
  rfl

theorem isOneLine_notice {name : Text} {names : List Text} {why : Rejection}
    (h : rejection? name names = some why) (hname : name.IsOneLine) : why.notice.IsOneLine := by
  rw [rejection?] at h
  split_ifs at h <;> obtain rfl := Option.some_inj.mp h
  · exact .of_all rfl
  · exact .append (.append (.of_all rfl) hname) (.of_all rfl)
  · exact .append (.append (.of_all rfl) hname) (.of_all rfl)

include hs hkey hseeds hw in
/-- Adding notes only what is tidy, unless the catalog can be loaded and the text has the end of a
line in it. The text stands in the context of either record, whether it is refused or not. -/
theorem add_notes (name : Text) : (catalog.add name w).Notes usable
    (fun r => ((catalog.load w).result.isOk = true → name.trim.IsOneLine) →
      r.IsTidy) fun _ => True := by
  have hload : (catalog.load w).Notes usable
      (fun r => ((catalog.load w).result.isOk = true → name.trim.IsOneLine) → r.IsTidy) AllNamed :=
    (load_notes hs hkey hseeds hw).mono fun r hr _ => hr
  refine hload.returned.bind fun names t hnames ht => ?_
  obtain ⟨hresult,-⟩ := hnames
  have hok : (catalog.load w).result.isOk = true := by
    rw [hresult]
    rfl
  cases hwhy : rejection? name.trim names with
  | some why =>
    refine (Outcome.Notes.record ht fun hname => ?_).bind fun _ t _ ht => .pure ht trivial
    exact (isTidy_noteOn_iff _ _ _ _).mpr ⟨⟨hname hok,hkey⟩,isOneLine_notice hwhy (hname hok)⟩
  | none =>
    refine ((save_notes hs ht _).mono fun r hr _ => hr).bind fun _ t _ ht => ?_
    refine (Outcome.Notes.record ht fun hname => ?_).bind fun _ t _ ht => .pure ht trivial
    exact (isTidy_noteOn_iff _ _ _ _).mpr ⟨⟨hname hok,hkey⟩,.append (.of_all rfl) (hname hok)⟩

/-- A text that is refused is repeated, with the ends of lines that it has. -/
theorem exists_untidy_of_add {name : Text} (hload : (catalog.load w).result.isOk = true)
    (hname : ¬name.trim.IsOneLine) : ∃ r ∈ (catalog.add name w).log, ¬r.IsTidy := by
  rcases hout : catalog.load w with ⟨e | names,t,log⟩ <;> rw [hout] at hload
  · cases hload
  refine ⟨noteOn catalog.key name.trim Log.Level.warning (Rejection.invalid name.trim).notice,?_,?_⟩
  · rw [add, Action.bind_of_ok hout, rejection?_of_broken hname]
    exact List.mem_append_right log (List.mem_singleton_self _)
  · rw [isTidy_noteOn_iff]
    exact fun h => hname h.1.1

/-- The texts that an operation repeats in its records as they were given: the one that is to be
added, if the catalog can be loaded. -/
def Operation.repeated (catalog : Catalog σ) (w : σ) : Operation → List Text
  | .request (.tryAdd name) | .request (.add name) =>
    if (catalog.load w).result.isOk then [name.trim] else []
  | _ => []

include hs hkey hseeds hw in
/-- One operation: its records are tidy if the texts that it repeats have no end of a line. -/
theorem operation_notes (operation : Operation) : (operation.perform catalog w).Notes usable
    (fun r => (∀ t ∈ operation.repeated catalog w, t.IsOneLine) → r.IsTidy) fun _ => True := by
  have hload := load_notes hs hkey hseeds hw
  have hadd (name : Text) : (catalog.add name w).Notes usable
      (fun r => (∀ t ∈ (if (catalog.load w).result.isOk then [name.trim] else []), t.IsOneLine) →
        r.IsTidy)
      fun _ => True := by
    refine (add_notes hs hkey hseeds hw name).mono fun r hr htexts => hr fun hok => ?_
    rw [if_pos hok] at htexts
    exact htexts _ (List.mem_singleton_self _)
  cases operation with
  | save names => exact ((save_notes hs hw names).mono fun r hr _ => hr).map fun _ _ => trivial
  | request r =>
    cases r with
    | load => exact (hload.mono fun r hr _ => hr).map fun _ _ => trivial
    | has name =>
      have hhas : (catalog.has name w).Notes usable Record.IsTidy fun _ => True :=
        hload.map fun _ _ => trivial
      exact (hhas.mono fun r hr _ => hr).map fun _ _ => trivial
    | rejection name =>
      have hrejection : (catalog.rejection name w).Notes usable Record.IsTidy fun _ => True :=
        hload.map fun _ _ => trivial
      exact (hrejection.mono fun r hr _ => hr).map fun _ _ => trivial
    | tryAdd name => exact (hadd name).map fun _ _ => trivial
    | add name => exact (hadd name).map fun _ _ => trivial
    | delete name =>
      exact ((delete_notes hs hkey hseeds hw name).mono fun r hr _ => hr).map fun _ _ => trivial
    | restore => exact ((restore_notes hs hkey hw).mono fun r hr _ => hr).map fun _ _ => trivial

/-- A text with the end of a line in it comes through to the log if it is repeated. -/
theorem exists_untidy_of_operation {operation : Operation} {t : Text}
    (ht : t ∈ operation.repeated catalog w) (hbroken : ¬t.IsOneLine) :
    ∃ r ∈ (operation.perform catalog w).log, ¬r.IsTidy := by
  have hadd (name : Text) (ht : t ∈ (if (catalog.load w).result.isOk then [name.trim] else [])) :
      ∃ r ∈ (catalog.add name w).log, ¬r.IsTidy := by
    split_ifs at ht with hok
    · obtain rfl := List.mem_singleton.mp ht
      exact exists_untidy_of_add hok hbroken
    · cases ht
  have hmap {α β : Type} {x : Action σ α} {f : α → β} (h : ∃ r ∈ (x w).log, ¬r.IsTidy) :
      ∃ r ∈ ((x >>= fun a => pure (f a)) w).log, ¬r.IsTidy := by
    rwa [Action.log_bind_pure]
  cases operation with
  | save names => cases ht
  | request r =>
    cases r with
    | tryAdd name => exact hmap (hadd name ht)
    | add name => exact hmap (hadd name ht)
    | load | has name | rejection name | delete name | restore => cases ht

end Operations

end CategorySelection.Catalog
