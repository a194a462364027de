import CategorySelection.Proofs.Json.Spelled
import CategorySelection.Proofs.Store.Change
/-!
Stores that recall. A text that was set under a key is what is read under that key next. The table
does so always; a file does so whenever the setting was done, whatever else the file holds.
-/

namespace CategorySelection

namespace Store

variable {σ : Type}

def Recalls (store : Store σ) (key : Text) (w : σ) : Prop :=
  ∀ value, (store.set key value w).result = .ok () →
    (store.get key (store.set key value w).world).result = .ok (some value)

theorem recalls_memory (key : Text) (table : Assoc Text) : memory.Recalls key table := by
  intro value _
  have hput : (table.put key value).get? key = some value := by rw [Assoc.get?_put, if_pos rfl]
  exact congrArg Except.ok hput

namespace File

open Disk

variable {options : FileOptions} {d : Disk} {key value : Text} {fields : Assoc Json}

/-- A change that puts an entry, and is done, leaves a file with that entry. What was written has
bytes, so it is read as it was written. -/
theorem get_of_putting
    (h : (change options (fun fields => some (fields.put key (.string value))) d).result = .ok ()) :
    (get options key (change options
      (fun fields => some (fields.put key (.string value))) d).world).result =
      .ok (some value) := by
  rcases change_under_lock options (fun fields => some (fields.put key (.string value))) d with
    ⟨e,hresult,_⟩ | ⟨hp,d₁,_,⟨e,hresult,_⟩ | hdone⟩
  · rw [hresult] at h
    cases h
  · rw [hresult] at h
    cases h
  rw [hdone] at h ⊢
  cases hentries : entries d₁ options.path with
  | error e =>
    rw [hentries] at h
    cases h
  | ok fields =>
    rw [hentries] at h
    dsimp only at h ⊢
    rcases write_cases hp.named (fields.put key (.string value)) d₁ with
      ⟨e,hresult,_⟩ | ⟨e,_,hresult,_⟩ | ⟨hbytes,_,hreplaced⟩
    · rw [hresult] at h
      cases h
    · rw [hresult] at h
      cases h
    have hput : Json.Legible Json.maxNesting (.object (fields.put key (.string value))) :=
      within_put (legible_of_entries hentries) trivial trivial
    have hwritable := hput.writable_of_page 0 (isEncodable_of_encodeChunks hbytes)
    obtain ⟨_,hcontents⟩ := contents_written hwritable options.path.text
    have hsettled : (settled (fields.put key (.string value))).get? key = some (.string value) := by
      rw [get?_settled key (distinct_of_writable hwritable), Assoc.get?_put, if_pos rfl]
      rfl
    rw [get_eq hp.usable, entry_eq, entries_of_file hreplaced.found, hcontents]
    exact congrArg (heldText key options.path.text) hsettled

/-- A file recalls each text that is set, over every disk. -/
theorem recalls_file (options : FileOptions) (key : Text) (d : Disk) :
    (Store.file options).Recalls key d := by
  intro value h
  change (set options key value d).result = .ok () at h
  change (get options key (set options key value d).world).result = .ok (some value)
  rw [set_eq, Action.bind_apply] at h ⊢
  rcases hensure : Disk.ensure options.path.parent d with ⟨e | _,d₁,log⟩ <;> rw [hensure] at h
  · cases h
  · exact get_of_putting h

end File

end Store

end CategorySelection
