import CategorySelection.Proofs.Json.Page
/-!
Entries up to the order of names. The page form of an object is told by what is found under each
name, where nested objects count without the order of their names; and printing a value without
floating-point numbers and reading it back does no more than to sort its names.
-/

namespace CategorySelection

namespace Json

section Sorted

variable {scalar : Json → Prop} {name : Text → Prop} {depth : Nat} {value : Json}

/-- Sorting the names twice is sorting them once: the outer sorting only goes through names that are
in order, so the lookups decide. -/
theorem sortNames_sortNames (h : Within scalar name depth value) :
    value.sortNames.sortNames = value.sortNames := by
  induction h with
  | scalar hv _ => rw [sortNames_of_isScalar hv, sortNames_of_isScalar hv]
  | @array depth items _ ih =>
    rw [sortNames_array, sortNames_array, List.map_map]
    exact congrArg Json.array (List.map_congr_left ih)
  | @object depth fields hdistinct _ _ ih =>
    have hinner : (fields.map fun field => (field.1,field.2.sortNames)).map
        (fun field => (field.1,field.2.sortNames)) =
          fields.map fun field => (field.1,field.2.sortNames) := by
      rw [List.map_map]
      exact List.map_congr_left fun field hfield => congrArg (Prod.mk field.1) (ih field hfield)
    have hmapped : (Assoc.names (fields.map fun field => (field.1,field.2.sortNames))).Nodup := by
      rwa [Assoc.names_map_snd]
    have hnames := (Assoc.sorted_names_sortedLT _ hmapped).nodup
    rw [sortNames_object, sortNames_object]
    refine congrArg Json.object
      (Assoc.sorted_eq_of_get?_eq (by rwa [Assoc.names_map_snd]) hmapped ?_)
    intro key
    calc
      _ = (Assoc.get? key (Assoc.sorted (fields.map fun field => (field.1,field.2.sortNames)))).map
          sortNames := Assoc.get?_map_snd sortNames key _
      _ = (Assoc.get? key (fields.map fun field => (field.1,field.2.sortNames))).map sortNames := by
        rw [Assoc.get?_sorted key _ hmapped]
      _ = Assoc.get? key (fields.map fun field => (field.1,field.2.sortNames)) := by
        rw [← Assoc.get?_map_snd, hinner]

def isExact : Json → Bool
  | .float _ => false
  | _ => true

/-- A value without floating-point numbers comes back as it was. -/
theorem reread_eq_self (h : Within (fun v => v.isExact = true) name depth value) :
    value.reread = value := by
  induction h with
  | @scalar depth value hv h =>
    cases value with
    | float x => cases h
    | array items => cases hv
    | object fields => cases hv
    | _ => rfl
  | array _ ih =>
    rw [reread_array, List.map_congr_left ih, List.map_id']
  | object _ _ _ ih =>
    rw [reread_object,
      List.map_congr_left fun field hfield => congrArg (Prod.mk field.1) (ih field hfield)]
    exact congrArg Json.object (List.map_id' _)

/-- A value that can be written to a file and read from there with nothing but its order changed. -/
def Exact (depth : Nat) (value : Json) : Prop :=
  Within (fun v => (FewDigits v ∧ v.isEncodable = true) ∧
    v.isExact = true) (fun n => n.isEncodable = true)
    depth value

theorem Exact.writable (h : Exact depth value) : Writable depth value :=
  Within.imp (fun _ hv => hv.1) (fun _ hn => hn) h

theorem Writable.exact (h : Writable depth value)
    (he : value.every isExact (fun _ => true) = true) :
    Exact depth value :=
  (Within.of_every h he).imp (fun _ hv => hv) fun _ hn => hn.1

/-- What is exact comes back with its names sorted and with nothing else changed. -/
theorem Exact.sortNames_reread (h : Exact depth value) : value.sortNames.reread = value.sortNames :=
  reread_eq_self (Within.imp (fun _ hv => hv.2) (fun _ hn => hn) (Within.sortNames h))

end Sorted

/-- Entries that differ in no more than the order of names, at the top and inside of the values. -/
def Alike (fields others : Assoc Json) : Prop :=
  ∀ key, (fields.get? key).map sortNames = (others.get? key).map sortNames

namespace Alike

variable {fields others : Assoc Json}

theorem refl (fields : Assoc Json) : Alike fields fields := fun _ => rfl

theorem trans {third : Assoc Json} (h : Alike fields others) (h' : Alike others third) :
    Alike fields third :=
  fun key => (h key).trans (h' key)

/-- Entries that are alike stay so when the same value is put into both. -/
theorem put (h : Alike fields others) (key : Text) (value : Json) :
    Alike (fields.put key value) (others.put key value) := by
  intro other
  rw [Assoc.get?_put, Assoc.get?_put]
  split_ifs
  · rfl
  · exact h other

/-- Entries that are alike stay so when the same key is erased from both. -/
theorem erase (h : Alike fields others) (key : Text) :
    Alike (fields.erase key) (others.erase key) := by
  intro other
  rw [Assoc.get?_erase, Assoc.get?_erase]
  split_ifs
  · rfl
  · exact h other

theorem has_eq (h : Alike fields others) (key : Text) : fields.has key = others.has key := by
  have hfound := congrArg Option.isSome (h key)
  rwa [Option.isSome_map, Option.isSome_map, ← Assoc.has_eq_isSome, ← Assoc.has_eq_isSome] at hfound

theorem pageChunks_eq (h : Alike fields others) (hf : (Assoc.names fields).Nodup)
    (ho : (Assoc.names others).Nodup) :
    pageChunks (.object fields) = pageChunks (.object others) := by
  have hsorted : Assoc.sorted (fields.map fun field => (field.1,field.2.sortNames)) =
      Assoc.sorted (others.map fun field => (field.1,field.2.sortNames)) := by
    apply Assoc.sorted_eq_of_get?_eq
    · rwa [Assoc.names_map_snd]
    · rwa [Assoc.names_map_snd]
    · intro key
      rw [Assoc.get?_map_snd, Assoc.get?_map_snd, h key]
  rw [pageChunks, pageChunks, sortNames_object, sortNames_object, hsorted]

theorem of_get?_eq (h : ∀ key, fields.get? key = others.get? key) :
    Alike fields others := fun key => congrArg (Option.map sortNames) (h key)

theorem put_comm {key other : Text} (hne : key ≠ other) (value value' : Json)
    (fields : Assoc Json) :
    Alike ((fields.put key value).put other value') ((fields.put other value').put key value) := by
  apply of_get?_eq
  intro name
  rw [Assoc.get?_put, Assoc.get?_put, Assoc.get?_put, Assoc.get?_put]
  by_cases hname : key = name
  · rw [if_pos hname, if_pos hname, if_neg fun hother => hne (hname.trans hother.symm)]
  · rw [if_neg hname, if_neg hname]

theorem put_put (key : Text) (value value' : Json) (fields : Assoc Json) :
    Alike ((fields.put key value).put key value') (fields.put key value') := by
  apply of_get?_eq
  intro name
  rw [Assoc.get?_put, Assoc.get?_put, Assoc.get?_put]
  split_ifs <;> rfl

theorem erase_put {key : Text} (hkey : fields.has key = false) (value : Json) :
    Alike ((fields.put key value).erase key) fields := by
  apply of_get?_eq
  intro name
  rw [Assoc.get?_erase, Assoc.get?_put]
  split_ifs with hname
  · subst hname
    rw [Assoc.has_eq_isSome, Option.isSome_eq_false_iff, Option.isNone_iff_eq_none] at hkey
    exact hkey.symm
  · rfl

end Alike

end Json

end CategorySelection
