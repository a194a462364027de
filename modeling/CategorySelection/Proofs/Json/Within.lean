import CategorySelection.Json.Printer
import CategorySelection.Proofs.Assoc
import CategorySelection.Proofs.Json.Numbers
/-!
Values within limits: nested so deeply at most, the names of each object distinct, and every name
and every value that has no parts of a given kind. What is read is within the limits of the reader,
and sorting the names of a value leaves it within its limits.
-/

namespace CategorySelection

namespace Json

def isScalar : Json → Bool
  | .array _ | .object _ => false
  | _ => true

inductive Within (scalar : Json → Prop) (name : Text → Prop) : Nat → Json → Prop
  | scalar {depth : Nat} {value : Json} (hv : value.isScalar = true) (h : scalar value) :
    Within scalar name depth value
  | array {depth : Nat} {items : List Json} (h : ∀ item ∈ items, Within scalar name depth item) :
    Within scalar name (depth+1) (.array items)
  | object {depth : Nat} {fields : List (Text × Json)} (hdistinct : (Assoc.names fields).Nodup)
    (hnames : ∀ field ∈ fields, name field.1)
    (h : ∀ field ∈ fields, Within scalar name depth field.2) :
    Within scalar name (depth+1) (.object fields)

mutual

def every (scalar : Json → Bool) (name : Text → Bool) : Json → Bool
  | .array items => everyItem scalar name items
  | .object fields => everyField scalar name fields
  | value => scalar value

def everyItem (scalar : Json → Bool) (name : Text → Bool) : List Json → Bool
  | [] => true
  | item :: rest => every scalar name item && everyItem scalar name rest

def everyField (scalar : Json → Bool) (name : Text → Bool) : List (Text × Json) → Bool
  | [] => true
  | (n, value) :: rest => name n && every scalar name value && everyField scalar name rest

end

section Every

variable (scalar : Json → Bool) (name : Text → Bool)

theorem every_array (items : List Json) :
    every scalar name (.array items) = items.all (every scalar name) := by
  rw [every]
  induction items with
  | nil => rw [everyItem, List.all_nil]
  | cons item rest ih => rw [everyItem, ih, List.all_cons]

theorem every_object (fields : List (Text × Json)) :
    every scalar name (.object fields) =
      fields.all fun field => name field.1 && every scalar name field.2 := by
  rw [every]
  induction fields with
  | nil => rw [everyField, List.all_nil]
  | cons field rest ih => rw [everyField, ih, List.all_cons]

end Every

section Within

variable {scalar : Json → Prop} {name : Text → Prop} {depth : Nat} {value : Json}

/-- What is checked of every part holds within the limits as well. -/
theorem Within.of_every {also : Json → Bool} {alsoName : Text → Bool}
    (h : Within scalar name depth value) (he : every also alsoName value = true) :
    Within (fun v => scalar v ∧ also v = true) (fun n => name n ∧
      alsoName n = true) depth value := by
  induction h with
  | @scalar depth value hv h =>
    refine .scalar hv ⟨h,?_⟩
    cases value <;> first | exact he | cases hv
  | array _ ih =>
    rw [every_array, List.all_eq_true] at he
    exact .array fun item hitem => ih item hitem (he item hitem)
  | object hdistinct hnames _ ih =>
    simp only [every_object, List.all_eq_true, Bool.and_eq_true] at he
    exact .object hdistinct (fun field hfield => ⟨hnames field hfield,(he field hfield).1⟩)
      fun field hfield => ih field hfield (he field hfield).2

/-- Weaker conditions on scalars and names hold of the same values. -/
theorem Within.imp {scalar' : Json → Prop} {name' : Text → Prop} (hs : ∀ v, scalar v → scalar' v)
    (hn : ∀ n, name n → name' n) (h : Within scalar name depth value) :
    Within scalar' name' depth value := by
  induction h with
  | scalar hv h => exact .scalar hv (hs _ h)
  | array _ ih => exact .array ih
  | object hdistinct hnames _ ih => exact .object hdistinct (fun f hf => hn _ (hnames f hf)) ih

theorem sortNames_array (items : List Json) :
    sortNames (.array items) = .array (items.map sortNames) := by
  have hitems : sortNamesItems items = items.map sortNames := by
    induction items with
    | nil => rfl
    | cons item rest ih => rw [sortNamesItems, ih, List.map_cons]
  rw [sortNames, hitems]

theorem sortNames_object (fields : List (Text × Json)) :
    sortNames (.object fields) =
      .object (Assoc.sorted (fields.map fun field => (field.1,sortNames field.2))) := by
  have hfields : sortNamesFields fields = fields.map fun field => (field.1,sortNames field.2) := by
    induction fields with
    | nil => rfl
    | cons field rest ih => rw [sortNamesFields, ih, List.map_cons]
  rw [sortNames, hfields]

theorem sortNames_of_isScalar (hv : value.isScalar = true) : sortNames value = value := by
  cases value <;> first | rfl | cases hv

theorem Within.sortNames (h : Within scalar name depth value) :
    Within scalar name depth value.sortNames := by
  induction h with
  | scalar hv h =>
    rw [sortNames_of_isScalar hv]
    exact .scalar hv h
  | array _ ih =>
    rw [sortNames_array]
    exact .array (List.forall_mem_map.mpr ih)
  | @object depth fields hdistinct hnames _ ih =>
    have hmapped :
        (Assoc.names (fields.map fun field => (field.1,Json.sortNames field.2))).Nodup := by
      rw [Assoc.names_map_snd]
      exact hdistinct
    rw [sortNames_object]
    refine .object (Assoc.sorted_names_sortedLT _ hmapped).nodup ?_ ?_
    · intro field hfield
      obtain ⟨original,horiginal,rfl⟩ := List.mem_map.mp ((Assoc.mem_sorted _ _).mp hfield)
      exact hnames original horiginal
    · intro field hfield
      obtain ⟨original,horiginal,rfl⟩ := List.mem_map.mp ((Assoc.mem_sorted _ _).mp hfield)
      exact ih original horiginal

end Within

end Json

end CategorySelection
