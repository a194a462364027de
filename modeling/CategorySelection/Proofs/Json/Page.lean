import CategorySelection.Proofs.Json.Floats
import CategorySelection.Proofs.Json.Legible
import CategorySelection.Proofs.Text.Utf8
/-!
The page form of values. It is made of blanks between the parts, so it is read as the value that was
written, with each floating-point number as its written form gives it.
-/

namespace CategorySelection

def Binary64.reread (x : Binary64) : Binary64 :=
  match Json.read (Json.writeFloat x) with
  | .ok (.float y) => y
  | _ => x

namespace Json

mutual

def reread : Json → Json
  | .float x => .float x.reread
  | .array items => .array (rereadItems items)
  | .object fields => .object (rereadFields fields)
  | value => value

def rereadItems : List Json → List Json
  | [] => []
  | item :: rest => reread item :: rereadItems rest

def rereadFields : List (Text × Json) → List (Text × Json)
  | [] => []
  | (name, value) :: rest => (name, reread value) :: rereadFields rest

end

theorem reread_array (items : List Json) : reread (.array items) = .array (items.map reread) := by
  have hitems : rereadItems items = items.map reread := by
    induction items with
    | nil => rfl
    | cons item rest ih => rw [rereadItems, ih, List.map_cons]
  rw [reread, hitems]

theorem reread_object (fields : List (Text × Json)) :
    reread (.object fields) = .object (fields.map fun field => (field.1,reread field.2)) := by
  have hfields : rereadFields fields = fields.map fun field => (field.1,reread field.2) := by
    induction fields with
    | nil => rfl
    | cons field rest ih => rw [rereadFields, ih, List.map_cons]
  rw [reread, hfields]

/-- A floating-point number is read as its written form gives it. -/
theorem readsAs_reread (x : Binary64) (depth : Nat) :
    ReadsAs (writeFloat x) depth (.float x.reread) := by
  obtain ⟨y,hy⟩ := readsAs_writeFloat x
  rw [Binary64.reread, (hy maxNesting).read_eq]
  exact hy depth

def pageAt (level : Nat) (value : Json) : Text := (chunksAt level value).flatten

theorem isSpace_of_mem_newLine (level : Nat) : ∀ c ∈ newLine level, isSpace c = true := by
  intro c hc
  rcases List.mem_cons.mp hc with rfl | hc
  · rfl
  · rw [List.eq_of_mem_replicate hc]
    rfl

def Gaps.page (level : Nat) : Gaps where
  opening := newLine (level+1)
  closing := newLine level
  comma := newLine (level+1)
  colon := [CodePoint.ofChar ' ']
  opening_blank := isSpace_of_mem_newLine (level+1)
  closing_blank := isSpace_of_mem_newLine level
  comma_blank := isSpace_of_mem_newLine (level+1)
  colon_blank := isSpace_of_mem_blank

theorem flatten_prepend (t : Text) (chunks : List Text) :
    (prepend t chunks).flatten = t ++ chunks.flatten := by
  cases chunks with
  | nil => rfl
  | cons chunk rest => rw [prepend, List.flatten_cons, List.flatten_cons, List.append_assoc]

/-- Whether a value is a chunk of its own makes no difference for the text. -/
theorem flatten_chunksOfItems_cons (level : Nat) (lead : Text) (item : Json) (rest : List Json) :
    (chunksOfItems level lead (item :: rest)).flatten =
      lead ++ (pageAt level item ++ (chunksOfItems level (',' :: newLine level) rest).flatten) := by
  rw [chunksOfItems.eq_def]
  dsimp only
  rw [List.flatten_append, ← List.append_assoc]
  congr 1
  split
  · rfl
  · rfl
  · exact flatten_prepend lead _

/-- The chunks of an array make the text of its values joined by commas and line feeds. -/
theorem flatten_chunksOfItems (level : Nat) (lead : Text) {items : List Json} (hne : items ≠ []) :
    (chunksOfItems (level+1) lead items).flatten =
      lead ++ (Gaps.page level).joined (items.map (pageAt (level+1))) := by
  induction items generalizing lead with
  | nil => exact absurd rfl hne
  | cons item rest ih =>
    rw [flatten_chunksOfItems_cons]
    cases rest with
    | nil =>
      rw [chunksOfItems, List.flatten_nil, List.append_nil, List.map_singleton,
        Gaps.joined_singleton]
    | cons next tail =>
      rw [ih _ (List.cons_ne_nil next tail), List.map_cons, List.map_cons, List.map_cons,
        Gaps.joined_cons_cons]
      rfl

/-- The chunks of an object make the text of its fields joined by commas and line feeds. -/
theorem flatten_chunksOfFields (level : Nat) (lead : Option Text) {fields : List (Text × Json)}
    (hne : fields ≠ []) :
    (chunksOfFields (level+1) lead fields).flatten =
      lead.toList.flatten ++
        (Gaps.page level).joined
        (fields.map ((Gaps.page level).entry false (pageAt (level+1)))) := by
  induction fields generalizing lead with
  | nil => exact absurd rfl hne
  | cons field rest ih =>
    obtain ⟨name,value⟩ := field
    have hfirst : (lead.toList ++ [writeString false name, ": "] ++
        chunksAt (level+1) value).flatten =
        lead.toList.flatten ++ (Gaps.page level).entry false (pageAt (level+1)) (name,value) := by
      simp only [List.flatten_append, List.flatten_cons, List.flatten_nil, List.append_nil,
        List.append_assoc, Gaps.entry, pageAt]
      rfl
    rw [chunksOfFields, List.flatten_append, hfirst]
    cases rest with
    | nil =>
      rw [chunksOfFields, List.flatten_nil, List.append_nil, List.map_singleton,
        Gaps.joined_singleton]
    | cons next tail =>
      rw [ih _ (List.cons_ne_nil next tail), List.map_cons, List.map_cons, List.map_cons,
        Gaps.joined_cons_cons, List.append_assoc, Option.toList_some, List.flatten_singleton]
      rfl

/-- The page form of an array has its values on lines of their own. -/
theorem pageAt_array (level : Nat) {items : List Json} (hne : items ≠ []) :
    pageAt level (.array items) = (Gaps.page level).array (items.map (pageAt (level+1))) := by
  rw [pageAt, chunksAt, List.flatten_append, flatten_chunksOfItems level _ hne]
  · simp only [Gaps.array, List.flatten_cons, List.flatten_nil, List.append_nil, List.cons_append,
      List.append_assoc]
    rfl
  · exact hne

/-- The page form of an object has its fields on lines of their own. -/
theorem pageAt_object (level : Nat) {fields : List (Text × Json)} (hne : fields ≠ []) :
    pageAt level (.object fields) =
      (Gaps.page level).object (fields.map ((Gaps.page level).entry false (pageAt (level+1)))) := by
  rw [pageAt, chunksAt, List.flatten_append, List.flatten_append,
    flatten_chunksOfFields level _ hne]
  · simp only [Gaps.object, List.flatten_cons, List.flatten_nil, List.append_nil, List.append_assoc,
      Option.toList_none, List.nil_append]
    rfl
  · exact hne

/-- A value without parts that can be written: a string has no single surrogates. -/
def isEncodable : Json → Bool
  | .string t => t.isEncodable
  | _ => true

def Writable (depth : Nat) (value : Json) : Prop :=
  Within (fun v => FewDigits v ∧ v.isEncodable = true) (fun n => n.isEncodable = true) depth value

/-- What was read can be written if it has no single surrogates. -/
theorem Legible.writable {depth : Nat} {value : Json} (h : Legible depth value)
    (he : value.every isEncodable Text.isEncodable = true) : Writable depth value :=
  (Within.of_every h he).imp (fun _ hv => hv) fun _ hn => hn.2

namespace Writable

variable {depth : Nat} {value : Json}

/-- A value without parts is read as its page form gives it. -/
theorem readsAs_scalar (level : Nat) (hv : value.isScalar = true) (hdigits : FewDigits value)
    (hencodable : value.isEncodable = true) : ReadsAs (pageAt level value) depth value.reread := by
  cases value with
  | null => exact readsAs_null depth
  | bool b =>
    rw [pageAt, chunksAt, List.flatten_singleton]
    exact readsAs_bool b depth
  | int n =>
    rw [pageAt, chunksAt, List.flatten_singleton]
    exact readsAs_ofInt hdigits depth
  | float x =>
    rw [pageAt, chunksAt, List.flatten_singleton]
    exact readsAs_reread x depth
  | string t =>
    rw [pageAt, chunksAt, List.flatten_singleton]
    exact readsAs_string false depth ((Text.isEncodable_iff t).mp hencodable)
  | array items => cases hv
  | object fields => cases hv

/-- A value that can be written is read as its page form gives it. -/
theorem readsAs_pageAt (h : Writable depth value) (level : Nat) :
    ReadsAs (pageAt level value) depth value.reread := by
  induction h generalizing level with
  | scalar hv h => exact readsAs_scalar level hv h.1 h.2
  | @array depth items _ ih =>
    rw [reread_array]
    cases items with
    | nil => exact readsAs_nil depth
    | cons item rest =>
      rw [pageAt_array level (List.cons_ne_nil item rest)]
      exact readsAs_array _ (List.cons_ne_nil item rest) fun other hother =>
        ih other hother (level+1)
  | @object depth fields hdistinct hnames _ ih =>
    rw [reread_object]
    cases fields with
    | nil => exact readsAs_empty depth
    | cons field rest =>
      rw [pageAt_object level (List.cons_ne_nil field rest)]
      exact readsAs_object _ (List.cons_ne_nil field rest) hdistinct
        (fun other hother => (Text.isEncodable_iff _).mp (hnames other hother))
        fun other hother => ih other hother (level+1)

/-- What comes back from the page form can be written again: only floating-point numbers change, and
these have no limits. -/
theorem reread (h : Writable depth value) : Writable depth value.reread := by
  induction h with
  | @scalar depth value hv h =>
    cases value with
    | float x => exact .scalar rfl ⟨trivial,rfl⟩
    | array items => cases hv
    | object fields => cases hv
    | _ => exact .scalar hv h
  | array _ ih =>
    rw [reread_array]
    exact .array (List.forall_mem_map.mpr ih)
  | object hdistinct hnames _ ih =>
    rw [reread_object]
    refine .object ?_ (List.forall_mem_map.mpr hnames) (List.forall_mem_map.mpr ih)
    rw [Assoc.names_map_snd]
    exact hdistinct

end Writable

/-- A page is read as the value that it was written for, its names sorted. -/
theorem read_writePage {value : Json} (h : Writable maxNesting value) :
    read (writePage value) = .ok value.sortNames.reread :=
  (Writable.readsAs_pageAt h.sortNames 0).read_eq

end Json

end CategorySelection
