import CategorySelection.Log.Tags
import CategorySelection.Proofs.Text.Order
import CategorySelection.Proofs.Text.Parts
/-!
Lists of tags. What a list switches on is told by the tags it names, each of them between two commas
with nothing but blanks around it. So two lists written one after the other with a comma between
them switch on what either of them does, and nothing else in a list matters.
-/

namespace CategorySelection

namespace Log

def Record.IsGated (r : Record) : Prop :=
  r.level = Level.debug ∧ ∃ value, r.tag = some value ∧ value ≠ .null

namespace Tags

def comma : CodePoint := ','

/-- A list names a tag: somewhere between its commas there is nothing but the tag, which is not
empty, and blanks around it. -/
def Names (list tag : Text) : Prop :=
  tag ≠ [] ∧ tag.IsTrimmed ∧ ∃ part, Text.IsPart comma part list ∧ tag.IsPadded part

/-- A list lets a record with a tag through: it names the star or the tag. -/
def Lets (list : Text) (r : Record) : Prop :=
  Names list star ∨ ∃ t, r.tag = some (.string t) ∧ Names list t

def Shows (list : Text) (r : Record) : Prop := (ofText list).passes r.level r.tag = .ok true

section Named

variable {list other a b tag : Text}

/-- A list names a tag just if a part of it is the tag with blanks around it. -/
theorem names_iff :
    Names list tag ↔ tag ≠ [] ∧ ∃ part ∈ Text.split comma list, part.trim = tag := by
  simp only [Names, Text.mem_split_iff, Text.trim_eq_iff]
  refine and_congr_right fun _ => ⟨?_,?_⟩
  · rintro ⟨htrimmed,part,hpart,hpadded⟩
    exact ⟨part,hpart,htrimmed,hpadded⟩
  · rintro ⟨part,hpart,htrimmed,hpadded⟩
    exact ⟨htrimmed,part,hpart,hpadded⟩

/-- The tags that are switched on are those that the list names. -/
theorem mem_enabled_iff : tag ∈ (ofText list).enabled ↔ Names list tag := by
  rw [names_iff, ofText, Text.mem_sortedSet, List.mem_filter, List.mem_map,
    decide_eq_true_eq, and_comm]
  rfl

/-- A comma between two lists makes no part of its own and breaks none. -/
theorem names_append : Names (a ++ comma :: b) tag ↔ Names a tag ∨ Names b tag := by
  simp only [names_iff, Text.split_append, List.mem_append, or_and_right, exists_or, and_or_left]

theorem not_names_nil : ¬Names [] tag := by
  rw [names_iff]
  rintro ⟨hne,part,hpart,rfl⟩
  obtain rfl := List.mem_singleton.mp hpart
  exact hne rfl

theorem names_part {part : Text} (h : comma ∉ part) :
    Names part tag ↔ tag ≠ [] ∧ part.trim = tag := by
  rw [names_iff, Text.split_of_not_mem h]
  simp only [List.mem_singleton, exists_eq_left]

/-- By induction on the lists that are joined. -/
theorem names_join (lists : List Text) :
    Names (Text.join [comma] lists) tag ↔ ∃ list ∈ lists, Names list tag := by
  induction lists with
  | nil =>
    simp only [List.not_mem_nil, false_and, exists_false, iff_false]
    exact not_names_nil
  | cons first rest ih =>
    cases rest with
    | nil => simp only [Text.join_singleton, List.mem_singleton, exists_eq_left]
    | cons next more =>
      rw [Text.join_cons_cons, List.singleton_append, names_append, ih]
      simp only [List.mem_cons, or_and_right, exists_or, exists_eq_left]

/-- The tags that are switched on are kept in order, so they are told by what is among them. -/
theorem ofText_congr (h : ∀ tag, Names list tag ↔ Names other tag) :
    ofText list = ofText other := by
  have henabled : (ofText list).enabled = (ofText other).enabled := by
    refine (Text.sortedSet_sortedLT _).eq_of_mem_iff (Text.sortedSet_sortedLT _) fun tag => ?_
    exact mem_enabled_iff.trans ((h tag).trans mem_enabled_iff.symm)
  exact congrArg mk henabled

/-- Two lists joined by a comma let through what either of them does. -/
theorem lets_append {r : Record} : Lets (a ++ comma :: b) r ↔ Lets a r ∨ Lets b r := by
  simp only [Lets, names_append, and_or_left, exists_or]
  exact or_or_or_comm

theorem Names.comma_not_mem (h : Names list tag) : comma ∉ tag := by
  obtain ⟨_,_,part,⟨hcomma,_⟩,before,behind,rfl,_⟩ := h
  exact fun hmem => hcomma (List.mem_append_right before (List.mem_append_left behind hmem))

end Named

section Shown

variable {r : Record}

theorem allowsAll_iff (list : Text) : (ofText list).allowsAll = true ↔ Names list star := by
  rw [allowsAll, List.contains_iff_mem, mem_enabled_iff]

theorem allows_of_star {list : Text} (h : Names list star) (value : Json) :
    (ofText list).allows value = .ok true := if_pos ((allowsAll_iff list).mpr h)

/-- Where the star is not named, only a text can be one of the tags. -/
theorem allows_of_not_star {list : Text} (h : ¬Names list star) (value : Json) :
    (ofText list).allows value = match value with
      | .string t => .ok ((ofText list).enabled.contains t)
      | .array _ | .object _ => .error (.unhashable value.kindName)
      | _ => .ok false := if_neg (mt (allowsAll_iff list).mp h)

/-- A value is allowed if the list names the star or the value is a text that the list names. -/
theorem allows_iff (list : Text) (value : Json) :
    (ofText list).allows value = .ok true ↔
      Names list star ∨ ∃ t, value = .string t ∧ Names list t := by
  by_cases hstar : Names list star
  · exact ⟨fun _ => Or.inl hstar,fun _ => allows_of_star hstar value⟩
  · rw [allows_of_not_star hstar, or_iff_right hstar]
    cases value with
    | string t =>
      simp only [Except.ok.injEq, List.contains_iff_mem, mem_enabled_iff, Json.string.injEq,
        exists_eq_left']
    | null | bool _ | int _ | float _ | array _ | object _ =>
      simp only [reduceCtorEq, false_and, exists_false,
        Except.ok.injEq, Bool.false_eq_true]

/-- Looking for a value fails for lists and objects, unless the list names the star. -/
theorem allows_eq_error_iff (list : Text) (value : Json) :
    (∃ e, (ofText list).allows value = .error e) ↔
      ¬Names list star ∧ ((∃ items, value = .array items) ∨ ∃ fields, value = .object fields) := by
  by_cases hstar : Names list star
  · rw [allows_of_star hstar]
    simp only [reduceCtorEq, exists_false, hstar, not_true_eq_false, false_and]
  · rw [allows_of_not_star hstar, and_iff_right hstar]
    cases value <;> simp

/-- A record that is not gated passes, as it is its level that lets it pass if it carries a tag. -/
theorem passes_of_not_isGated (tags : Tags) (h : ¬r.IsGated) :
    tags.passes r.level r.tag = .ok true := by
  cases htag : r.tag with
  | none => rfl
  | some value =>
    cases value with
    | null => rfl
    | bool _ | int _ | float _ | string _ | array _ | object _ =>
      refine if_neg fun hdebug => h ⟨hdebug,_,htag,?_⟩
      nofun

/-- A record of the lowest level with a tag passes if the tag is allowed. -/
theorem passes_of_isGated (tags : Tags) {value : Json} (hdebug : r.level = Level.debug)
    (htag : r.tag = some value) (hnull : value ≠ .null) :
    tags.passes r.level r.tag = tags.allows value := by
  rw [htag]
  cases value with
  | null => exact absurd rfl hnull
  | bool _ | int _ | float _ | string _ | array _ | object _ => exact if_pos hdebug

/-- A record shows just if it is not gated or the list lets it through. -/
theorem shows_iff (list : Text) (r : Record) :
    Shows list r ↔ ¬r.IsGated ∨ Lets list r := by
  by_cases hgated : r.IsGated
  · rw [or_iff_right (not_not.mpr hgated)]
    obtain ⟨hdebug,value,htag,hnull⟩ := hgated
    rw [Shows, passes_of_isGated _ hdebug htag hnull, allows_iff, Lets, htag]
    simp only [Option.some.injEq]
  · exact ⟨fun _ => Or.inl hgated,fun _ => passes_of_not_isGated _ hgated⟩

/-- A record gets an answer unless its tag can be looked for in no list, and would have to be. -/
theorem passes_eq_error_iff (list : Text) (r : Record) :
    (∃ e, (ofText list).passes r.level r.tag = .error e) ↔
      r.level = Level.debug ∧ ¬Names list star ∧
      ((∃ items, r.tag = some (.array items)) ∨ ∃ fields, r.tag = some (.object fields)) := by
  by_cases hgated : r.IsGated
  · obtain ⟨hdebug,value,htag,hnull⟩ := hgated
    rw [passes_of_isGated _ hdebug htag hnull, allows_eq_error_iff, htag]
    simp only [hdebug, Option.some.injEq, true_and]
  · constructor
    · rintro ⟨e,he⟩
      rw [passes_of_not_isGated _ hgated] at he
      cases he
    · rintro ⟨hdebug,_,⟨items,htag⟩ | ⟨fields,htag⟩⟩
      · exact absurd ⟨hdebug,_,htag,nofun⟩ hgated
      · exact absurd ⟨hdebug,_,htag,nofun⟩ hgated

/-- Two lists joined by a comma show what either of them shows. -/
theorem shows_append (a b : Text) (r : Record) :
    Shows (a ++ comma :: b) r ↔ Shows a r ∨ Shows b r := by
  rw [shows_iff, shows_iff, shows_iff, lets_append]
  exact or_or_distrib_left

/-- No list names a tag with a comma in it or with a blank at one of its ends. -/
theorem shows_odd_iff {list t : Text} (hdebug : r.level = Level.debug)
    (htag : r.tag = some (.string t)) (hodd : comma ∈ t ∨ ¬t.IsTrimmed) :
    Shows list r ↔ Names list star := by
  have hunnamed : ¬Names list t :=
    fun hnamed => hodd.elim hnamed.comma_not_mem fun hblank => hblank hnamed.2.1
  have hlets : Lets list r ↔ Names list star := by
    refine or_iff_left ?_
    rintro ⟨t',htag',hnamed⟩
    rw [htag, Option.some_inj, Json.string.injEq] at htag'
    exact hunnamed (htag' ▸ hnamed)
  rw [shows_iff, or_iff_right (not_not.mpr ⟨hdebug,_,htag,nofun⟩), hlets]

end Shown

/-- Only what is left of the parts of a list counts: neither blanks around them and parts of nothing
but blanks, nor their order, nor how often they come. -/
theorem ofText_join_congr {parts others : List Text} (hparts : ∀ part ∈ parts, comma ∉ part)
    (hothers : ∀ part ∈ others, comma ∉ part)
    (h : ∀ tag ≠ [], (∃ part ∈ parts, part.trim = tag) ↔ ∃ part ∈ others, part.trim = tag) :
    ofText (Text.join [comma] parts) = ofText (Text.join [comma] others) := by
  have hnames {list : List Text} (hlist : ∀ part ∈ list, comma ∉ part) (tag : Text) :
      Names (Text.join [comma] list) tag ↔ tag ≠ [] ∧ ∃ part ∈ list, part.trim = tag := by
    rw [names_join]
    constructor
    · rintro ⟨part,hpart,hnamed⟩
      obtain ⟨hne,htrim⟩ := (names_part (hlist part hpart)).mp hnamed
      exact ⟨hne,part,hpart,htrim⟩
    · rintro ⟨hne,part,hpart,htrim⟩
      exact ⟨part,hpart,(names_part (hlist part hpart)).mpr ⟨hne,htrim⟩⟩
  refine ofText_congr fun tag => ?_
  rw [hnames hparts, hnames hothers]
  exact and_congr_right (h tag)

/-- Two lists of tags with a comma between them switch on the tags of both and show the records that
either of them shows. A record is shown if it carries no tag or is no debugging record, and else if
the list names the star or the tag; only a tag that is no text may end in a fault instead. So a tag
with a comma in it or with a blank at one of its ends is switched on by the star alone, and of the
parts of a list only what is left of them without blanks counts. -/
theorem joined_lists_show_either (a b : Text) :
    (∀ tag, tag ∈ (ofText (a ++ comma :: b)).enabled ↔
      tag ∈ (ofText a).enabled ∨ tag ∈ (ofText b).enabled) ∧
      (∀ r, Shows (a ++ comma :: b) r ↔ Shows a r ∨ Shows b r) ∧
      (∀ r, Shows a r ↔ ¬r.IsGated ∨ Names a star ∨ ∃ t, r.tag = some (.string t) ∧ Names a t) ∧
      (∀ r : Record, (∃ e, (ofText a).passes r.level r.tag = .error e) ↔
        r.level = Level.debug ∧ ¬Names a star ∧
        ((∃ items, r.tag = some (.array items)) ∨ ∃ fields, r.tag = some (.object fields))) ∧
      (∀ r t, r.level = Level.debug → r.tag = some (.string t) → comma ∈ t ∨ ¬t.IsTrimmed →
        (Shows a r ↔ Names a star)) ∧
      ∀ parts others : List Text, (∀ part ∈ parts, comma ∉ part) → (∀ part ∈ others, comma ∉ part) →
        (∀ tag ≠ [], (∃ part ∈ parts, part.trim = tag) ↔ ∃ part ∈ others, part.trim = tag) →
        ofText (Text.join [comma] parts) = ofText (Text.join [comma] others) := by
  refine ⟨fun tag => ?_,shows_append a b,shows_iff a,passes_eq_error_iff a,?_,?_⟩
  · rw [mem_enabled_iff, mem_enabled_iff, mem_enabled_iff, names_append]
  · exact fun r t hdebug htag hodd => shows_odd_iff hdebug htag hodd
  · exact fun parts others hparts hothers h => ofText_join_congr hparts hothers h

/-- A list with blanks around its tags, a part without any and a tag twice, and a tag that starts
with a blank. -/
theorem joined_lists_show_either_untidy :
    let parts : List Text := [" state","","parser ","state"]
    let others : List Text := ["parser","state"]
    let r : Record :=
      { Log.note "state" Level.debug "Selected" with tag := some (.string " state") }
    r.level = Level.debug ∧ r.tag = some (.string " state") ∧ ¬Text.IsTrimmed " state" ∧
      (Shows (Text.join [comma] parts) r ↔ Names (Text.join [comma] parts) star) ∧
      ofText (Text.join [comma] parts) = ofText (Text.join [comma] others) := by
  intro parts others r
  have hblank : ¬Text.IsTrimmed " state" := fun h => nomatch h.1 _ rfl
  have hparts : parts.map Text.trim = (["state",[],"parser","state"] : List Text) := by
    decide +kernel
  have hothers : others.map Text.trim = (["parser","state"] : List Text) := by decide +kernel
  obtain ⟨_,_,_,_,hstar,hcongr⟩ := joined_lists_show_either (Text.join [comma] parts) []
  refine ⟨rfl,rfl,hblank,hstar r _ rfl rfl (Or.inr hblank),?_⟩
  refine hcongr parts others (by decide +kernel) (by decide +kernel) ?_
  intro tag htag
  rw [← List.mem_map, ← List.mem_map, hparts, hothers]
  simp only [List.mem_cons, List.not_mem_nil, htag, or_false, false_or]
  rw [or_left_comm, or_self]

end Tags

end Log

end CategorySelection
