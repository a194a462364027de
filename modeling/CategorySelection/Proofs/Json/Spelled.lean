import CategorySelection.Proofs.Json.Kept
/-!
Texts whose page form has bytes. Every name and every string of a value stands in its page form,
single surrogates included, so a value whose page form can be written has none of them.
-/

namespace CategorySelection.Json

/-- A single surrogate has no escape in a text that is not kept to ASCII, so it stands in the
string. All code points with a letter of their own are in ASCII. -/
theorem isEncodable_of_writeString {t : Text} (h : Text.isEncodable (writeString false t) = true) :
    t.isEncodable = true := by
  rw [Text.isEncodable_iff] at h ⊢
  intro c hc
  by_contra hsurrogate
  rw [Bool.not_eq_false] at hsurrogate
  have hletter : escapeLetter? c = none := by
    rw [escapeLetter?]
    split_ifs with hquote
    · rcases hquote with rfl | rfl <;> cases hsurrogate
    all_goals first | rfl | (subst_vars; cases hsurrogate)
  have hself : escape false c = [c] := by
    have hrange := hsurrogate
    simp only [CodePoint.isSurrogate, CodePoint.isBetween, Bool.and_eq_true,
      decide_eq_true_eq] at hrange
    rw [escape_of_no_letter false hletter, if_neg]
    rintro (hcontrol | ⟨hascii,_⟩)
    · omega
    · cases hascii
  have hmem : c ∈ writeString false t := by
    rw [← List.append_nil (writeString false t), writeString_append]
    refine List.mem_cons_of_mem _ (List.mem_append_left _ (List.mem_flatMap.mpr ⟨c,hc,?_⟩))
    rw [hself]
    exact List.mem_singleton_self c
  rw [h c hmem] at hsurrogate
  cases hsurrogate

theorem Gaps.mem_joined (gaps : Gaps) {parts : List Text} {part : Text} (h : part ∈ parts)
    {c : CodePoint} (hc : c ∈ part) : c ∈ gaps.joined parts := by
  induction parts with
  | nil => cases h
  | cons first rest ih =>
    cases rest with
    | nil =>
      rw [gaps.joined_singleton]
      rwa [List.mem_singleton.mp h] at hc
    | cons next tail =>
      rw [gaps.joined_cons_cons]
      rcases List.mem_cons.mp h with rfl | hmem
      · exact List.mem_append_left _ hc
      · exact List.mem_append_right _ (List.mem_cons_of_mem _ (List.mem_append_right _ (ih hmem)))

/-- A text has bytes if all of its code points stand in one that has. -/
theorem isEncodable_of_subset {t u : Text} (h : u.isEncodable = true) (hsub : ∀ c ∈ t, c ∈ u) :
    t.isEncodable = true := by
  rw [Text.isEncodable_iff] at h ⊢
  exact fun c hc => h c (hsub c hc)

theorem Gaps.isEncodable_item (gaps : Gaps) {parts : List Text} {part : Text} (hpart : part ∈ parts)
    (h : Text.isEncodable (gaps.array parts) = true) : part.isEncodable = true := by
  refine isEncodable_of_subset h fun c hc => ?_
  have hjoined := gaps.mem_joined hpart hc
  exact List.mem_cons_of_mem _ (List.mem_append_right _ (List.mem_append_left _ hjoined))

theorem Gaps.isEncodable_field (gaps : Gaps) {parts : List Text} {part : Text}
    (hpart : part ∈ parts) (h : Text.isEncodable (gaps.object parts) = true) :
    part.isEncodable = true := by
  refine isEncodable_of_subset h fun c hc => ?_
  have hjoined := gaps.mem_joined hpart hc
  exact List.mem_cons_of_mem _ (List.mem_append_right _ (List.mem_append_left _ hjoined))

/-- What was read can be written again if its page form has bytes. By induction on the value, since
the page form of each part stands in that of the whole. -/
theorem Legible.writable_of_page {depth : Nat} {value : Json} (h : Legible depth value)
    (level : Nat) (he : (pageAt level value.sortNames).isEncodable = true) :
    Writable depth value := by
  induction h generalizing level with
  | @scalar depth value hv hdigits =>
    refine .scalar hv ⟨hdigits,?_⟩
    rw [sortNames_of_isScalar hv] at he
    cases value with
    | string t =>
      rw [pageAt, chunksAt, List.flatten_singleton] at he
      exact isEncodable_of_writeString he
    | array items => cases hv
    | object fields => cases hv
    | _ => rfl
  | @array depth items _ ih =>
    refine .array fun item hitem => ih item hitem (level+1) ?_
    rw [sortNames_array,
      pageAt_array level (List.map_eq_nil_iff.not.mpr (List.ne_nil_of_mem hitem))] at he
    exact Gaps.isEncodable_item _ (List.mem_map_of_mem (List.mem_map_of_mem hitem)) he
  | @object depth fields hdistinct _ _ ih =>
    have hentry (field : Text × Json) (hfield : field ∈ fields) :
        Text.isEncodable (writeString false field.1) = true ∧
          Text.isEncodable (pageAt (level+1) field.2.sortNames) = true := by
      have hsorted := (Assoc.mem_sorted _ _).mpr
        (List.mem_map_of_mem (f := fun field => (field.1,field.2.sortNames)) hfield)
      rw [sortNames_object, pageAt_object level (List.ne_nil_of_mem hsorted)] at he
      have hpart := Gaps.isEncodable_field _ (List.mem_map_of_mem hsorted) he
      exact ⟨isEncodable_of_subset hpart fun c hc => List.mem_append_left _
        (List.mem_append_left _ hc),
        isEncodable_of_subset hpart fun c hc => List.mem_append_right _ hc⟩
    exact .object hdistinct (fun field hfield => isEncodable_of_writeString (hentry field hfield).1)
      fun field hfield => ih field hfield (level+1) (hentry field hfield).2

end CategorySelection.Json
