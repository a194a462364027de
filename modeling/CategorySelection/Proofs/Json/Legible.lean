import CategorySelection.Proofs.Json.Within
/-!
What reading gives. A value that was read is nested no deeper than the reader goes, its whole
numbers have no more digits than it takes, and the names of each of its objects are distinct.
-/

namespace CategorySelection

theorem Except.exists_of_map_eq_ok {ε α β : Type} {f : α → β} {x : Except ε α} {b : β}
    (h : f <$> x = .ok b) : ∃ a, x = .ok a ∧ f a = b := by
  cases x with
  | error e => cases h
  | ok a => exact ⟨a,rfl,Except.ok.inj h⟩

theorem Except.exists_of_bind_eq_ok {ε α β : Type} {f : α → Except ε β} {x : Except ε α} {b : β}
    (h : (x >>= f) = .ok b) : ∃ a, x = .ok a ∧ f a = .ok b := by
  cases x with
  | error e => cases h
  | ok a => exact ⟨a,rfl,h⟩

namespace Assoc

variable {α : Type}

theorem mem_of_mem_put {entry : Text × α} {name : Text} {a : α} {table : Assoc α}
    (h : entry ∈ put name a table) : entry = (name,a) ∨ entry ∈ table := by
  induction table with
  | nil => exact Or.inl (List.mem_singleton.mp h)
  | cons other rest ih =>
    rw [put] at h
    split_ifs at h with hn
    · rcases List.mem_cons.mp h with rfl | h
      · exact Or.inl (by rw [hn])
      · exact Or.inr (List.mem_cons_of_mem _ h)
    · rcases List.mem_cons.mp h with rfl | h
      · exact Or.inr List.mem_cons_self
      · exact (ih h).imp_right (List.mem_cons_of_mem _)

/-- A table of entries has distinct names and no entry that was not given. -/
theorem ofPairs_spec (pairs : List (Text × α)) :
    (names (ofPairs pairs)).Nodup ∧ ∀ entry ∈ ofPairs pairs, entry ∈ pairs := by
  rw [ofPairs]
  induction pairs using List.reverseRecOn with
  | nil => exact ⟨List.nodup_nil,List.forall_mem_nil _⟩
  | append_singleton pairs pair ih =>
    obtain ⟨hdistinct,hmem⟩ := ih
    rw [List.foldl_append, List.foldl_cons, List.foldl_nil]
    refine ⟨nodup_names_put _ _ _ hdistinct,?_⟩
    intro entry hentry
    rcases mem_of_mem_put hentry with rfl | hentry
    · exact List.mem_append_right _ (List.mem_singleton.mpr rfl)
    · exact List.mem_append_left _ (hmem entry hentry)

end Assoc

namespace Json

def FewDigits : Json → Prop
  | .int n => (Text.ofNat n.natAbs).length ≤ maxDigits
  | _ => True

def Legible (depth : Nat) (value : Json) : Prop := Within FewDigits (fun _ => True) depth value

section Numbers

variable {t rest : Text} {value : Json}

theorem spanDigits_all (t : Text) : ∀ c ∈ (spanDigits t).1, c.isAsciiDigit = true := by
  rw [spanDigits, List.span_eq_takeWhile_dropWhile]
  exact List.all_eq_true.mp List.all_takeWhile

/-- The digits before the point of a numeral are at least one, and nothing but digits. -/
theorem wholeDigits?_spec {whole : Text} (h : wholeDigits? t = some (whole,rest)) :
    (∀ c ∈ whole, c.isAsciiDigit = true) ∧ 0 < whole.length := by
  cases t with
  | nil => cases h
  | cons c tail =>
    rw [wholeDigits?] at h
    split_ifs at h with hzero hdigit
    · obtain ⟨rfl,_⟩ := Prod.mk.inj (Option.some_inj.mp h)
      exact ⟨List.forall_mem_singleton.mpr rfl,Nat.one_pos⟩
    · have hall := spanDigits_all (c :: tail)
      rw [Option.some_inj] at h
      rw [h] at hall
      refine ⟨hall,?_⟩
      rw [spanDigits, List.span_eq_takeWhile_dropWhile, List.takeWhile_cons_of_pos hdigit] at h
      rw [← (Prod.mk.inj h).1]
      exact Nat.succ_pos _

/-- A number that was read has no more digits than its numeral. Leading zeros are refused, but the
bound does not need that. -/
theorem legible_of_readNumber (depth : Nat) (h : readNumber t = .ok (value,rest)) :
    Legible depth value := by
  rw [readNumber.eq_def] at h
  dsimp only at h
  split at h
  · cases h
  · next whole tail hwhole =>
    obtain ⟨hall,hpos⟩ := wholeDigits?_spec hwhole
    split at h
    · split at h
      · cases h
      · next hlength =>
        obtain ⟨rfl,_⟩ := Prod.mk.inj (Except.ok.inj h)
        have hdigits := Text.length_ofNat_le hpos (digitsValue_lt hall)
        have habs (negative : Bool) : (if negative = true then -(digitsValue whole : Int)
            else digitsValue whole).natAbs = digitsValue whole := by
          cases negative
          · exact Int.natAbs_natCast _
          · exact (Int.natAbs_neg _).trans (Int.natAbs_natCast _)
        refine .scalar rfl ?_
        rw [FewDigits, habs]
        omega
    · obtain ⟨rfl,_⟩ := Prod.mk.inj (Except.ok.inj h)
      exact .scalar rfl trivial

/-- A word or number that was read is within the limits of the reader. -/
theorem legible_of_readScalar (depth : Nat) (h : readScalar t = .ok (value,rest)) :
    Legible depth value := by
  rw [readScalar] at h
  split at h
  · next result hresult =>
    obtain ⟨word,hword,hfound⟩ := List.exists_of_findSome?_eq_some hresult
    obtain ⟨_,_,rfl⟩ := Option.map_eq_some_iff.mp hfound
    obtain ⟨rfl,_⟩ := Prod.mk.inj (Except.ok.inj h)
    simp only [words, List.mem_cons, List.not_mem_nil, or_false] at hword
    rcases hword with rfl | rfl | rfl | rfl | rfl | rfl <;> exact .scalar rfl trivial
  · exact legible_of_readNumber depth h

end Numbers

section Parts

variable {fuel : Nat}

/-- What the reader gives with some fuel: values, the values of an array and those of an object. -/
structure GivesLegible (fuel : Nat) : Prop where
  value : ∀ depth t v rest, readValue fuel depth t = .ok (v,rest) → Legible depth v
  items : ∀ depth t items rest, readItems fuel depth t = .ok (items,rest) →
    ∀ item ∈ items, Legible depth item
  fields : ∀ depth t fields rest, readFields fuel depth t = .ok (fields,rest) →
    ∀ field ∈ fields, Legible depth field.2

theorem legible_of_map_readItems (h : GivesLegible fuel) {depth : Nat} {t : Text} {v : Json}
    {rest : Text}
    (hmap : (fun (items, r) => (Json.array items, r)) <$> readItems fuel depth t = .ok (v,rest)) :
    Legible (depth+1) v := by
  obtain ⟨⟨items,_⟩,hitems,hv⟩ := Except.exists_of_map_eq_ok hmap
  obtain ⟨rfl,_⟩ := Prod.mk.inj hv
  exact .array (h.items _ _ _ _ hitems)

/-- A value that was read is within the limits if its parts are. The first code point tells a
string, an array and an object apart, and of fields with one name only one is kept. -/
theorem legible_of_readValue (h : GivesLegible fuel) {depth : Nat} {t : Text} {v : Json}
    {rest : Text} (hread : readValue (fuel+1) depth t = .ok (v,rest)) : Legible depth v := by
  cases t with
  | nil => cases hread
  | cons c tail =>
    rw [readValue.eq_def] at hread
    dsimp only at hread
    split_ifs at hread
    · obtain ⟨_,_,hv⟩ := Except.exists_of_map_eq_ok hread
      obtain ⟨rfl,_⟩ := Prod.mk.inj hv
      exact .scalar rfl trivial
    · cases depth with
      | zero => cases hread
      | succ depth =>
        dsimp only at hread
        split at hread
        · exact legible_of_map_readItems h hread
        · split_ifs at hread
          · obtain ⟨rfl,_⟩ := Prod.mk.inj (Except.ok.inj hread)
            exact .array (List.forall_mem_nil _)
          · exact legible_of_map_readItems h hread
    · cases depth with
      | zero => cases hread
      | succ depth =>
        dsimp only at hread
        split at hread
        · cases hread
        split_ifs at hread
        · obtain ⟨rfl,_⟩ := Prod.mk.inj (Except.ok.inj hread)
          exact .object List.nodup_nil (List.forall_mem_nil _) (List.forall_mem_nil _)
        · obtain ⟨⟨fields,_⟩,hfields,hv⟩ := Except.exists_of_map_eq_ok hread
          obtain ⟨rfl,_⟩ := Prod.mk.inj hv
          obtain ⟨hdistinct,hmem⟩ := Assoc.ofPairs_spec fields
          exact .object hdistinct (fun _ _ => trivial)
            fun field hfield => h.fields _ _ _ _ hfields field (hmem field hfield)
    · exact legible_of_readScalar depth hread

/-- The values of an array that was read are within the limits. -/
theorem legible_of_readItems (h : GivesLegible fuel) {depth : Nat} {t : Text} {items : List Json}
    {rest : Text} (hread : readItems (fuel+1) depth t = .ok (items,rest)) :
    ∀ item ∈ items, Legible depth item := by
  rw [readItems] at hread
  obtain ⟨⟨item,tail⟩,hitem,hread⟩ := Except.exists_of_bind_eq_ok hread
  have hfirst := h.value _ _ _ _ hitem
  dsimp only at hread
  split at hread
  · cases hread
  · split_ifs at hread
    · obtain ⟨rfl,_⟩ := Prod.mk.inj (Except.ok.inj hread)
      exact List.forall_mem_singleton.mpr hfirst
    · obtain ⟨⟨others,_⟩,hothers,hread⟩ := Except.exists_of_bind_eq_ok hread
      obtain ⟨rfl,_⟩ := Prod.mk.inj (Except.ok.inj hread)
      exact List.forall_mem_cons.mpr ⟨hfirst,h.items _ _ _ _ hothers⟩

/-- The values of an object that was read are within the limits. -/
theorem legible_of_readFields (h : GivesLegible fuel) {depth : Nat} {t : Text}
    {fields : List (Text × Json)} {rest : Text}
    (hread : readFields (fuel+1) depth t = .ok (fields,rest)) :
    ∀ field ∈ fields, Legible depth field.2 := by
  cases t with
  | nil => cases hread
  | cons c tail =>
    rw [readFields.eq_def] at hread
    dsimp only at hread
    split_ifs at hread
    obtain ⟨⟨name,tail⟩,_,hread⟩ := Except.exists_of_bind_eq_ok hread
    dsimp only at hread
    split at hread
    · cases hread
    split_ifs at hread
    obtain ⟨⟨value,tail⟩,hvalue,hread⟩ := Except.exists_of_bind_eq_ok hread
    have hfirst := h.value _ _ _ _ hvalue
    dsimp only at hread
    split at hread
    · cases hread
    split_ifs at hread
    · obtain ⟨rfl,_⟩ := Prod.mk.inj (Except.ok.inj hread)
      exact List.forall_mem_singleton.mpr hfirst
    · obtain ⟨⟨others,_⟩,hothers,hread⟩ := Except.exists_of_bind_eq_ok hread
      obtain ⟨rfl,_⟩ := Prod.mk.inj (Except.ok.inj hread)
      exact List.forall_mem_cons.mpr ⟨hfirst,h.fields _ _ _ _ hothers⟩

/-- By induction on the fuel: each of the three readers calls the others with less. -/
theorem givesLegible (fuel : Nat) : GivesLegible fuel := by
  induction fuel with
  | zero =>
    constructor <;> intro depth t v rest h
    · cases h
    · cases h
    · cases h
  | succ fuel ih =>
    exact ⟨fun _ _ _ _ => legible_of_readValue ih,fun _ _ _ _ => legible_of_readItems ih,
      fun _ _ _ _ => legible_of_readFields ih⟩

/-- Every value that was read is within the limits of the reader. -/
theorem legible_of_read {t : Text} {v : Json} (h : read t = .ok v) : Legible maxNesting v := by
  have hall : readAll t = .ok v := by
    rw [read.eq_def] at h
    split at h
    · cases h
    · cases hr : readAll t with
      | error e =>
        rw [hr] at h
        cases h
      | ok value =>
        rw [hr] at h
        rw [← Except.ok.inj h]
  rw [readAll] at hall
  obtain ⟨⟨value,rest⟩,hvalue,hall⟩ := Except.exists_of_bind_eq_ok hall
  dsimp only at hall
  split at hall
  · rw [← Except.ok.inj hall]
    exact (givesLegible _).value _ _ _ _ hvalue
  · cases hall

end Parts

end Json

end CategorySelection
