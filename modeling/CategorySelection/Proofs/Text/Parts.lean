import CategorySelection.Proofs.Text.Basic
/-!
Parts of texts. The parts between the separators of a text are the longest stretches of it without
one, and what is left of a text without the blanks around it neither starts nor ends with a blank.
-/

namespace CategorySelection.Text

/-- A part of a text without separators in it, which reaches from a separator or the front of the
text to the next separator or the end. -/
def IsPart (separator : CodePoint) (part t : Text) : Prop :=
  separator ∉ part ∧ ∃ before behind : Text, t = before ++ (part ++ behind) ∧
    (before = [] ∨ ∃ others, before = others ++ [separator]) ∧
    (behind = [] ∨ ∃ others, behind = separator :: others)

def IsTrimmed (t : Text) : Prop :=
  (∀ c ∈ t.head?, c.isBlank = false) ∧ ∀ c ∈ t.getLast?, c.isBlank = false

def IsPadded (t padded : Text) : Prop :=
  ∃ before behind : Text, padded = before ++ (t ++ behind) ∧ before.isBlank = true ∧
    behind.isBlank = true

section Split

variable {separator : CodePoint} {part t : Text}

theorem mem_split_of_isPart (h : IsPart separator part t) : part ∈ split separator t := by
  obtain ⟨hpart,before,behind,rfl,hbefore,hbehind⟩ := h
  have hfirst : part ∈ split separator (part ++ behind) := by
    rcases hbehind with rfl | ⟨others,rfl⟩
    · rw [List.append_nil, split_of_not_mem hpart]
      exact List.mem_singleton_self part
    · rw [split_append, split_of_not_mem hpart]
      exact List.mem_cons_self
  rcases hbefore with rfl | ⟨others,rfl⟩
  · exact hfirst
  · rw [List.append_assoc, List.singleton_append, split_append]
    exact List.mem_append_right _ hfirst

/-- By induction on the length: a text is cut at its first separator. -/
theorem isPart_of_mem_split (h : part ∈ split separator t) : IsPart separator part t := by
  induction hlength : t.length using Nat.strongRecOn generalizing t with
  | _ length ih =>
    by_cases hmem : separator ∈ t
    · obtain ⟨first,others,rfl,hfirst⟩ := List.eq_append_cons_of_mem hmem
      rw [split_append, split_of_not_mem hfirst, List.singleton_append, List.mem_cons] at h
      rcases h with rfl | h
      · exact ⟨hfirst,[],_,rfl,Or.inl rfl,Or.inr ⟨others,rfl⟩⟩
      · have hless : others.length < length := by
          rw [← hlength, List.length_append, List.length_cons]
          omega
        obtain ⟨hpart,before,behind,rfl,hbefore,hbehind⟩ := ih others.length hless h rfl
        have hwhole : first ++ separator :: (before ++ (part ++ behind)) =
            (first ++ separator :: before) ++ (part ++ behind) := by
          rw [List.append_assoc, List.cons_append]
        refine ⟨hpart,first ++ separator :: before,behind,hwhole,Or.inr ?_,hbehind⟩
        rcases hbefore with rfl | ⟨more,rfl⟩
        · exact ⟨first,rfl⟩
        · exact ⟨first ++ separator :: more,by rw [List.append_assoc, List.cons_append]⟩
    · rw [split_of_not_mem hmem, List.mem_singleton] at h
      rw [h]
      exact ⟨hmem,[],[],(List.append_nil t).symm,Or.inl rfl,Or.inl rfl⟩

/-- The parts of a text are those between its separators. -/
theorem mem_split_iff : part ∈ split separator t ↔ IsPart separator part t :=
  ⟨isPart_of_mem_split,mem_split_of_isPart⟩

end Split

section Trim

variable {t u : Text}

theorem isBlank_reverse (t : Text) : isBlank t.reverse = t.isBlank := List.all_reverse

theorem isBlank_append : isBlank (t ++ u) = (t.isBlank && u.isBlank) := List.all_append

/-- Trimming on the left takes blanks away and nothing else. -/
theorem exists_trimLeft (t : Text) : ∃ blanks :
    Text, blanks.isBlank = true ∧ t = blanks ++ t.trimLeft :=
  ⟨t.takeWhile CodePoint.isBlank,List.all_takeWhile,List.takeWhile_append_dropWhile.symm⟩

theorem trimRight_eq (t : Text) : t.trimRight = (trimLeft t.reverse).reverse := rfl

theorem exists_trimRight (t : Text) : ∃ blanks :
    Text, blanks.isBlank = true ∧ t = t.trimRight ++ blanks := by
  obtain ⟨blanks,hblanks,hreverse⟩ := exists_trimLeft t.reverse
  refine ⟨blanks.reverse,(isBlank_reverse blanks).trans hblanks,?_⟩
  rw [trimRight_eq, ← List.reverse_append, ← hreverse, List.reverse_reverse]

theorem head?_trimLeft (t : Text) : ∀ c ∈ t.trimLeft.head?, c.isBlank = false := by
  intro c hc
  have hhead := List.head?_dropWhile_not CodePoint.isBlank t
  rw [← trimLeft, Option.mem_def.mp hc] at hhead
  exact hhead

/-- Blanks before a text that does not start with one are all that is dropped. -/
theorem trimLeft_append {blanks : Text} (hblanks : blanks.isBlank = true)
    (hu : ∀ c ∈ u.head?, c.isBlank = false) : trimLeft (blanks ++ u) = u := by
  rw [trimLeft, List.dropWhile_append_of_pos (List.all_eq_true.mp hblanks)]
  cases u with
  | nil => rfl
  | cons c rest => exact List.dropWhile_cons_of_neg (Bool.eq_false_iff.mp (hu c rfl))

theorem trimRight_append {blanks : Text} (hblanks : blanks.isBlank = true)
    (hu : ∀ c ∈ u.getLast?, c.isBlank = false) : trimRight (u ++ blanks) = u := by
  rw [← List.head?_reverse] at hu
  rw [trimRight_eq, List.reverse_append,
    trimLeft_append ((isBlank_reverse blanks).trans hblanks) hu, List.reverse_reverse]

/-- A trimmed text has no blanks at its ends: what is left starts as the text does once the blanks
before it are dropped. -/
theorem isTrimmed_trim (t : Text) : t.trim.IsTrimmed := by
  obtain ⟨blanks,_,hleft⟩ := exists_trimRight t.trimLeft
  refine ⟨?_,?_⟩
  · intro c hc
    apply head?_trimLeft t c
    rw [hleft, ← trim, List.head?_append, Option.mem_def.mp hc]
    rfl
  · rw [trim, trimRight_eq, List.getLast?_reverse]
    exact head?_trimLeft _

theorem isPadded_trim (t : Text) : t.trim.IsPadded t := by
  obtain ⟨before,hbefore,hleft⟩ := exists_trimLeft t
  obtain ⟨behind,hbehind,hright⟩ := exists_trimRight t.trimLeft
  exact ⟨before,behind,hleft.trans (congrArg (before ++ ·) hright),hbefore,hbehind⟩

/-- A trimmed text with blanks around it is trimmed to that text. -/
theorem trim_of_isPadded (hu : u.IsTrimmed) (h : u.IsPadded t) : t.trim = u := by
  obtain ⟨before,behind,rfl,hbefore,hbehind⟩ := h
  cases u with
  | nil =>
    have hall : isBlank (before ++ behind) = true := by
      rw [isBlank_append, hbefore, hbehind]
      rfl
    have hnone := trimLeft_append (u := []) hall nofun
    rw [List.append_nil] at hnone
    rw [trim, List.nil_append, hnone]
    rfl
  | cons c rest =>
    have hhead : ∀ d ∈ ((c :: rest) ++ behind).head?, CodePoint.isBlank d = false := hu.1
    rw [trim, trimLeft_append hbefore hhead, trimRight_append hbehind hu.2]

theorem trim_eq_self (h : ∀ c ∈ t, CodePoint.isBlank c = false) : t.trim = t := by
  have htrimmed : t.IsTrimmed :=
    ⟨fun c hc => h c (List.mem_of_mem_head? hc),fun c hc => h c (List.mem_of_mem_getLast? hc)⟩
  exact trim_of_isPadded htrimmed ⟨[],[],(List.append_nil t).symm,rfl,rfl⟩

/-- The text that is left is the one without blanks at its ends around which there are blanks
only. -/
theorem trim_eq_iff : t.trim = u ↔ u.IsTrimmed ∧ u.IsPadded t := by
  constructor
  · rintro rfl
    exact ⟨isTrimmed_trim t,isPadded_trim t⟩
  · exact fun h => trim_of_isPadded h.1 h.2

end Trim

end CategorySelection.Text
