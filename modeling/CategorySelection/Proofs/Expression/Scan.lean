import CategorySelection.Expression
import CategorySelection.Proofs.Text.Order
import CategorySelection.Proofs.Text.Parts
/-!
What reading an expression finds. An atom is found exactly where its written form stands and its
name does not go on, and a code point that can stand in no atom cuts the reading in two.
-/

namespace CategorySelection

structure Atom.Proper (a : Atom) : Prop where
  named : Category.isName a.name = true
  marked : a.mark ≠ .neutral

namespace Expression

def StopsName (t : Text) : Prop := ∀ c ∈ t.head?, Category.isNameChar c = false

def isBreak (c : CodePoint) : Bool := !Category.isNameChar c && c ≠ '!' && c ≠ '='

theorem stopsName_nil : StopsName [] := by
  intro c hc
  cases hc

theorem stopsName_cons {c : CodePoint} (hc : isBreak c = true) (t : Text) : StopsName (c :: t) := by
  intro d hd
  obtain rfl : c = d := Option.some_inj.mp hd
  simp only [isBreak, Bool.and_eq_true, Bool.not_eq_true'] at hc
  exact hc.1.1

def operatorOf (mark : Mark) : Text := Text.ofString (if mark = .included then "=" else "!=")

theorem operatorOf_included : operatorOf .included = [('=' : CodePoint)] := rfl

theorem operatorOf_excluded : operatorOf .excluded = [('!' : CodePoint), ('=' : CodePoint)] := rfl

theorem readOperator?_eq_some_iff (t : Text) (mark : Mark) (rest : Text) :
    readOperator? t = some (mark, rest) ↔ mark ≠ .neutral ∧ t = operatorOf mark ++ rest := by
  have hbang : CodePoint.ofChar '=' ≠ CodePoint.ofChar '!' := by decide
  cases mark with
  | neutral =>
    cases t with
    | nil => simp only [readOperator?, reduceCtorEq, ne_eq, not_true_eq_false, false_and]
    | cons c t =>
      rw [readOperator?]
      split_ifs <;> simp
  | included =>
    cases t with
    | nil =>
      simp only [readOperator?, operatorOf_included, reduceCtorEq, List.cons_append, and_false]
    | cons c t =>
      rw [readOperator?, operatorOf_included]
      split_ifs with he hx
      · simp [he]
      · simp [hx, hbang.symm]
      · simp [he]
  | excluded =>
    cases t with
    | nil =>
      simp only [readOperator?, operatorOf_excluded, reduceCtorEq, List.cons_append, and_false]
    | cons c t =>
      rw [readOperator?, operatorOf_excluded]
      split_ifs with he hx
      · simp [he, hbang]
      · simp [hx, Text.after?_eq_some_iff, Text.ofString]
      · simp [hx]

theorem write_eq (a : Atom) :
    a.write = Text.ofString "Category" ++ (operatorOf a.mark ++ a.name) :=
  List.append_assoc (Text.ofString "Category") (operatorOf a.mark) a.name

theorem isName_iff (t : Text) :
    Category.isName t = true ↔ t ≠ [] ∧ ∀ c ∈ t, Category.isNameChar c = true := by
  rw [Category.isName, Bool.and_eq_true, List.all_eq_true, Bool.not_eq_true',
    List.isEmpty_eq_false_iff]

/-- A name is taken off the front of a text up to where it stops. -/
theorem takeWhile_name {name rest : Text} (hn : ∀ c ∈ name, Category.isNameChar c = true)
    (hr : StopsName rest) : (name ++ rest).takeWhile Category.isNameChar = name := by
  rw [List.takeWhile_append_of_pos hn]
  cases rest with
  | nil => exact List.append_nil name
  | cons c rest => rw [List.takeWhile_cons_of_neg (by simp [hr c rfl]), List.append_nil]

/-- An atom is read at the front of a text exactly where its written form stands there and its name
does not go on. -/
theorem readAtom?_eq_some_iff (t : Text) (a : Atom) :
    readAtom? t = some a ↔ a.Proper ∧ ∃ rest, t = a.write ++ rest ∧ StopsName rest := by
  constructor
  · intro h
    rw [readAtom?] at h
    split at h
    · cases h
    · next mark rest hb =>
      obtain ⟨u,hu,ho⟩ := Option.bind_eq_some_iff.mp hb
      rw [Text.after?_eq_some_iff] at hu
      obtain ⟨hm,hop⟩ := (readOperator?_eq_some_iff u mark rest).mp ho
      dsimp only at h
      split_ifs at h with he
      obtain rfl := Option.some_inj.mp h
      have hname : Category.isName (rest.takeWhile Category.isNameChar) = true := by
        refine (isName_iff _).mpr ⟨?_,fun c hc => List.all_eq_true.mp List.all_takeWhile c hc⟩
        simpa only [List.isEmpty_iff] using he
      refine ⟨⟨hname,hm⟩,rest.dropWhile Category.isNameChar,?_,?_⟩
      · rw [write_eq, List.append_assoc, List.append_assoc, List.takeWhile_append_dropWhile,
          ← hop, ← hu]
      · intro c hc
        have := List.head?_dropWhile_not Category.isNameChar rest
        simpa [Option.mem_def.mp hc] using this
  · rintro ⟨⟨hn,hm⟩,rest,rfl,hr⟩
    have hb : (Text.after? "Category" (a.write ++ rest)).bind readOperator? =
        some (a.mark, a.name ++ rest) := by
      rw [write_eq, List.append_assoc, List.append_assoc, (Text.after?_eq_some_iff _ _ _).mpr rfl,
        Option.bind_some]
      exact (readOperator?_eq_some_iff _ _ _).mpr ⟨hm,rfl⟩
    obtain ⟨hne,hall⟩ := (isName_iff a.name).mp hn
    rw [readAtom?, hb]
    simp only [takeWhile_name hall hr, List.isEmpty_iff, hne, ↓reduceIte]

theorem length_write_pos (a : Atom) : 0 < a.write.length := by
  rw [write_eq, List.length_append]
  exact Nat.add_pos_left (by decide) _

/-- Every code point of a proper atom's written form can stand in an atom. -/
theorem not_isBreak_of_mem_write {a : Atom} (ha : a.Proper) {c : CodePoint} (hc : c ∈ a.write) :
    isBreak c = false := by
  have hkeyword : (Text.ofString "Category").all (!isBreak ·) = true := by decide
  have hoperator (mark : Mark) : (operatorOf mark).all (!isBreak ·) = true := by
    cases mark <;> decide
  rw [write_eq, List.mem_append, List.mem_append] at hc
  rcases hc with hc | hc | hc
  · simpa using List.all_eq_true.mp hkeyword c hc
  · simpa using List.all_eq_true.mp (hoperator a.mark) c hc
  · simp only [isBreak, ((isName_iff a.name).mp ha.named).2 c hc, Bool.not_true, Bool.false_and]

/-- What stands behind a code point that can stand in no atom does not matter before it. An atom
that went on behind it would be written with the code point that cuts. -/
theorem readAtom?_append_break (s t : Text) {c : CodePoint} (hc : isBreak c = true) :
    readAtom? (s ++ c :: t) = readAtom? s := by
  apply Option.ext
  intro a
  rw [readAtom?_eq_some_iff, readAtom?_eq_some_iff, and_congr_right_iff]
  intro ha
  constructor
  · rintro ⟨rest,he,hr⟩
    rcases List.append_eq_append_iff.mp he with ⟨u,hw,hu⟩ | ⟨u,hs,hu⟩
    · cases u with
      | nil => exact ⟨[],by simpa using hw.symm,stopsName_nil⟩
      | cons d u =>
        obtain ⟨rfl,_⟩ := List.cons.inj hu
        have hmem : c ∈ a.write := by simp [hw]
        rw [not_isBreak_of_mem_write ha hmem] at hc
        cases hc
    · refine ⟨u,hs,?_⟩
      cases u with
      | nil => exact stopsName_nil
      | cons d u =>
        intro e hd
        exact hr e (by simpa [hu] using hd)
  · rintro ⟨rest,rfl,hr⟩
    refine ⟨rest ++ c :: t,List.append_assoc _ _ _,?_⟩
    cases rest with
    | nil => exact stopsName_cons hc t
    | cons d rest => exact hr

/-- Cutting after a part of a text is cutting what is behind it. -/
theorem piecesAfter_length_append (s t : Text) : piecesAfter s.length (s ++ t) = pieces t := by
  induction s with
  | nil => rfl
  | cons c s ih => exact ih

/-- The pieces of an atom with something behind it that does not go on with its name. -/
theorem pieces_atom_append {a : Atom} (ha : a.Proper) {t : Text} (ht : StopsName t) :
    pieces (a.write ++ t) = .atom a :: pieces t := by
  have hread : readAtom? (a.write ++ t) = some a := (readAtom?_eq_some_iff _ a).mpr ⟨ha,t,rfl,ht⟩
  obtain ⟨c,s,hw⟩ := List.exists_cons_of_length_pos (length_write_pos a)
  rw [hw, List.cons_append] at hread ⊢
  rw [pieces, piecesAfter, hread]
  change Piece.atom a :: piecesAfter (a.write.length-1) (s ++ t) = _
  rw [hw, List.length_cons, Nat.add_sub_cancel, piecesAfter_length_append]

theorem pieces_gap_cons {c : CodePoint} {t : Text} (h : readAtom? (c :: t) = none) :
    pieces (c :: t) = .gap c :: pieces t := by
  rw [pieces, piecesAfter, h]
  rfl

/-- A code point that can stand in no atom is a piece of a gap. -/
theorem pieces_break_cons {c : CodePoint} (hc : isBreak c = true) (t : Text) :
    pieces (c :: t) = .gap c :: pieces t :=
  pieces_gap_cons (readAtom?_append_break [] t hc)

/-- The induction of the cut runs over the text before it, with what an atom there still covers. -/
theorem piecesAfter_append_break (s t : Text) {c : CodePoint} (hc : isBreak c = true) (skip : ℕ)
    (hs : skip ≤ s.length) :
    piecesAfter skip (s ++ c :: t) = piecesAfter skip s ++ .gap c :: pieces t := by
  induction s generalizing skip with
  | nil =>
    obtain rfl : skip = 0 := Nat.le_zero.mp hs
    exact pieces_break_cons hc t
  | cons d s ih =>
    cases skip with
    | succ skip => exact ih skip (Nat.le_of_succ_le_succ hs)
    | zero =>
      rw [List.cons_append, piecesAfter, piecesAfter, ← List.cons_append,
        readAtom?_append_break (d :: s) t hc]
      cases hread : readAtom? (d :: s) with
      | none => exact congrArg (Piece.gap d :: ·) (ih 0 (Nat.zero_le _))
      | some a =>
        obtain ⟨_,rest,hw,_⟩ := (readAtom?_eq_some_iff _ a).mp hread
        have hlen := congrArg List.length hw
        rw [List.length_cons, List.length_append] at hlen
        exact congrArg (Piece.atom a :: ·) (ih (a.write.length-1) (by omega))

/-- A code point that can stand in no atom cuts the reading of a text in two. -/
theorem pieces_append_break (s t : Text) {c : CodePoint} (hc : isBreak c = true) :
    pieces (s ++ c :: t) = pieces s ++ .gap c :: pieces t :=
  piecesAfter_append_break s t hc 0 (Nat.zero_le _)

/-- A code point that can stand in no atom cuts a text in two, each with its own atoms. -/
theorem atoms_append_break (s t : Text) {c : CodePoint} (hc : isBreak c = true) :
    atoms (s ++ c :: t) = atoms s ++ atoms t := by
  simp only [atoms, pieces_append_break s t hc, List.filterMap_append, List.filterMap_cons]

theorem atoms_break_cons {c : CodePoint} (hc : isBreak c = true) (t : Text) :
    atoms (c :: t) = atoms t :=
  atoms_append_break [] t hc

theorem isBreak_of_isBlank {c : CodePoint} (hc : c.isBlank = true) : isBreak c = true := by
  simp only [CodePoint.isBlank, CodePoint.isBetween, Bool.or_eq_true, Bool.and_eq_true,
    decide_eq_true_eq, beq_iff_eq, Fin.ext_iff] at hc
  simp only [isBreak, Category.isNameChar, CodePoint.isAsciiLetter, CodePoint.isAsciiDigit,
    CodePoint.isBetween, CodePoint.ofChar, Bool.and_eq_true, Bool.not_eq_true',
    Bool.or_eq_false_iff, Bool.and_eq_false_iff, decide_eq_false_iff_not, decide_eq_true_eq,
    ne_eq, Fin.ext_iff]
  simp at hc ⊢
  omega

theorem atoms_blank_append (blanks t : Text) (h : ∀ c ∈ blanks, c.isBlank = true) :
    atoms (blanks ++ t) = atoms t := by
  induction blanks with
  | nil => rfl
  | cons c rest ih =>
    obtain ⟨hc,hrest⟩ := List.forall_mem_cons.mp h
    rw [List.cons_append, atoms_break_cons (isBreak_of_isBlank hc), ih hrest]

theorem atoms_append_blank (t blanks : Text) (h : ∀ c ∈ blanks, c.isBlank = true) :
    atoms (t ++ blanks) = atoms t := by
  cases blanks with
  | nil => rw [List.append_nil]
  | cons c rest =>
    obtain ⟨hc,hrest⟩ := List.forall_mem_cons.mp h
    have hnone : atoms rest = atoms [] := by
      simpa only [List.append_nil] using atoms_blank_append rest [] hrest
    rw [atoms_append_break t rest (isBreak_of_isBlank hc), hnone]
    exact List.append_nil (atoms t)

/-- The blanks at the ends of an expression do not count. -/
theorem atoms_trim (t : Text) : atoms t.trim = atoms t := by
  obtain ⟨before,behind,ht,hbefore,hbehind⟩ := Text.isPadded_trim t
  calc
    atoms t.trim = atoms (t.trim ++ behind) :=
    (atoms_append_blank _ _ (List.all_eq_true.mp hbehind)).symm
    _ = atoms (before ++ (t.trim ++ behind)) :=
    (atoms_blank_append _ _ (List.all_eq_true.mp hbefore)).symm
    _ = atoms t := by rw [← ht]

/-- Blanks at the ends of an expression change nothing of its marks. -/
theorem parse_trim (t : Text) : parse t.trim = parse t := by
  rw [parse, parse, atoms_trim]

/-- An atom is the first of the atoms where nothing that goes on with its name follows. -/
theorem atoms_atom_append {a : Atom} (ha : a.Proper) {t : Text} (ht : StopsName t) :
    atoms (a.write ++ t) = a :: atoms t := by
  simp only [atoms, pieces_atom_append ha ht, List.filterMap_cons]

theorem unrecognized_atom_append {a : Atom} (ha : a.Proper) {t : Text} (ht : StopsName t) :
    unrecognized (a.write ++ t) = unrecognized t := by
  simp only [unrecognized, pieces_atom_append ha ht, List.filterMap_cons]

theorem unrecognized_separator_cons {c : CodePoint} (hc : isBreak c = true)
    (hs : isSeparator c = true) (t : Text) : unrecognized (c :: t) = unrecognized t := by
  simp only [unrecognized, pieces_break_cons hc, List.filterMap_cons, hs, ↓reduceIte]

end Expression

end CategorySelection
