import CategorySelection.Proofs.Action
import CategorySelection.Proofs.Expression.Parsed
/-!
Where an expression is cut. There is one way only to cut a text into atoms and gaps such that every
name is as long as it can be and no atom starts in a gap, and looking for the atoms of an expression
finds the atoms of that cut and reports what stands in its gaps.
-/

namespace CategorySelection

theorem Atom.ofLabel_of_proper {a : Atom} (h : a.Proper) :
    Atom.ofLabel a.name a.mark.label = .ok a := by
  have hname : Category.checkName a.name = .ok () := by rw [Category.checkName, if_pos h.named]
  rw [ofLabel, hname]
  obtain ⟨name,mark⟩ := a
  cases mark with
  | neutral => exact absurd rfl h.marked
  | included => rfl
  | excluded => rfl

namespace Expression

def StartsAtom (t : Text) : Prop := ∃ a : Atom, a.Proper ∧ a.write <+: t

/-- No atom starts in a gap, whether it ends there or goes on into what stands behind the gap. -/
def IsGap (gap behind : Text) : Prop := ∀ u, u ≠ [] → u <:+ gap → ¬StartsAtom (u ++ behind)

/-- The ways to cut a text: into some atoms, each with the gap before it, and a last gap. The name
of an atom does not go on behind it, and no atom starts in a gap. -/
inductive Cuts : Text → List (Text × Atom) → Text → Prop
  | last {gap : Text} : IsGap gap [] → Cuts gap [] gap
  | atom {gap t last : Text} {a : Atom} {parts : List (Text × Atom)} :
    IsGap gap (a.write ++ t) → a.Proper →
    StopsName t → Cuts t parts last → Cuts (gap ++ (a.write ++ t)) ((gap,a) :: parts) last

def gapsOf (parts : List (Text × Atom)) (last : Text) : List Text := parts.map Prod.fst ++ [last]

def leftOver (parts : List (Text × Atom)) (last : Text) : Text :=
  (gapsOf parts last).flatten.filter (!isSeparator ·)

section Gaps

/-- A name that goes on can be read to its end. -/
theorem readAtom?_eq_none_iff (t : Text) : readAtom? t = none ↔ ¬StartsAtom t := by
  rw [← not_iff_not, not_not, ← ne_eq, Option.ne_none_iff_exists']
  constructor
  · rintro ⟨a,hread⟩
    obtain ⟨ha,rest,rfl,_⟩ := (readAtom?_eq_some_iff t a).mp hread
    exact ⟨a,ha,List.prefix_append _ _⟩
  · rintro ⟨a,ha,rest,rfl⟩
    obtain ⟨hne,hall⟩ := (isName_iff a.name).mp ha.named
    let whole : Atom := ⟨a.name ++ rest.takeWhile Category.isNameChar,a.mark⟩
    have hwhole : whole.Proper := by
      refine ⟨(isName_iff _).mpr ⟨List.append_ne_nil_of_left_ne_nil hne _,?_⟩,ha.marked⟩
      intro c hc
      rcases List.mem_append.mp hc with hc | hc
      · exact hall c hc
      · exact List.all_eq_true.mp List.all_takeWhile c hc
    refine ⟨whole,(readAtom?_eq_some_iff _ _).mpr ⟨hwhole,rest.dropWhile Category.isNameChar,?_,?_⟩⟩
    · rw [write_eq a, write_eq whole]
      simp only [whole, List.append_assoc, List.takeWhile_append_dropWhile]
    · intro c hc
      have := List.head?_dropWhile_not Category.isNameChar rest
      simpa [Option.mem_def.mp hc] using this

theorem isGap_nil (behind : Text) : IsGap [] behind :=
  fun _ hne hu => absurd (List.suffix_nil.mp hu) hne

/-- A gap is one if no atom starts at its front and the rest of it is one. -/
theorem isGap_cons_iff (c : CodePoint) (gap behind : Text) :
    IsGap (c :: gap) behind ↔ ¬StartsAtom (c :: (gap ++ behind)) ∧ IsGap gap behind := by
  constructor
  · intro h
    exact ⟨h (c :: gap) (List.cons_ne_nil c gap) (List.suffix_refl _),
      fun u hne hu => h u hne (hu.trans (List.suffix_cons c gap))⟩
  · rintro ⟨hhead,hrest⟩ u hne hu
    rcases List.suffix_cons_iff.mp hu with rfl | hu
    · exact hhead
    · exact hrest u hne hu

/-- A gap stays a gap piece by piece. -/
theorem pieces_gap_append {gap behind : Text} (h : IsGap gap behind) :
    pieces (gap ++ behind) = gap.map .gap ++ pieces behind := by
  induction gap with
  | nil => rfl
  | cons c gap ih =>
    obtain ⟨hhead,hrest⟩ := (isGap_cons_iff c gap behind).mp h
    rw [List.cons_append, pieces_gap_cons ((readAtom?_eq_none_iff _).mpr hhead), ih hrest,
      List.map_cons, List.cons_append]

/-- A gap has no atoms, and does not change those behind it. -/
theorem atoms_gap_append {gap behind : Text} (h : IsGap gap behind) :
    atoms (gap ++ behind) = atoms behind := by
  rw [atoms, pieces_gap_append h, List.filterMap_append]
  refine congrArg (· ++ atoms behind) (List.filterMap_eq_nil_iff.mpr ?_)
  intro piece hpiece
  obtain ⟨c,_,rfl⟩ := List.mem_map.mp hpiece
  rfl

theorem unrecognized_gap_append {gap behind : Text} (h : IsGap gap behind) :
    unrecognized (gap ++ behind) = gap.filter (!isSeparator ·) ++ unrecognized behind := by
  rw [unrecognized, pieces_gap_append h, List.filterMap_append, List.filterMap_map]
  congr 1
  induction gap with
  | nil => rfl
  | cons c gap ih =>
    rw [List.filterMap_cons, ih ((isGap_cons_iff c gap behind).mp h).2]
    cases hc : isSeparator c <;> simp [hc]

end Gaps

section Cuts

variable {t last last' : Text} {parts parts' : List (Text × Atom)}

def piecesOf : List (Text × Atom) → Text → List Piece
  | [], last => last.map .gap
  | (gap,a) :: parts, last => gap.map .gap ++ .atom a :: piecesOf parts last

/-- A text is read as any of its cuts. -/
theorem Cuts.pieces_eq (h : Cuts t parts last) : pieces t = piecesOf parts last := by
  induction h with
  | @last gap hgap =>
    have hpieces := pieces_gap_append hgap
    rw [List.append_nil] at hpieces
    rw [hpieces, piecesOf]
    exact List.append_nil _
  | atom hgap ha hstop _ ih =>
    rw [pieces_gap_append hgap, pieces_atom_append ha hstop, ih, piecesOf]

/-- A code point at which no atom starts goes into the first gap. -/
theorem Cuts.cons (h : Cuts t parts last) {c : CodePoint} (hc : ¬StartsAtom (c :: t)) :
    ∃ parts' last', Cuts (c :: t) parts' last' := by
  cases h with
  | last hgap =>
    refine ⟨[],c :: t,.last ((isGap_cons_iff c t []).mpr ⟨?_,hgap⟩)⟩
    rwa [List.append_nil]
  | @atom gap _ _ a parts hgap ha hstop hrest =>
    exact ⟨(c :: gap,a) :: parts,last,.atom ((isGap_cons_iff c gap _).mpr ⟨hc,hgap⟩) ha hstop hrest⟩

def intoFirstGap (c : CodePoint) : List (Text × Atom) × Text → List (Text × Atom) × Text
  | ([], last) => ([], c :: last)
  | ((gap, a) :: parts, last) => ((c :: gap, a) :: parts, last)

def cutOf : List Piece → List (Text × Atom) × Text
  | [] => ([], [])
  | .atom a :: rest => (([], a) :: (cutOf rest).1, (cutOf rest).2)
  | .gap c :: rest => intoFirstGap c (cutOf rest)

theorem cutOf_piecesOf (parts : List (Text × Atom)) (last : Text) :
    cutOf (piecesOf parts last) = (parts,last) := by
  induction parts with
  | nil =>
    induction last with
    | nil => rfl
    | cons c rest ih =>
      rw [piecesOf] at ih ⊢
      rw [List.map_cons, cutOf, ih, intoFirstGap]
  | cons part parts ih =>
    obtain ⟨gap,a⟩ := part
    rw [piecesOf]
    induction gap with
    | nil => rw [List.map_nil, List.nil_append, cutOf, ih]
    | cons c gap ihgap => rw [List.map_cons, List.cons_append, cutOf, ihgap, intoFirstGap]

/-- There is one way only to cut a text. -/
theorem Cuts.unique (h : Cuts t parts last) (h' : Cuts t parts' last') :
    parts' = parts ∧ last' = last := by
  have hsame : cutOf (piecesOf parts' last') = cutOf (piecesOf parts last) := by
    rw [← h.pieces_eq, ← h'.pieces_eq]
  rw [cutOf_piecesOf, cutOf_piecesOf] at hsame
  exact Prod.mk.inj hsame

theorem Cuts.atoms_eq (h : Cuts t parts last) : atoms t = parts.map Prod.snd := by
  induction h with
  | @last gap hgap =>
    have hatoms := atoms_gap_append hgap
    rw [List.append_nil] at hatoms
    exact hatoms
  | atom hgap ha hstop _ ih =>
    rw [atoms_gap_append hgap, atoms_atom_append ha hstop, ih, List.map_cons]

/-- What is left of a text are the gaps of its cut without separators. -/
theorem Cuts.unrecognized_eq (h : Cuts t parts last) : unrecognized t = leftOver parts last := by
  induction h with
  | @last gap hgap =>
    have hleft := unrecognized_gap_append hgap
    rw [List.append_nil] at hleft
    rw [hleft, leftOver, gapsOf, List.map_nil, List.nil_append, List.flatten_singleton]
    exact List.append_nil _
  | atom hgap ha hstop _ ih =>
    rw [unrecognized_gap_append hgap, unrecognized_atom_append ha hstop, ih, leftOver, leftOver,
      gapsOf, gapsOf, List.map_cons, List.cons_append, List.flatten_cons, List.filter_append]

end Cuts

section Scan

variable {σ : Type}

/-- Atoms that were read are made anew from their names and the words for their marks. -/
theorem mapM_ofLabel {as : List Atom} (h : ∀ a ∈ as, a.Proper) :
    as.mapM (fun a => Atom.ofLabel a.name a.mark.label) = .ok as := by
  induction as with
  | nil => rfl
  | cons a rest ih =>
    obtain ⟨ha,hrest⟩ := List.forall_mem_cons.mp h
    rw [List.mapM_cons, Atom.ofLabel_of_proper ha, ih hrest]
    rfl

/-- A blank text is a single gap. -/
theorem cuts_of_isBlank {t : Text} (h : t.isBlank = true) : Cuts t [] t := by
  refine .last ?_
  induction t with
  | nil => exact isGap_nil []
  | cons c rest ih =>
    rw [Text.isBlank, List.all_cons, Bool.and_eq_true] at h
    refine (isGap_cons_iff c rest []).mpr ⟨?_,ih h.2⟩
    exact (readAtom?_eq_none_iff _).mp (readAtom?_append_break [] _ (isBreak_of_isBlank h.1))

theorem findings_of_isBlank {t : Text} (h : t.isBlank = true) :
    atoms t = [] ∧ atomRecords t = [] := by
  have hleft : leftOver [] t = [] := by
    rw [leftOver, gapsOf, List.map_nil, List.nil_append, List.flatten_singleton,
      List.filter_eq_nil_iff]
    intro c hc
    simp only [isSeparator, List.all_eq_true.mp h c hc, Bool.or_true, Bool.not_true,
      Bool.false_eq_true, not_false_eq_true]
  have hcuts := cuts_of_isBlank h
  rw [atomRecords, hcuts.atoms_eq, hcuts.unrecognized_eq, hleft]
  exact ⟨rfl,rfl⟩

/-- Taking the atoms out passes over the same atoms as reading them. -/
theorem filter_withoutAtoms (t : Text) :
    (withoutAtoms t).filter (!isSeparator ·) = unrecognized t := by
  rw [unrecognized, pieces, withoutAtoms]
  generalize 0 = skip
  induction t generalizing skip with
  | nil => cases skip <;> rfl
  | cons c rest ih =>
    cases skip with
    | succ skip => exact ih skip
    | zero =>
      rw [withoutAtomsAfter, piecesAfter]
      cases readAtom? (c :: rest) with
      | some a => exact ih _
      | none =>
        dsimp only
        rw [List.filter_cons, List.filterMap_cons, ih 0]
        cases hc : isSeparator c <;> simp [hc]

/-- Making the atoms anew never fails, what is left is what reading leaves, and in a blank text
there is nothing to be found or noted. -/
theorem scan_some (t : Text) : (scan (some t) : Action σ (List Atom)) = findAtoms t := by
  funext s
  have hfind : findAtoms t s = ⟨.ok (atoms t),s,atomRecords t ++ []⟩ := rfl
  rw [hfind, scan]
  split_ifs with hblank
  · obtain ⟨hatoms,hrecords⟩ := findings_of_isBlank hblank
    rw [hatoms, hrecords, Action.pure_apply, List.append_nil]
  · rw [filter_withoutAtoms]
    simp only [Action.bind_apply, Action.ofExcept_apply, mapM_ofLabel fun a => proper_of_mem_atoms,
      Action.write_apply, Action.pure_apply, List.nil_append]
    rfl

/-- A scan gives the atoms of a text, and notes them and what is left. -/
theorem scan_some_apply (t : Text) (s : σ) : scan (some t) s = ⟨.ok (atoms t),s,atomRecords t⟩ := by
  have hfind : findAtoms t s = ⟨.ok (atoms t),s,atomRecords t ++ []⟩ := rfl
  rw [scan_some, hfind, List.append_nil]

end Scan

end Expression

end CategorySelection
