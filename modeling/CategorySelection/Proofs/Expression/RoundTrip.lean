import CategorySelection.Proofs.Checklist.Rows
import CategorySelection.Proofs.Expression.Canonical
/-!
Reading undoes writing. The canonical expression of distinct names reads as the marks that it was
written from, without the neutral ones, and so two checklists have one draft exactly when they
select the same.
-/

namespace CategorySelection.Expression

/-- Whatever is written is found again, and nothing else is there. -/
theorem finds_write (marks : Assoc Mark)
    (hn : ∀ name ∈ marks.names, Category.isName name = true) :
    Finds (write marks) ((namesMarked .included marks).map (⟨·, .included⟩) ++
      (namesMarked .excluded marks).map (⟨·, .excluded⟩)) [] := by
  have hnames (mark : Mark) : ∀ name ∈ namesMarked mark marks, Category.isName name = true :=
    fun name h => hn name ((namesMarked_sublist mark marks).subset h)
  have hor : isBreak '|' = true ∧ isSeparator '|' = true := by decide
  have hand : isBreak '&' = true ∧ isSeparator '&' = true := by decide
  have hincluded (grouped : Bool) {t : Text} (ht : StopsName t) :
      Finds (writeClause .included "|" grouped (namesMarked .included marks) ++ t)
        ((namesMarked .included marks).map (⟨·, .included⟩)) t :=
    Finds.clause hor.1 hor.2 .included (by decide) grouped _ (hnames .included) ht
  have hexcluded (grouped : Bool) {t : Text} (ht : StopsName t) :
      Finds (writeClause .excluded "&" grouped (namesMarked .excluded marks) ++ t)
        ((namesMarked .excluded marks).map (⟨·, .excluded⟩)) t :=
    Finds.clause hand.1 hand.2 .excluded (by decide) grouped _ (hnames .excluded) ht
  by_cases he : namesMarked .excluded marks = []
  · rw [write_of_excluded_nil marks he, he]
    simpa only [List.map_nil, List.append_nil] using hincluded false stopsName_nil
  by_cases hi : namesMarked .included marks = []
  · rw [write_of_included_nil marks hi, hi]
    simpa only [List.map_nil, List.nil_append, List.append_nil] using hexcluded false stopsName_nil
  rw [write_of_both marks hi he]
  apply (hincluded true (stopsName_cons hand.1 _)).trans
  have hrest := hexcluded true stopsName_nil
  rw [List.append_nil] at hrest
  exact (Finds.separator hand.1 hand.2 _).trans hrest

theorem merge_of_fresh (marks : Assoc Mark) (a : Atom) (h : a.name ∉ marks.names) :
    merge marks a = marks ++ [(a.name, a.mark)] := by
  rw [merge, (Assoc.get?_eq_none_iff a.name marks).mpr h]
  exact Assoc.put_of_fresh a.name a.mark marks h

theorem contradicts_of_fresh (marks : Assoc Mark) (a : Atom) (h : a.name ∉ marks.names) :
    contradicts marks a = false := by
  rw [contradicts, (Assoc.get?_eq_none_iff a.name marks).mpr h]

/-- Atoms of distinct names become entries in their order, and none contradicts one before it. -/
theorem mergeAll_of_nodup (marks : Assoc Mark) (as : List Atom)
    (h : (marks.names ++ as.map (·.name)).Nodup) :
    mergeAll marks as = marks ++ as.map (fun a => (a.name, a.mark)) ∧
      contradictions marks as = [] := by
  induction as generalizing marks with
  | nil => exact ⟨(List.append_nil marks).symm,rfl⟩
  | cons a rest ih =>
    have hfresh : a.name ∉ marks.names := by
      intro hm
      exact (List.nodup_append.mp h).2.2 a.name hm a.name List.mem_cons_self rfl
    have hnext : (Assoc.names (marks ++ [(a.name, a.mark)]) ++ rest.map (·.name)).Nodup := by
      simpa [Assoc.names] using h
    obtain ⟨hmerge,hnone⟩ := ih _ hnext
    constructor
    · change mergeAll (merge marks a) rest = _
      rw [merge_of_fresh marks a hfresh, hmerge, List.append_assoc]
      rfl
    · rw [contradictions, contradicts_of_fresh marks a hfresh, merge_of_fresh marks a hfresh]
      exact hnone

theorem nodup_namesMarked_append (marks : Assoc Mark) (h : marks.names.Nodup) :
    (namesMarked .included marks ++ namesMarked .excluded marks).Nodup := by
  refine List.nodup_append.mpr ⟨h.sublist (namesMarked_sublist .included marks),
    h.sublist (namesMarked_sublist .excluded marks),?_⟩
  rintro name hi other he rfl
  rw [mem_namesMarked, ← Assoc.get?_eq_some_iff h] at hi he
  rw [hi] at he
  cases he

/-- The marks read from a canonical expression: the included names, and then the excluded ones. -/
theorem parse_write (marks : Assoc Mark) (h : marks.names.Nodup)
    (hn : ∀ name ∈ marks.names, Category.isName name = true) :
    parse (write marks) = (namesMarked .included marks).map (·, .included) ++
        (namesMarked .excluded marks).map (·, .excluded) ∧
      parseRecords (write marks) = [] := by
  have hfinds := finds_write marks hn
  have hnodup : (Assoc.names ([] : Assoc Mark) ++
      ((namesMarked .included marks).map (Atom.mk · .included) ++
        (namesMarked .excluded marks).map (Atom.mk · .excluded)).map (·.name)).Nodup := by
    simpa [Function.comp_def] using nodup_namesMarked_append marks h
  obtain ⟨hmerge,hnone⟩ := mergeAll_of_nodup [] _ hnodup
  have hatoms := hfinds.atoms_eq
  rw [show atoms [] = [] from rfl, List.append_nil] at hatoms
  constructor
  · rw [parse, hatoms, hmerge]
    simp only [List.nil_append, List.map_append, List.map_map, Function.comp_def]
  · rw [parseRecords, atomRecords, hfinds.unrecognized_eq, hatoms, hnone]
    rfl

/-- Reading the canonical expression of some marks gives back the marks that are not neutral. -/
theorem get?_parse_write (marks : Assoc Mark) (h : marks.names.Nodup)
    (hn : ∀ name ∈ marks.names, Category.isName name = true) (name : Text) :
    Assoc.get? name (parse (write marks)) = (marks.get? name).filter (· ≠ .neutral) := by
  have hnames : (Assoc.names (parse (write marks))).Nodup := by
    rw [(parse_write marks h hn).1]
    simpa [Assoc.names, Function.comp_def] using nodup_namesMarked_append marks h
  apply Option.ext
  intro mark
  rw [Assoc.get?_eq_some_iff hnames, (parse_write marks h hn).1, Option.filter_eq_some_iff,
    Assoc.get?_eq_some_iff h]
  cases mark <;> simp [mem_namesMarked]

end CategorySelection.Expression

namespace CategorySelection.Checklist

/-- The draft of a checklist shows what is selected and nothing else. -/
theorem expression_eq_iff {c d : Checklist} (hc : c.Sound) (hd : d.Sound) :
    c.expression = d.expression ↔ ∀ name, c.selected.get? name = d.selected.get? name := by
  constructor
  · intro h name
    have hread {e : Checklist} (he : e.Sound) :
        e.selected.get? name = Assoc.get? name (Expression.parse e.expression) := by
      rw [get?_selected name he]
      exact (Expression.get?_parse_write e.rows he.ordered.nodup he.named name).symm
    rw [hread hc, hread hd, h]
  · intro h
    have hselected : c.selected = d.selected :=
      Assoc.eq_of_get?_eq (names_selected_sortedLT hc) (names_selected_sortedLT hd) h
    rw [expression, expression, ← Expression.write_filter c.rows, ← Expression.write_filter d.rows]
    exact congrArg Expression.write hselected

end CategorySelection.Checklist

namespace CategorySelection.Expression

/-- Reading undoes writing: of distinct names, the canonical expression reads as the included names
and then the excluded ones, each in their order, and nothing is noted about it. So two checklists
have the same draft exactly when they select the same. -/
theorem read_undoes_write :
    (∀ {σ : Type} (s : σ) (marks : Assoc Mark), marks.names.Nodup →
      (∀ name ∈ marks.names, Category.isName name = true) →
      findAtoms (write marks) s = ⟨.ok ((namesMarked .included marks).map (⟨·, .included⟩) ++
        (namesMarked .excluded marks).map (⟨·, .excluded⟩)), s, []⟩ ∧
      read (write marks) s = ⟨.ok ((namesMarked .included marks).map (·, .included) ++
        (namesMarked .excluded marks).map (·, .excluded)), s, []⟩ ∧
      ∀ name, Assoc.get? name (parse (write marks)) = (marks.get? name).filter (· ≠ .neutral)) ∧
    ∀ c d : Checklist, c.Built → d.Built →
      (c.expression = d.expression ↔ ∀ name, c.selected.get? name = d.selected.get? name) := by
  constructor
  · intro σ s marks h hn
    obtain ⟨hparse,hrecords⟩ := parse_write marks h hn
    have hfinds := finds_write marks hn
    have hatoms := hfinds.atoms_eq
    rw [show atoms [] = [] from rfl, List.append_nil] at hatoms
    have hnone : atomRecords (write marks) = [] := (List.append_eq_nil_iff.mp hrecords).1
    refine ⟨?_,?_,get?_parse_write marks h hn⟩
    · change (⟨.ok (atoms (write marks)), s, atomRecords (write marks) ++ []⟩ :
        Outcome σ (List Atom)) = _
      rw [hatoms, hnone]
      rfl
    · change (⟨.ok (parse (write marks)), s, parseRecords (write marks) ++ []⟩ :
        Outcome σ (Assoc Mark)) = _
      rw [hparse, hrecords]
      rfl
  · intro c d hc hd
    exact Checklist.expression_eq_iff hc.sound hd.sound

/-- Names that hold the keyword are read as they were written, whatever else a checklist shows. -/
theorem read_undoes_write_keyword_names :
    findAtoms "(Category=Category|Category=aCategoryb)&Category!=Category9" () =
      ⟨.ok [⟨"Category", .included⟩, ⟨"aCategoryb", .included⟩, ⟨"Category9", .excluded⟩], (), []⟩ ∧
    (⟨[("Category", .included), ("x", .neutral)]⟩ : Checklist).expression =
      (⟨[("Category", .included)]⟩ : Checklist).expression := by
  constructor
  · have h := (read_undoes_write.1 () [("Category9", .excluded), ("Category", .included),
      ("x", .neutral), ("aCategoryb", .included)] (by decide) (by decide)).1
    have hw : write [("Category9", .excluded), ("Category", .included), ("x", .neutral),
        ("aCategoryb", .included)] =
        "(Category=Category|Category=aCategoryb)&Category!=Category9" := by
      decide
    rwa [hw] at h
  · have hc : Checklist.ofMarks ["x"] [("Category", .included)] =
        .ok ⟨[("Category", .included), ("x", .neutral)]⟩ := by rfl
    have hd : Checklist.ofMarks [] [("Category", .included)] = .ok ⟨[("Category", .included)]⟩ := by
      rfl
    apply (read_undoes_write.2 _ _ (.ofMarks hc) (.ofMarks hd)).mpr
    intro name
    rfl

end CategorySelection.Expression
