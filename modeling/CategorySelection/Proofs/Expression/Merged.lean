import CategorySelection.Proofs.Expression.Cut
import Mathlib.Data.List.Induction
/-!
What the marks of an expression say. Each atom is taken into the marks found so far, and yet what
comes out does not depend on the order of the atoms: the names are those of the atoms, in the order
in which they first come, and a name is included as soon as one of its atoms includes it.
-/

namespace CategorySelection.Expression

/-- The mark that atoms give to a name. Including goes before excluding. -/
def markGiven (as : List Atom) (name : Text) : Option Mark :=
  if ⟨name, .included⟩ ∈ as then some .included
  else if ⟨name, .excluded⟩ ∈ as then some .excluded
  else none

structure Tells (as : List Atom) (marks : Assoc Mark) : Prop where
  selection : Selection marks
  names : marks.names = (as.map Atom.name).eraseDups
  mark : ∀ name, marks.get? name = markGiven as name

section Merge

variable {as bs : List Atom} {marks : Assoc Mark} {a : Atom}

/-- An atom that is merged comes behind the others if its name is new, and else the names stay. -/
theorem names_merge (marks : Assoc Mark) (a : Atom) :
    (merge marks a).names = if a.name ∈ marks.names then marks.names else marks.names ++
    [a.name] := by
  rw [merge]
  cases hget : marks.get? a.name with
  | none => exact Assoc.names_put a.name a.mark marks
  | some mark =>
    have hmem : a.name ∈ marks.names := Assoc.mem_names_of_mem (Assoc.mem_of_get?_eq_some hget)
    rw [if_pos hmem]
    dsimp only
    split_ifs
    · rfl
    · rw [Assoc.names_put, if_pos hmem]

/-- Merging an atom gives its name the mark of the atom, or includes it if the two marks differ. -/
theorem get?_merge (marks : Assoc Mark) (a : Atom) (name : Text) :
    (merge marks a).get? name =
      if a.name = name then
        match marks.get? name with
        | none => some a.mark
        | some mark => some (if mark = a.mark then mark else .included)
      else marks.get? name := by
  rw [merge]
  cases hget : marks.get? a.name with
  | none =>
    dsimp only
    rw [Assoc.get?_put]
    split_ifs with hname
    · rw [← hname, hget]
    · rfl
  | some mark =>
    dsimp only
    split_ifs with hmark hname hname
    · rw [← hname, hget]
      simp [hmark]
    · rfl
    · rw [Assoc.get?_put, if_pos hname, ← hname, hget]
      simp [hmark]
    · rw [Assoc.get?_put, if_neg hname]

/-- A name at the end of a list is left out if it stands before. -/
theorem eraseDups_concat (names : List Text) (name : Text) :
    (names ++ [name]).eraseDups = if name ∈ names then names.eraseDups else names.eraseDups ++
    [name] := by
  rw [List.eraseDups_append, List.removeAll]
  by_cases h : name ∈ names
  · simp [h]
  · simp [h, List.eraseDups_cons]

/-- One more atom is an include atom of its name, or an exclude atom of it. -/
theorem markGiven_concat (as : List Atom) (ha : a.Proper) (name : Text) :
    markGiven (as ++ [a]) name =
      if a.name = name then
        match markGiven as name with
        | none => some a.mark
        | some mark => some (if mark = a.mark then mark else .included)
      else markGiven as name := by
  obtain ⟨own,mark⟩ := a
  simp only [markGiven, List.mem_append, List.mem_singleton, Atom.mk.injEq]
  by_cases hname : own = name
  · subst hname
    cases mark with
    | neutral => exact absurd rfl ha.marked
    | included =>
      by_cases hincluded : ⟨own, .included⟩ ∈ as <;> by_cases hexcluded : ⟨own, .excluded⟩ ∈ as <;>
        simp [hincluded, hexcluded]
    | excluded =>
      by_cases hincluded : ⟨own, .included⟩ ∈ as <;> by_cases hexcluded : ⟨own, .excluded⟩ ∈ as <;>
        simp [hincluded, hexcluded]
  · simp [hname, Ne.symm hname]

/-- One step: taking an atom into the marks keeps what they say. -/
theorem Tells.merge (h : Tells as marks) (ha : a.Proper) : Tells (as ++ [a]) (merge marks a) where
  selection := selection_merge h.selection ha
  names := by
    rw [names_merge, h.names, List.map_append, List.map_singleton, eraseDups_concat]
    simp only [List.mem_eraseDups]
  mark name := by rw [get?_merge, h.mark, markGiven_concat as ha]

/-- By induction on the atoms: a whole run of them keeps what the marks say. -/
theorem Tells.mergeAll (h : Tells as marks) (hb : ∀ b ∈ bs, b.Proper) :
    Tells (as ++ bs) (mergeAll marks bs) := by
  induction bs generalizing as marks with
  | nil =>
    rw [List.append_nil]
    exact h
  | cons b rest ih =>
    obtain ⟨hhead,hrest⟩ := List.forall_mem_cons.mp hb
    have htold := ih (h.merge hhead) hrest
    rw [List.append_assoc, List.singleton_append] at htold
    exact htold

theorem tells_parse (t : Text) : Tells (atoms t) (parse t) := by
  have hnone : Tells [] [] := ⟨.nil,rfl,fun _ => rfl⟩
  exact hnone.mergeAll fun a => proper_of_mem_atoms

/-- A category is included just if some atom includes it. -/
theorem markGiven_eq_included_iff (as : List Atom) (name : Text) :
    markGiven as name = some .included ↔ ⟨name, .included⟩ ∈ as := by
  rw [markGiven]
  split_ifs with hincluded hexcluded <;> simp [hincluded]

/-- The table includes a category just if some atom includes it. -/
theorem Tells.included_iff (h : Tells as marks) (name : Text) :
    marks.get? name = some .included ↔ ⟨name, .included⟩ ∈ as := by
  rw [h.mark, markGiven_eq_included_iff]

/-- The table excludes a category that it has just if no atom includes it. -/
theorem Tells.excluded_iff (h : Tells as marks) {name : Text} (hname : name ∈ marks.names) :
    marks.get? name = some .excluded ↔ ⟨name, .included⟩ ∉ as := by
  have hfound : markGiven as name ≠ none := by
    rw [← h.mark, ne_eq, Assoc.get?_eq_none_iff, not_not]
    exact hname
  rw [h.mark]
  rw [markGiven] at hfound ⊢
  split_ifs at hfound ⊢ with hincluded hexcluded
  · simp [hincluded]
  · simp [hincluded]
  · exact absurd rfl hfound

/-- The names of atoms that are taken in later come behind those that are there. -/
theorem names_mergeAll (marks : Assoc Mark) (as : List Atom) :
    (mergeAll marks as).names = marks.names ++ (mergeAll [] as).names.filter (· ∉ marks.names) := by
  induction as using List.reverseRecOn with
  | nil => exact (List.append_nil _).symm
  | append_singleton as a ih =>
    have hlast (marks : Assoc Mark) : mergeAll marks (as ++ [a]) = merge (mergeAll marks as) a :=
      List.foldl_concat merge marks a as
    rw [hlast, hlast, names_merge, names_merge, ih]
    by_cases hthere : a.name ∈ marks.names
    · by_cases hcame : a.name ∈ (mergeAll [] as).names
      · simp [hthere, hcame]
      · simp [hthere, hcame]
    · by_cases hcame : a.name ∈ (mergeAll [] as).names
      · simp [hthere, hcame]
      · simp [hthere, hcame]

end Merge

section Results

variable {σ : Type}

theorem collect_some (t : Text) : (collect (some t) : Action σ (Assoc Mark)) = read t := by
  funext s
  have hread : read t s = ⟨.ok (parse t),s,parseRecords t ++ []⟩ := rfl
  rw [collect, Action.bind_of_ok (scan_some_apply t s), hread, parseRecords, List.append_assoc]
  rfl

theorem result_scan (t : Text) (s : σ) :
    (scan (some t) s).result = .ok (atoms t) := by rw [scan_some_apply]

theorem result_collect (t : Text) (s : σ) : (collect (some t) s).result = .ok (parse t) := by
  rw [collect_some]
  rfl

end Results

/-- Of the atoms that are found, the distinct names make the keys in the order in which they first
come, and a key is included if some of its atoms include it and excluded if all of them exclude it.
So the order of the atoms makes no difference for what a name is. -/
theorem collect_merges_atoms (t u : Text) :
    ∃ as bs marks others,
      (∀ {σ : Type} (s : σ), (scan (some t) s).result = .ok as ∧ (scan (some u) s).result = .ok bs ∧
        (collect (some t) s).result = .ok marks ∧ (collect (some u) s).result = .ok others) ∧
      marks.names = (as.map Atom.name).eraseDups ∧ marks.names.Nodup ∧
      (∀ name, marks.get? name = some .included ↔ ∃ a ∈ as, a.name = name ∧ a.mark = .included) ∧
      (∀ name ∈ marks.names,
        (marks.get? name = some .excluded ↔ ∀ a ∈ as, a.name = name → a.mark = .excluded)) ∧
      (as.Perm bs → ∀ name, marks.get? name = others.get? name) := by
  have htold := tells_parse t
  refine ⟨atoms t,atoms u,parse t,parse u,
    fun s => ⟨result_scan t s,result_scan u s,result_collect t s,
      result_collect u s⟩,htold.names,htold.selection.nodup,?_,?_,?_⟩
  · intro name
    rw [htold.included_iff]
    constructor
    · exact fun h => ⟨_,h,rfl,rfl⟩
    · rintro ⟨⟨_,_⟩,ha,rfl,rfl⟩
      exact ha
  · intro name hname
    rw [htold.excluded_iff hname]
    constructor
    · rintro hnone ⟨_,mark⟩ ha rfl
      have hproper := proper_of_mem_atoms ha
      cases mark with
      | included => exact absurd ha hnone
      | excluded => rfl
      | neutral => exact absurd rfl hproper.marked
    · exact fun hall h => nomatch hall _ h rfl
  · intro hperm name
    rw [htold.mark, (tells_parse u).mark, markGiven, markGiven]
    simp only [hperm.mem_iff]

/-- Contradicting atoms in another order give the keys in another order, and each key the same
mark. -/
theorem collect_merges_atoms_swapped :
    let t : Text := "Category!=A Category=B|Category=A"
    let u : Text := "Category=B;Category=A&Category!=A"
    (atoms t).Perm (atoms u) ∧ (parse t).names = ["A", "B"] ∧ (parse u).names = ["B", "A"] ∧
      ∀ name, (parse t).get? name = (parse u).get? name := by
  intro t u
  have hperm : (atoms t).Perm (atoms u) := by decide +kernel
  obtain ⟨as,bs,marks,others,hresults,_,_,_,_,hsame⟩ := collect_merges_atoms t u
  obtain ⟨has,hbs,hmarks,hothers⟩ := hresults ()
  rw [result_scan, Except.ok.injEq] at has hbs
  rw [result_collect, Except.ok.injEq] at hmarks hothers
  subst has hbs hmarks hothers
  exact ⟨hperm,by decide +kernel,by decide +kernel,hsame hperm⟩

/-- A code point that stands in no written atom cuts the scan in two. -/
theorem scan_append (t u : Text) {c : CodePoint} (hc : isBreak c = true) :
    ∃ as bs marks others all,
      (∀ {σ : Type} (s : σ), (scan (some t) s).result = .ok as ∧ (scan (some u) s).result = .ok bs ∧
        (scan (some (t ++ c :: u)) s).result = .ok (as ++ bs) ∧
        (collect (some t) s).result = .ok marks ∧ (collect (some u) s).result = .ok others ∧
        (collect (some (t ++ c :: u)) s).result = .ok all) ∧
      all.names = marks.names ++ others.names.filter (· ∉ marks.names) ∧
      ∀ name ∈ all.names,
        (all.get? name = some .included ↔
          marks.get? name = some .included ∨ others.get? name = some .included) ∧
        (all.get? name = some .excluded ↔
          ¬(marks.get? name = some .included ∨ others.get? name = some .included)) := by
  have hatoms := atoms_append_break t u hc
  refine ⟨atoms t,atoms u,parse t,parse u,parse (t ++ c :: u),
    fun s => ⟨result_scan t s,result_scan u s,?_,result_collect t s,result_collect u s,
      result_collect _ s⟩,?_,?_⟩
  · rw [result_scan, hatoms]
  · have hparse : parse (t ++ c :: u) = mergeAll (parse t) (atoms u) := by
      rw [parse, hatoms]
      exact List.foldl_append
    rw [hparse, names_mergeAll]
    rfl
  · intro name hname
    have htold := tells_parse (t ++ c :: u)
    rw [htold.included_iff, htold.excluded_iff hname, (tells_parse t).included_iff,
      (tells_parse u).included_iff, hatoms, List.mem_append]
    exact ⟨Iff.rfl,Iff.rfl⟩

/-- An atom that breaks off is not completed by what stands behind the cut. -/
theorem scan_append_dangling :
    isBreak ';' = true ∧
      (scan (some "Category!=A|Category!=;Category=A") ()).result =
        .ok [⟨"A", .excluded⟩, ⟨"A", .included⟩] ∧
      (parse "Category!=A|Category!=;Category=A").get? "A" = some .included := by
  have hc : isBreak ';' = true := by decide
  obtain ⟨as,bs,marks,others,all,hresults,_,hmark⟩ :=
    scan_append "Category!=A|Category!=" "Category=A" hc
  obtain ⟨has,hbs,hscan,hmarks,hothers,hall⟩ := hresults ()
  have htext : Text.ofString "Category!=A|Category!=" ++
      CodePoint.ofChar ';' :: Text.ofString "Category=A" =
      Text.ofString "Category!=A|Category!=;Category=A" := by decide
  have hfound : atoms "Category!=A|Category!=" = [⟨"A", .excluded⟩] ∧
      atoms "Category=A" = [⟨"A", .included⟩] := by
    decide +kernel
  have hkey : Text.ofString "A" ∈ (parse "Category!=A|Category!=;Category=A").names ∧
      (parse "Category=A").get? "A" = some .included := by decide +kernel
  rw [htext] at hscan hall
  rw [result_scan, Except.ok.injEq] at has hbs
  rw [result_collect, Except.ok.injEq] at hothers hall
  subst has hbs hothers hall
  rw [hfound.1, hfound.2] at hscan
  exact ⟨hc,hscan,(hmark _ hkey.1).1.mpr (Or.inr hkey.2)⟩

end CategorySelection.Expression
