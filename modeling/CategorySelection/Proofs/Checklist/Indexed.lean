import CategorySelection.Checklist.Indexed
import CategorySelection.Proofs.Checklist.Operation
/-!
Checklists in two parts. Whatever is done to them, the index and the table have the same names, and
they show the rows that the same operations make in one list. For this bisection must find the place
at which rows in increasing order take a new one in.
-/

namespace CategorySelection

namespace Text

/-- A place in an index that has the texts which are not greater before it, and the greater ones
behind. -/
structure IsPlace (t : Text) (index : List Text) (place : Nat) : Prop where
  bounded : place ≤ index.length
  before : ∀ i (h : i < index.length), i < place → index[i] ≤ t
  behind : ∀ i (h : i < index.length), place ≤ i → t < index[i]

/-- The search keeps what stands before `low` and from `high` on, and ends where the two meet. -/
theorem isPlace_placeBetween {t : Text} {index : List Text} (hs : index.SortedLT) {low high : Nat}
    (hle : low ≤ high) (hhigh : high ≤ index.length)
    (hbefore : ∀ i (h : i < index.length), i < low → index[i] ≤ t)
    (hbehind : ∀ i (h : i < index.length), high ≤ i → t < index[i]) :
    IsPlace t index (placeBetween t index low high) := by
  fun_induction placeBetween t index low high with
  | case1 low high hlt hless ih =>
    have hmiddle : (low+high)/2 < index.length := by omega
    rw [List.getElem?_eq_getElem hmiddle, Option.any_some, decide_eq_true_eq] at hless
    refine ih (by omega) hmiddle.le hbefore ?_
    intro i hi hmi
    exact hless.trans_le (hs.sortedLE.getElem_le_getElem_of_le hmi)
  | case2 low high hlt hless ih =>
    have hmiddle : (low+high)/2 < index.length := by omega
    rw [List.getElem?_eq_getElem hmiddle, Option.any_some, decide_eq_true_eq, not_lt] at hless
    refine ih (by omega) hhigh ?_ hbehind
    intro i hi him
    have hle : i ≤ (low+high)/2 := by omega
    exact (hs.sortedLE.getElem_le_getElem_of_le hle).trans hless
  | case3 low high hlt =>
    obtain rfl : low = high := by omega
    exact ⟨hhigh,hbefore,hbehind⟩

theorem mem_insertByBisection (u t : Text) (index : List Text) :
    u ∈ insertByBisection t index ↔ u = t ∨ u ∈ index := by
  have hsplit := List.take_append_drop (placeBetween t index 0 index.length) index
  rw [insertByBisection, List.mem_append, List.mem_cons, or_left_comm, ← List.mem_append, hsplit]

theorem insertByBisection_sortedLT {t : Text} {index : List Text} (hs : index.SortedLT)
    (ht : t ∉ index) :
    (insertByBisection t index).SortedLT := by
  have hplace : IsPlace t index (placeBetween t index 0 index.length) :=
    isPlace_placeBetween hs (Nat.zero_le _) le_rfl (fun i _ hi => absurd hi (Nat.not_lt_zero i))
      fun i hi hle => absurd hi (Nat.not_lt.mpr hle)
  rw [insertByBisection]
  generalize placeBetween t index 0 index.length = place at hplace
  have hbefore : ∀ u ∈ index.take place, u < t := by
    intro u hu
    obtain ⟨i,hi,rfl⟩ := List.mem_take_iff_getElem.mp hu
    have hne : index[i] ≠ t := fun h => ht (h ▸ List.getElem_mem _)
    exact lt_of_le_of_ne (hplace.before i (by omega) (by omega)) hne
  have hbehind : ∀ u ∈ index.drop place, t < u := by
    intro u hu
    obtain ⟨i,hi,rfl⟩ := List.mem_drop_iff_getElem.mp hu
    exact hplace.behind _ _ (Nat.le_add_right place i)
  apply List.Pairwise.sortedLT
  refine List.pairwise_append.mpr ⟨hs.pairwise.take,
    List.pairwise_cons.mpr ⟨hbehind,hs.pairwise.drop⟩,?_⟩
  intro u hu v hv
  rcases List.mem_cons.mp hv with rfl | hv
  · exact hbefore u hu
  · exact (hbefore u hu).trans (hbehind v hv)

end Text

namespace Assoc

variable {α : Type}

/-- Entries put one after the other: of distinct names, the entry put is found before what was
there. -/
theorem get?_foldl_put (name : Text) {entries : List (Text × α)} (h : (names entries).Nodup)
    (table : Assoc α) :
    get? name (entries.foldl (fun table entry => put entry.1 entry.2 table) table) =
      (get? name entries).or (get? name table) := by
  induction entries generalizing table with
  | nil => rfl
  | cons entry rest ih =>
    rw [names_cons, List.nodup_cons] at h
    rw [List.foldl_cons, ih h.2, get?_cons, get?_put]
    by_cases hentry : entry.1 = name
    · have hnone : get? name rest = none := (get?_eq_none_iff name rest).mpr (hentry ▸ h.1)
      rw [if_pos hentry, if_pos hentry, hnone]
      rfl
    · rw [if_neg hentry, if_neg hentry]

theorem nodup_names_foldl_put (entries : List (Text × α)) {table : Assoc α}
    (h : (names table).Nodup) :
    (names (entries.foldl (fun table entry => put entry.1 entry.2 table) table)).Nodup := by
  induction entries generalizing table with
  | nil => exact h
  | cons entry rest ih => exact ih (nodup_names_put entry.1 entry.2 table h)

end Assoc

namespace Checklist

/-- The two parts show a sound checklist: its names in their order, and its marks in any order. -/
structure Indexed.Shows (i : Indexed) (c : Checklist) : Prop where
  sound : c.Sound
  index : i.index = c.names
  marks : ∀ name, i.marks.get? name = c.mark? name
  distinct : i.marks.names.Nodup

/-- Two actions end alike: with one result and log, and with parts that show the rows. -/
structure Indexed.Alike {α : Type} (o : Outcome Indexed α) (p : Outcome Checklist α) : Prop where
  result : o.result = p.result
  log : o.log = p.log
  shows : o.world.Shows p.world

namespace Indexed.Shows

variable {i : Indexed} {c : Checklist}

theorem has (h : i.Shows c) (name : Text) : i.has name = c.has name := by
  have hi : i.has name = true ↔ name ∈ i.marks.names := has_iff name ⟨i.marks⟩
  rw [Bool.eq_iff_iff, hi, has_iff, ← not_iff_not, ← Assoc.get?_eq_none_iff, ← mark?_eq_none_iff,
    h.marks]

theorem mark (h : i.Shows c) (name : Text) : i.mark name = c.mark name := by
  cases hfound : c.mark? name <;> simp only [Indexed.mark, Checklist.mark, h.marks, hfound]

/-- The index and the table have the same names. -/
theorem names_perm (h : i.Shows c) : i.marks.names.Perm i.index := by
  rw [h.index]
  refine (List.perm_ext_iff_of_nodup h.distinct h.sound.ordered.nodup).mpr fun name => ?_
  rw [← not_iff_not, ← Assoc.get?_eq_none_iff, ← mark?_eq_none_iff, h.marks]

/-- No name of the index is without a mark. -/
theorem rows (h : i.Shows c) : i.rows = .ok c.rows := by
  have hrow : ∀ row ∈ c.rows, i.mark row.1 = .ok row.2 := by
    intro row hrow
    have hget : c.mark? row.1 = some row.2 :=
      (Assoc.get?_eq_some_iff h.sound.ordered.nodup).mpr hrow
    rw [Indexed.mark, h.marks, hget]
  rw [Indexed.rows, h.index, Checklist.names, Assoc.names]
  generalize c.rows = rows at hrow
  induction rows with
  | nil => rfl
  | cons row rest ih =>
    obtain ⟨hfirst,hrest⟩ := List.forall_mem_cons.mp hrow
    rw [List.map_cons, List.mapM_cons, hfirst, ih hrest]
    rfl

/-- A row is added alike in both forms: both insertions keep the order, and they add the same
name. -/
theorem addRow (h : i.Shows c) (name : Text) :
    Alike (Indexed.addRow name i) (Checklist.addRow name c) := by
  rw [addRow_apply, Indexed.addRow, Action.bind_apply, Action.world_apply, Checklist.add]
  dsimp only
  rw [h.has]
  by_cases hhas : c.has name = true
  · rw [if_pos hhas, if_pos hhas, hhas]
    exact ⟨rfl,rfl,h⟩
  · rw [if_neg hhas, if_neg hhas, Action.bind_apply, Action.ofExcept_apply]
    have hm : name ∉ c.names := fun hm => hhas ((has_iff name c).mpr hm)
    cases hcheck : Category.checkName name with
    | error e => exact ⟨rfl,rfl,h⟩
    | ok u =>
      have hadd : c.add name = .ok ⟨insertRow (name,.neutral) c.rows⟩ := by
        rw [Checklist.add, if_neg hhas, hcheck]
        rfl
      rw [Bool.not_eq_true] at hhas
      refine ⟨by rw [hhas]; rfl,rfl,sound_add h.sound hadd,?_,?_,
        Assoc.nodup_names_put _ _ _ h.distinct⟩
      · change Text.insertByBisection name i.index = Assoc.names (insertRow (name,.neutral) c.rows)
        rw [h.index]
        apply (Text.insertByBisection_sortedLT h.sound.ordered hm).eq_of_mem_iff
          (names_insertRow_sortedLT _ _ h.sound.ordered hm)
        intro other
        rw [Text.mem_insertByBisection, mem_names_insertRow]
        rfl
      · intro other
        change Assoc.get? other (i.marks.put name .neutral) =
          Assoc.get? other (insertRow (name,.neutral) c.rows)
        rw [Assoc.get?_put, get?_insertRow other (name,.neutral) c.rows hm, h.marks]
        rfl

theorem removeRow (h : i.Shows c) (name : Text) :
    Alike (Indexed.removeRow name i) (Action.change (Checklist.remove name) c) := by
  rw [Indexed.removeRow, Action.bind_apply, Action.world_apply]
  dsimp only
  rw [h.has]
  by_cases hhas : c.has name = true
  · have hm : name ∈ i.index := by rwa [h.index, ← has_iff]
    rw [if_pos hhas, if_pos hm]
    have hkept (keep : Text × Mark → Bool) : (Assoc.names (i.marks.filter keep)).Nodup :=
      h.distinct.sublist (Assoc.names_filter_sublist keep i.marks)
    refine ⟨rfl,rfl,sound_remove name h.sound,?_,?_,hkept _⟩
    · have hindex : i.index.SortedLT := h.index ▸ h.sound.ordered
      apply (hindex.pairwise.sublist List.erase_sublist).sortedLT.eq_of_mem_iff
        (sound_remove name h.sound).ordered
      intro other
      rw [hindex.nodup.mem_erase_iff, h.index, mem_names_remove]
    · intro other
      change Assoc.get? other (i.marks.erase name) = (c.remove name).mark? other
      rw [Assoc.get?_erase, mark?_remove, h.marks]
  · have hsame : c.remove name = c := congrArg Checklist.mk (Assoc.erase_eq_self hhas)
    rw [if_neg hhas, Action.change_apply, hsame]
    exact ⟨rfl,rfl,h⟩

/-- Giving a row a mark puts the mark into the table, where there is a row. -/
theorem putMark (h : i.Shows c) {name : Text} (hm : name ∈ c.names) (mark : Mark) :
    (⟨i.index,i.marks.put name mark⟩ : Indexed).Shows (c.withMark name mark) := by
  refine ⟨sound_withMark name mark h.sound,?_,?_,Assoc.nodup_names_put _ _ _ h.distinct⟩
  · rw [names_withMark]
    exact h.index
  · intro other
    rw [mark?_withMark, Assoc.get?_put, h.marks]
    by_cases hother : name = other
    · obtain ⟨old,hold⟩ :=
        Option.ne_none_iff_exists'.mp (mt (mark?_eq_none_iff name c).mp (not_not.mpr hm))
      rw [if_pos hother, if_pos hother, hold]
      rfl
    · rw [if_neg hother, if_neg hother]

theorem setLabel (h : i.Shows c) (name label : Text) :
    Alike (Indexed.setLabel name label i) (Checklist.setLabel name label c) := by
  have hadded := h.addRow name
  rw [addRow_apply] at hadded
  rw [setLabel_apply, Indexed.setLabel, Action.bind_apply]
  rcases hi : Indexed.addRow name i with ⟨e | new,i',log⟩ <;> cases hc : c.add name <;>
    rw [hi, hc] at hadded <;> obtain ⟨hresult,hlog,hshows⟩ := hadded <;> cases hresult
  case error => exact ⟨rfl,hlog,hshows⟩
  case ok d =>
    obtain rfl : log = [] := hlog
    dsimp only
    rw [Action.bind_apply, Action.ofExcept_apply]
    cases Mark.ofLabel label with
    | error e => exact ⟨rfl,rfl,hshows⟩
    | ok mark => exact ⟨rfl,rfl,hshows.putMark ((mem_names_add hc name).mpr (Or.inl rfl)) mark⟩

/-- A category is marked by two wishes alike in both forms. -/
theorem setFlags (h : i.Shows c) (name : Text) (included excluded : Bool) :
    Alike (Indexed.setFlags name included excluded i)
      (Checklist.setFlags name included excluded c) := by
  have hset := h.setLabel name (Mark.ofFlags included excluded).label
  rw [setLabel_apply, ofLabel_label] at hset
  rw [setFlags_apply, Indexed.setFlags]
  dsimp only
  rw [Action.bind_apply]
  rcases hi : Indexed.setLabel name (Mark.ofFlags included excluded).label i
    with ⟨e | new,i',log⟩ <;>
    cases hc : c.add name <;> rw [hi, hc] at hset <;> obtain ⟨hresult,hlog,hshows⟩ := hset <;>
    cases hresult
  case error => exact ⟨rfl,hlog,hshows⟩
  case ok d =>
    obtain rfl : log = _ := hlog
    exact ⟨rfl,rfl,hshows⟩

theorem clear (h : i.Shows c) (name : Text) :
    Alike (Indexed.clear name i) (Action.change (Checklist.clear name) c) := by
  rw [Indexed.clear, Action.bind_apply, Action.world_apply]
  dsimp only
  rw [h.has]
  by_cases hhas : c.has name = true
  · rw [if_pos hhas]
    exact ⟨rfl,rfl,h.putMark ((has_iff name c).mp hhas) .neutral⟩
  · have hnone : c.mark? name = none :=
      (mark?_eq_none_iff name c).mpr (mt (has_iff name c).mpr hhas)
    rw [if_neg hhas]
    refine ⟨rfl,rfl,sound_clear name h.sound,h.index.trans (names_withMark name .neutral c).symm,?_,
      h.distinct⟩
    intro other
    change i.marks.get? other = (c.clear name).mark? other
    rw [mark?_clear, h.marks, hnone]
    split_ifs with hother
    · rw [← hother, hnone]
      rfl
    · rfl

/-- Everything is cleared alike in both forms, for the names of the index are those that have a
mark. -/
theorem clearAll (h : i.Shows c) :
    Alike (Indexed.clearAll i) (Action.change Checklist.clearAll c) := by
  have hfold : i.index.foldl (fun marks name => Assoc.put name .neutral marks) i.marks =
      (i.index.map fun name => (name,Mark.neutral)).foldl
        (fun marks row => Assoc.put row.1 row.2 marks) i.marks := by
    rw [List.foldl_map]
  have hindex : (Assoc.names (i.index.map fun name => (name,Mark.neutral))).Nodup := by
    rw [Assoc.names_map_mk, h.index]
    exact h.sound.ordered.nodup
  refine ⟨rfl,rfl,sound_clearAll h.sound,h.index.trans (names_clearAll c).symm,?_,?_⟩
  · intro name
    change Assoc.get? name
      (i.index.foldl (fun marks name => Assoc.put name .neutral marks) i.marks) =
      c.clearAll.mark? name
    rw [hfold, Assoc.get?_foldl_put name hindex, Assoc.get?_map_mk, mark?_clearAll,
      h.marks, h.index]
    by_cases hm : name ∈ c.names
    · obtain ⟨mark,hmark⟩ := Option.isSome_iff_exists.mp ((mem_names_iff name c).mp hm)
      rw [if_pos hm, hmark]
      rfl
    · rw [if_neg hm, (mark?_eq_none_iff name c).mpr hm]
      rfl
  · change (Assoc.names
      (i.index.foldl (fun marks name => Assoc.put name .neutral marks) i.marks)).Nodup
    rw [hfold]
    exact Assoc.nodup_names_foldl_put _ h.distinct

end Indexed.Shows

def Operation.performIndexed : Operation → Action Indexed Unit
  | .add name => do
    let _ ← Indexed.addRow name
    return ()
  | .remove name => Indexed.removeRow name
  | .set name label => Indexed.setLabel name label
  | .setFlags name included excluded => do
    let _ ← Indexed.setFlags name included excluded
    return ()
  | .clear name => Indexed.clear name
  | .clearAll => Indexed.clearAll

namespace Indexed

variable {i : Indexed} {c : Checklist}

theorem Alike.silent {α : Type} {x : Action Indexed α} {y : Action Checklist α}
    (h : Alike (x i) (y c)) :
    Alike ((do let _ ← x; return ()) i) ((do let _ ← y; return ()) c) := by
  rw [Action.bind_apply, Action.bind_apply]
  rcases hx : x i with ⟨_ | _,_,_⟩ <;> rcases hy : y c with ⟨_ | _,_,_⟩ <;> rw [hx, hy] at h <;>
    obtain ⟨hresult,hlog,hshows⟩ := h <;> cases hresult <;> cases hlog <;> exact ⟨rfl,rfl,hshows⟩

/-- One step: whether or not it fails, an operation ends alike on the two parts and on the rows. -/
theorem Shows.perform (h : i.Shows c) (o : Operation) :
    Alike (o.performIndexed i) (o.perform c) := by
  cases o with
  | add name => exact (h.addRow name).silent
  | remove name => exact h.removeRow name
  | set name label => exact h.setLabel name label
  | setFlags name included excluded => exact (h.setFlags name included excluded).silent
  | clear name => exact h.clear name
  | clearAll => exact h.clearAll

/-- By induction on the operations: a whole run ends alike. -/
theorem Shows.performAll (h : i.Shows c) (operations : List Operation) :
    Alike (Action.forEach Operation.performIndexed operations i)
      (Operation.performAll operations c) := by
  induction operations generalizing i c with
  | nil => exact ⟨rfl,rfl,h⟩
  | cons o rest ih =>
    rw [Operation.performAll_cons, Action.forEach, Action.bind_apply, Action.bind_apply]
    have hstep := h.perform o
    rcases hi : o.performIndexed i with ⟨e | _,i',log⟩ <;>
      rcases hc : o.perform c with ⟨e' | _,c',log'⟩ <;>
      rw [hi, hc] at hstep <;> obtain ⟨hresult,hlog,hshows⟩ :=
        hstep <;> cases hresult <;> cases hlog
    · exact ⟨rfl,rfl,hshows⟩
    · obtain ⟨hresult,hlog,hshows⟩ := ih hshows
      exact ⟨hresult,congrArg (log ++ ·) hlog,hshows⟩

end Indexed

section Start

def marksOfLabels (labels : Assoc Text) : Except Fault (Assoc Mark) :=
  labels.mapM fun (name,label) => (name,·) <$> Mark.ofLabel label

theorem marksOfLabels_cons {entry : Text × Text} {rest : Assoc Text} {marks : Assoc Mark}
    (h : marksOfLabels (entry :: rest) = .ok marks) :
    ∃ mark marks', Mark.ofLabel? entry.2 = some mark ∧ marksOfLabels rest = .ok marks' ∧
      marks = (entry.1,mark) :: marks' := by
  rw [marksOfLabels, List.mapM_cons, ← marksOfLabels] at h
  dsimp only at h
  rw [ofLabel_eq] at h
  cases hmark : Mark.ofLabel? entry.2 with
  | none =>
    rw [hmark] at h
    cases h
  | some mark =>
    rw [hmark] at h
    cases hrest : marksOfLabels rest with
    | error e =>
      rw [hrest] at h
      cases h
    | ok marks' =>
      rw [hrest] at h
      exact ⟨mark,marks',rfl,rfl,(Except.ok.inj h).symm⟩

/-- The marks of the words are found under the same names as the words. -/
theorem get?_of_labels {labels : Assoc Text} {marks : Assoc Mark}
    (h : marksOfLabels labels = .ok marks) :
    marks.names = labels.names ∧
      ∀ name, marks.get? name = (labels.get? name).bind Mark.ofLabel? := by
  induction labels generalizing marks with
  | nil =>
    obtain rfl := Except.ok.inj h
    exact ⟨rfl,fun _ => rfl⟩
  | cons entry rest ih =>
    obtain ⟨mark,marks',hmark,hrest,rfl⟩ := marksOfLabels_cons h
    obtain ⟨hnames,hget⟩ := ih hrest
    refine ⟨congrArg (entry.1 :: ·) hnames,fun name => ?_⟩
    rw [Assoc.get?_cons, Assoc.get?_cons, hget]
    split_ifs
    · exact hmark.symm
    · rfl

/-- Looking at the words one by one puts their marks into the table one by one. -/
theorem foldlM_labels {labels : Assoc Text} {marks : Assoc Mark}
    (h : marksOfLabels labels = .ok marks) (table : Assoc Mark) :
    labels.foldlM (fun table (name,label) => (Assoc.put name · table) <$> Mark.ofLabel label)
      table =
      Except.ok (marks.foldl (fun table entry => Assoc.put entry.1 entry.2 table) table) := by
  induction labels generalizing marks table with
  | nil =>
    obtain rfl := Except.ok.inj h
    rfl
  | cons entry rest ih =>
    obtain ⟨mark,marks',hmark,hrest,rfl⟩ := marksOfLabels_cons h
    obtain ⟨name,label⟩ := entry
    rw [List.foldlM_cons]
    dsimp only at hmark ⊢
    rw [ofLabel_eq, hmark]
    exact ih hrest _

/-- A checklist that is made of words is made of the marks that they stand for. -/
theorem ofLabels_cases {names : List Text} {labels : Assoc Text} {c : Checklist}
    (h : ofLabels names labels = .ok c) :
    ∃ marks, marksOfLabels labels = .ok marks ∧
      ofMarks names marks = .ok c := by
  rw [ofLabels] at h
  cases hcheck : Category.checkNames (Text.sortedSet (names ++ labels.names)) with
  | error e =>
    rw [hcheck] at h
    cases h
  | ok u =>
    rw [hcheck] at h
    cases hmarks : marksOfLabels labels with
    | error e =>
      rw [marksOfLabels] at hmarks
      dsimp only [bind, Except.bind] at h
      rw [hmarks] at h
      cases h
    | ok marks =>
      rw [marksOfLabels] at hmarks
      dsimp only [bind, Except.bind] at h
      rw [hmarks] at h
      exact ⟨marks,rfl,h⟩

/-- A checklist that is made in two parts shows the one that is made in one list. -/
theorem Indexed.shows_ofLabels {names : List Text} {labels : Assoc Text} {c : Checklist}
    (h : Checklist.ofLabels names labels = .ok c) (hdistinct : labels.names.Nodup) :
    ∃ i, Indexed.ofLabels names labels = .ok i ∧ i.Shows c := by
  obtain ⟨marks,hmarks,hc⟩ := ofLabels_cases h
  obtain ⟨hnames,_⟩ := get?_of_labels hmarks
  have hsound := sound_ofMarks hc
  have hview := mark?_ofMarks hc
  obtain ⟨hnamed,rfl⟩ := ofMarks_cases hc
  rw [hnames] at hnamed hsound hview ⊢
  have hcheck : Category.checkNames (Text.sortedSet (names ++ labels.names)) = .ok () := by
    rw [checkNames_eq_ok_iff]
    exact fun name hname => hnamed name ((Text.mem_sortedSet name _).mp hname)
  have hneutral : (Assoc.names ((Text.sortedSet (names ++ labels.names)).map
      fun name => (name,Mark.neutral))).Nodup := by
    rw [Assoc.names_map_mk]
    exact (Text.sortedSet_sortedLT _).nodup
  let marked := marks.foldl (fun table entry => Assoc.put entry.1 entry.2 table)
    ((Text.sortedSet (names ++ labels.names)).map fun name => (name,.neutral))
  refine ⟨⟨Text.sortedSet (names ++ labels.names),marked⟩,?_,hsound,?_,fun name => ?_,
    Assoc.nodup_names_foldl_put marks hneutral⟩
  · rw [Indexed.ofLabels, hcheck]
    dsimp only [bind, Except.bind]
    rw [foldlM_labels hmarks]
    rfl
  · rw [Checklist.names, Assoc.names_map_mk]
  · rw [Assoc.get?_foldl_put name (hnames ▸ hdistinct), Assoc.get?_map_mk, hview]
    simp only [Text.mem_sortedSet]
    cases hget : marks.get? name with
    | none => rfl
    | some mark =>
      have hm : name ∈ names ++ labels.names := by
        rw [← hnames]
        exact List.mem_append_right names (Assoc.mem_names_of_mem (Assoc.mem_of_get?_eq_some hget))
      rw [if_pos hm, if_pos hm]
      rfl

end Start

end Checklist

end CategorySelection
