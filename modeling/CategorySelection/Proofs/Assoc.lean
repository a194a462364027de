import CategorySelection.Assoc
import CategorySelection.Proofs.Text.Order
/-!
Looking up, putting and erasing in tables. A table whose names are distinct is determined by what it
gives for every name, up to the order of its entries; sorting makes that order canonical.
-/

namespace CategorySelection.Assoc

variable {α : Type}

@[simp] theorem names_nil : names ([] : Assoc α) = [] := rfl

@[simp] theorem names_cons (entry : Text × α) (table : Assoc α) :
    names (entry :: table) = entry.1 :: names table := rfl

theorem mem_names_of_mem {name : Text} {a : α} {table : Assoc α} (h : (name, a) ∈ table) :
    name ∈ names table :=
  List.mem_map_of_mem h

@[simp] theorem get?_nil (name : Text) : get? name ([] : Assoc α) = none := rfl

theorem get?_cons (name : Text) (entry : Text × α) (table : Assoc α) :
    get? name (entry :: table) = if entry.1 = name then some entry.2 else get? name table := rfl

/-- Nothing is found under a name just if the name is not in the table. -/
theorem get?_eq_none_iff (name : Text) (table : Assoc α) :
    get? name table = none ↔ name ∉ names table := by
  induction table with
  | nil => simp only [get?_nil, names_nil, List.not_mem_nil, not_false_eq_true]
  | cons entry rest ih =>
    rw [get?_cons, names_cons, List.mem_cons]
    by_cases h : entry.1 = name
    · simp only [h, ↓reduceIte, reduceCtorEq, true_or, not_true_eq_false]
    · rw [if_neg h, ih]
      simp only [Ne.symm h, false_or]

theorem mem_of_get?_eq_some {name : Text} {a : α} {table : Assoc α}
    (h : get? name table = some a) : (name, a) ∈ table := by
  induction table with
  | nil => cases h
  | cons entry rest ih =>
    rw [get?_cons] at h
    by_cases he : entry.1 = name
    · rw [if_pos he, Option.some_inj] at h
      rw [← he, ← h]
      exact List.mem_cons_self
    · rw [if_neg he] at h
      exact List.mem_cons_of_mem entry (ih h)

/-- Of distinct names every entry is found. -/
theorem get?_eq_some_iff {name : Text} {a : α} {table : Assoc α} (h : (names table).Nodup) :
    get? name table = some a ↔ (name, a) ∈ table := by
  refine ⟨mem_of_get?_eq_some,?_⟩
  intro hm
  induction table with
  | nil => cases hm
  | cons entry rest ih =>
    rw [names_cons, List.nodup_cons] at h
    obtain ⟨hfresh,hrest⟩ := h
    rw [get?_cons]
    rcases List.mem_cons.mp hm with he | hm
    · rw [← he, if_pos rfl]
    · have hne : entry.1 ≠ name := by
        intro he
        exact hfresh (by rw [he]; exact mem_names_of_mem hm)
      rw [if_neg hne, ih hrest hm]

theorem has_eq_isSome (name : Text) (table : Assoc α) :
    has name table = (get? name table).isSome := by
  induction table with
  | nil => rfl
  | cons entry rest ih =>
    rw [has, List.any_cons, get?_cons]
    by_cases h : entry.1 = name
    · rw [decide_eq_true h, if_pos h, Bool.true_or, Option.isSome_some]
    · rw [decide_eq_false h, if_neg h, Bool.false_or]
      exact ih

/-- What is put under a name is found there, and under other names what was found before. -/
theorem get?_put (name other : Text) (a : α) (table : Assoc α) :
    get? other (put name a table) = if name = other then some a else get? other table := by
  induction table with
  | nil => rfl
  | cons entry rest ih =>
    obtain ⟨n,b⟩ := entry
    rw [put]
    by_cases hn : n = name
    · rw [if_pos hn, get?_cons, get?_cons, ← hn]
      by_cases ho : n = other <;> simp only [ho, ↓reduceIte]
    · rw [if_neg hn, get?_cons, get?_cons, ih]
      by_cases ho : n = other
      · have : name ≠ other := fun h => hn (ho.trans h.symm)
        simp only [ho, this, ↓reduceIte]
      · simp only [ho, ↓reduceIte]

/-- A name that is not there comes behind all others. -/
theorem put_of_fresh (name : Text) (a : α) (table : Assoc α) (h : name ∉ names table) :
    put name a table = table ++ [(name, a)] := by
  induction table with
  | nil => rfl
  | cons entry rest ih =>
    obtain ⟨n,b⟩ := entry
    rw [names_cons, List.mem_cons, not_or] at h
    rw [put, if_neg (Ne.symm h.1), ih h.2, List.cons_append]

/-- A new name comes behind the others, and a name that is there keeps its place. -/
theorem names_put (name : Text) (a : α) (table : Assoc α) :
    names (put name a table) =
      if name ∈ names table then names table else names table ++ [name] := by
  induction table with
  | nil => rfl
  | cons entry rest ih =>
    obtain ⟨n,b⟩ := entry
    rw [put]
    by_cases hn : n = name
    · simp only [hn, ↓reduceIte, names_cons, List.mem_cons, true_or]
    · simp only [hn, ↓reduceIte, names_cons, List.mem_cons, ih, Ne.symm hn, false_or,
        List.cons_append]
      split_ifs <;> rfl

theorem nodup_names_put (name : Text) (a : α) (table : Assoc α) (h : (names table).Nodup) :
    (names (put name a table)).Nodup := by
  rw [names_put]
  split_ifs with hm
  · exact h
  · exact List.nodup_append.mpr ⟨h,List.nodup_singleton name,by
      intro n hn m hm' he
      rw [List.mem_singleton.mp hm'] at he
      exact hm (he ▸ hn)⟩

/-- Under a name that is erased nothing is found, and under other names what was found before. -/
theorem get?_erase (name other : Text) (table : Assoc α) :
    get? other (erase name table) = if name = other then none else get? other table := by
  induction table with
  | nil => simp only [erase, List.filter_nil, get?_nil, ite_self]
  | cons entry rest ih =>
    rw [erase] at ih ⊢
    by_cases hn : entry.1 = name
    · rw [List.filter_cons_of_neg (by simp only [hn, ne_eq, not_true_eq_false, decide_false,
        Bool.false_eq_true, not_false_eq_true]), ih, get?_cons, hn]
      split_ifs <;> rfl
    · rw [List.filter_cons_of_pos (by simpa only [ne_eq, decide_not, Bool.not_eq_true',
        decide_eq_false_iff_not] using hn), get?_cons, get?_cons, ih]
      by_cases ho : entry.1 = other
      · simp only [ho, ↓reduceIte, show name ≠ other from fun h => hn (ho.trans h.symm)]
      · simp only [ho, ↓reduceIte]

/-- Steps of which each settles one name, whatever was there, settle all their names. -/
theorem get?_foldl {step : Assoc α → Text → Assoc α} {settled : Option α}
    (hstep : ∀ table name other,
      get? other (step table name) = if name = other then settled else get? other table)
    (names : List Text) (table : Assoc α) (other : Text) :
    get? other (names.foldl step table) = if other ∈ names then settled else get? other table := by
  induction names generalizing table with
  | nil => rfl
  | cons name rest ih =>
    rw [List.foldl_cons, ih, hstep]
    by_cases hrest : other ∈ rest
    · rw [if_pos hrest, if_pos (List.mem_cons_of_mem _ hrest)]
    · simp only [List.mem_cons, hrest, or_false, ↓reduceIte, eq_comm]

theorem erase_eq_self {name : Text} {table : Assoc α} (h : ¬has name table = true) :
    erase name table = table := by
  rw [erase, List.filter_eq_self]
  intro entry hentry
  rw [has, List.any_eq_true] at h
  exact decide_eq_true fun hname => h ⟨entry,hentry,decide_eq_true hname⟩

/-- A table that gives every name of a list a value of its own. -/
theorem get?_map_mk (f : Text → α) (name : Text) (ts : List Text) :
    get? name (ts.map fun t => (t, f t)) = if name ∈ ts then some (f name) else none := by
  induction ts with
  | nil => simp only [List.map_nil, get?_nil, List.not_mem_nil, ↓reduceIte]
  | cons t rest ih =>
    rw [List.map_cons, get?_cons, ih]
    by_cases h : t = name
    · simp only [h, ↓reduceIte, List.mem_cons, true_or]
    · simp only [h, ↓reduceIte, List.mem_cons, Ne.symm h, false_or]

theorem names_map_mk (f : Text → α) (ts : List Text) : names (ts.map fun t => (t, f t)) = ts := by
  simp only [names, List.map_map, Function.comp_def, List.map_id']

theorem names_filter_sublist (keep : Text × α → Bool) (table : Assoc α) :
    (names (table.filter keep)).Sublist (names table) :=
  List.filter_sublist.map Prod.fst

/-- Of distinct names, those whose value is kept are found as before. -/
theorem get?_filter (keep : α → Bool) (name : Text) (table : Assoc α) (h : (names table).Nodup) :
    get? name (table.filter fun entry => keep entry.2) = (get? name table).filter keep := by
  have hf : (names (table.filter fun entry => keep entry.2)).Nodup :=
    h.sublist (names_filter_sublist _ table)
  apply Option.ext
  intro a
  rw [get?_eq_some_iff hf, List.mem_filter, Option.filter_eq_some_iff, get?_eq_some_iff h]

theorem mem_sorted (entry : Text × α) (table : Assoc α) : entry ∈ sorted table ↔ entry ∈ table :=
  List.mem_mergeSort

/-- Sorting puts distinct names into increasing order. -/
theorem sorted_names_sortedLT (table : Assoc α) (h : (names table).Nodup) :
    (names (sorted table)).SortedLT := by
  apply List.Pairwise.sortedLT
  have hle : (sorted table).Pairwise fun p q => (!decide (q.1 < p.1)) = true := by
    apply List.pairwise_mergeSort
    · intro p q r hpq hqr
      simp only [Bool.not_eq_true', decide_eq_false_iff_not, not_lt] at *
      exact hpq.trans hqr
    · intro p q
      simp only [Bool.or_eq_true, Bool.not_eq_true', decide_eq_false_iff_not, not_lt]
      exact le_total p.1 q.1
  have hne : (names (sorted table)).Nodup :=
    ((List.mergeSort_perm table _).map Prod.fst).nodup_iff.mpr h
  apply List.Pairwise.map
  · exact fun _ _ hpq => hpq
  · refine (hle.and (List.pairwise_map.mp hne)).imp ?_
    intro p q hpq
    simp only [Bool.not_eq_true', decide_eq_false_iff_not, not_lt] at hpq
    exact lt_of_le_of_ne hpq.1 hpq.2

/-- Entries in increasing order of the names are determined by what is looked up. -/
theorem eq_of_get?_eq {table other : Assoc α} (ht : (names table).SortedLT)
    (ho : (names other).SortedLT) (h : ∀ name, get? name table = get? name other) :
    table = other := by
  have hpair (u : Assoc α) (hu : (names u).SortedLT) : u.Pairwise fun p q => p.1 < q.1 :=
    List.pairwise_map.mp hu.pairwise
  have hperm : table.Perm other := by
    apply (List.perm_ext_iff_of_nodup ht.nodup.of_map ho.nodup.of_map).mpr
    intro entry
    rw [← get?_eq_some_iff ht.nodup, h, get?_eq_some_iff ho.nodup]
  apply hperm.eq_of_pairwise _ (hpair table ht) (hpair other ho)
  intro p q _ _ hpq hqp
  exact absurd hqp hpq.asymm

/-- Sorting a table of distinct names changes nothing of what is found in it. -/
theorem get?_sorted (name : Text) (table : Assoc α) (h : (names table).Nodup) :
    get? name (sorted table) = get? name table := by
  apply Option.ext
  intro a
  rw [get?_eq_some_iff (sorted_names_sortedLT table h).nodup, mem_sorted, get?_eq_some_iff h]

/-- Tables that give the same for every name have one order in common. -/
theorem sorted_eq_of_get?_eq {table other : Assoc α} (ht : (names table).Nodup)
    (ho : (names other).Nodup) (h : ∀ name, get? name table = get? name other) :
    sorted table = sorted other := by
  apply eq_of_get?_eq (sorted_names_sortedLT table ht) (sorted_names_sortedLT other ho)
  intro name
  rw [get?_sorted name table ht, get?_sorted name other ho, h]

/-- Of distinct names, no entry takes the place of another one. -/
theorem ofPairs_eq_self {pairs : List (Text × α)} (h : (names pairs).Nodup) :
    ofPairs pairs = pairs := by
  have hfrom (done rest : List (Text × α)) (h : (names (done ++ rest)).Nodup) :
      rest.foldl (fun table pair => put pair.1 pair.2 table) done = done ++ rest := by
    induction rest generalizing done with
    | nil => rw [List.foldl_nil, List.append_nil]
    | cons pair rest ih =>
      have hfresh : pair.1 ∉ names done := by
        rw [names, List.map_append, List.nodup_append] at h
        exact fun hm => h.2.2 _ hm _ List.mem_cons_self rfl
      have hsplit : done ++ pair :: rest = (done ++ [pair]) ++ rest := by
        rw [List.append_assoc, List.singleton_append]
      rw [List.foldl_cons, put_of_fresh _ _ _ hfresh, ih _ (hsplit ▸ h), hsplit]
  exact hfrom [] pairs h

theorem names_map_snd {β : Type} (f : α → β) (table : Assoc α) :
    names (table.map fun entry => (entry.1,f entry.2)) = names table := by
  rw [names, names, List.map_map]
  rfl

theorem get?_map_snd {β : Type} (f : α → β) (name : Text) (table : Assoc α) :
    get? name (table.map fun entry => (entry.1,f entry.2)) = (get? name table).map f := by
  induction table with
  | nil => rfl
  | cons entry rest ih =>
    rw [List.map_cons, get?_cons, get?_cons, ih]
    split_ifs <;> rfl

end CategorySelection.Assoc
