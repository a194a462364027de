import CategorySelection.Proofs.Binary64.Order
import CategorySelection.Registry
import Mathlib.Data.List.Nodup
/-!
What is live in a registry. Entries expire in the order in which they were put in, so what has
expired is at the front and is gone before a full registry gives up its first entry.
-/

namespace CategorySelection.Registry

/-- Dropping from the front is filtering, if what satisfies the condition has nothing behind it that
does not. -/
theorem dropWhile_eq_filter {β : Type} {p : β → Bool} {entries : List β}
    (h : entries.Pairwise fun a b => p a = true → p b = true) :
    entries.dropWhile (!p ·) = entries.filter p := by
  induction entries with
  | nil => rfl
  | cons first rest ih =>
    obtain ⟨hfirst,hrest⟩ := List.pairwise_cons.mp h
    cases hp : p first with
    | false =>
      rw [List.dropWhile_cons_of_pos (by rw [hp]; rfl), List.filter_cons_of_neg (by rw [hp]; nofun)]
      exact ih hrest
    | true =>
      rw [List.dropWhile_cons_of_neg (by rw [hp]; nofun), List.filter_cons_of_pos hp,
        List.filter_eq_self.mpr fun e he => hfirst e he hp]

variable {κ α : Type}

def Entry.replaced (id : Text) (item : α) (e : Entry κ α) : Entry κ α :=
  if e.id = id then { e with item } else e

theorem Entry.replaced_id (id : Text) (item : α) (e : Entry κ α) :
    (e.replaced id item).id = e.id := by
  rw [replaced]
  split_ifs <;> rfl

theorem Entry.replaced_expires (id : Text) (item : α) (e : Entry κ α) :
    (e.replaced id item).expires = e.expires := by
  rw [replaced]
  split_ifs <;> rfl

theorem entries_replace (r : Registry κ α) (id : Text) (item : α) :
    (r.replace id item).entries = r.entries.map (Entry.replaced id item) := rfl

section Orderly

variable [LT κ] [Add κ] {r : Registry κ α}

/-- A registry in order: nothing is in it twice or expires before what was put in earlier, and
nothing that could be put in now would expire first. -/
structure Orderly (r : Registry κ α) : Prop where
  distinct : (r.entries.map Entry.id).Nodup
  ordered : r.entries.Pairwise fun a b => NoLater a.expires b.expires
  due : ∀ e ∈ r.entries, NoLater e.expires (r.now+r.lifetime)
  length : r.entries.length ≤ r.capacity

namespace Orderly

theorem replace (h : r.Orderly) (id : Text) (item : α) : (r.replace id item).Orderly := by
  have hentry : ∀ e ∈ (r.replace id item).entries, ∃ e' ∈ r.entries, e'.expires = e.expires := by
    intro e he
    obtain ⟨e',he',rfl⟩ := List.mem_map.mp he
    exact ⟨e',he',(e'.replaced_expires id item).symm⟩
  refine ⟨?_,?_,?_,?_⟩
  · have hids : (r.replace id item).entries.map Entry.id = r.entries.map Entry.id := by
      rw [entries_replace, List.map_map]
      exact List.map_congr_left fun e _ => e.replaced_id id item
    rw [hids]
    exact h.distinct
  · rw [entries_replace, List.pairwise_map]
    refine h.ordered.imp ?_
    intro a b hab
    rwa [Entry.replaced_expires, Entry.replaced_expires]
  · intro e he
    obtain ⟨e',he',heq⟩ := hentry e he
    rw [← heq]
    exact h.due e' he'
  · rw [entries_replace, List.length_map]
    exact h.length

theorem remove (h : r.Orderly) (id : Text) : (r.remove id).Orderly := by
  have hsub : (r.remove id).entries.Sublist r.entries := List.filter_sublist
  exact ⟨h.distinct.sublist (hsub.map Entry.id),h.ordered.sublist hsub,
    fun e he => h.due e (hsub.subset he),hsub.length_le.trans h.length⟩

/-- Time that passes keeps the order, if it does not run backwards. -/
theorem advance (h : r.Orderly) {time : κ}
    (hlate : NoLater (r.now+r.lifetime) (r.now+time+r.lifetime)) : (r.advance time).Orderly :=
  ⟨h.distinct,h.ordered,fun e he => (h.due e he).trans hlate,h.length⟩

end Orderly

end Orderly

section Live

variable [LT κ] [DecidableLT κ] {r : Registry κ α}

def live (r : Registry κ α) : List (Entry κ α) := r.entries.filter r.isLive

theorem mem_live {e : Entry κ α} : e ∈ r.live ↔ e ∈ r.entries ∧ r.now < e.expires := by
  rw [live, List.mem_filter, isLive, decide_eq_true_eq]

theorem live_sublist (r : Registry κ α) : r.live.Sublist r.entries := List.filter_sublist

theorem isSome_find?_iff {id : Text} : (r.find? id).isSome = true ↔ id ∈ r.live.map Entry.id := by
  rw [find?, Option.isSome_map, List.find?_isSome, List.mem_map]
  simp only [Bool.and_eq_true, decide_eq_true_eq, live, List.mem_filter]
  constructor
  · rintro ⟨e,he,hid,hlive⟩
    exact ⟨e,⟨he,hlive⟩,hid⟩
  · rintro ⟨e,⟨he,hlive⟩,hid⟩
    exact ⟨e,he,hid,hlive⟩

/-- An item is found under an id just if a live entry has both, as no other entry has the id. -/
theorem find?_eq_some_iff (h : (r.entries.map Entry.id).Nodup) {id : Text} {item : α} :
    r.find? id = some item ↔ ∃ e ∈ r.live, e.id = id ∧ e.item = item := by
  rw [find?, Option.map_eq_some_iff]
  constructor
  · rintro ⟨e,hfind,hitem⟩
    have hfound := List.find?_some hfind
    rw [Bool.and_eq_true, decide_eq_true_eq] at hfound
    exact ⟨e,List.mem_filter.mpr ⟨List.mem_of_find?_eq_some hfind,hfound.2⟩,hfound.1,hitem⟩
  · rintro ⟨e,he,hid,hitem⟩
    obtain ⟨hmem,hlive⟩ := List.mem_filter.mp he
    have hsome : (r.entries.find? fun e => e.id = id && r.isLive e).isSome = true := by
      rw [List.find?_isSome]
      exact ⟨e,hmem,by rw [hlive, Bool.and_true, decide_eq_true hid]⟩
    obtain ⟨found,hfind⟩ := Option.isSome_iff_exists.mp hsome
    have hfound := List.find?_some hfind
    rw [Bool.and_eq_true, decide_eq_true_eq] at hfound
    have heq : found = e := List.inj_on_of_nodup_map h (List.mem_of_find?_eq_some hfind) hmem
      (hfound.1.trans hid.symm)
    exact ⟨e,heq ▸ hfind,hitem⟩

def staying (r : Registry κ α) (id : Text) : List (Entry κ α) :=
  if id ∈ r.live.map Entry.id then r.live.filter (·.id ≠ id)
  else r.live.drop (r.live.length+1-r.capacity)

theorem staying_sublist (r : Registry κ α) (id : Text) : (r.staying id).Sublist r.live := by
  rw [staying]
  split_ifs
  · exact List.filter_sublist
  · exact List.drop_sublist _ _

theorem ne_of_mem_staying {id : Text} {e : Entry κ α} (he : e ∈ r.staying id) : e.id ≠ id := by
  rw [staying] at he
  split_ifs at he with hid
  · exact of_decide_eq_true (List.mem_filter.mp he).2
  · intro heq
    exact hid (heq ▸ List.mem_map_of_mem (List.mem_of_mem_drop he))

/-- Giving an entry another item changes what is found under its id alone. -/
theorem find?_replace (r : Registry κ α) (id other : Text) (item : α) :
    (r.replace id item).find? other =
      if other = id then (r.find? id).map fun _ => item else r.find? other := by
  have hlive : ((fun e => decide (e.id = other) && (r.replace id item).isLive e) ∘
      Entry.replaced id item) = fun e => decide (e.id = other) && r.isLive e := by
    funext e
    rw [Function.comp_apply, Entry.replaced_id, isLive, Entry.replaced_expires]
    rfl
  rw [find?, entries_replace, List.find?_map, hlive, Option.map_map, find?, find?]
  cases hfind : r.entries.find? (fun e => decide (e.id = other) && r.isLive e) with
  | none =>
    split_ifs with heq
    · rw [← heq, hfind]
      rfl
    · rfl
  | some e =>
    have hfound := List.find?_some hfind
    rw [Bool.and_eq_true, decide_eq_true_eq] at hfound
    rw [Option.map_some, Function.comp_apply, Entry.replaced, hfound.1]
    split_ifs with heq
    · rw [← heq, hfind]
      rfl
    · rfl

/-- Removing an entry changes what is found under its id alone, as being live does not depend on
what else is there. -/
theorem find?_remove (h : (r.entries.map Entry.id).Nodup) (id other : Text) :
    (r.remove id).find? other = if other = id then none else r.find? other := by
  have hrest : ((r.remove id).entries.map Entry.id).Nodup :=
    h.sublist (List.filter_sublist.map Entry.id)
  have hmem : ∀ e, e ∈ (r.remove id).live ↔ e ∈ r.live ∧ e.id ≠ id := by
    intro e
    rw [mem_live, mem_live, remove, List.mem_filter, decide_eq_true_eq, and_right_comm]
  apply Option.ext
  intro found
  rw [find?_eq_some_iff hrest]
  simp only [hmem]
  split_ifs with heq
  · refine iff_of_false ?_ nofun
    rintro ⟨e,⟨_,hne⟩,hid,_⟩
    exact hne (hid.trans heq)
  · rw [find?_eq_some_iff h]
    constructor
    · rintro ⟨e,⟨he,_⟩,hid⟩
      exact ⟨e,he,hid⟩
    · rintro ⟨e,he,hid,hitem⟩
      exact ⟨e,⟨he,hid ▸ heq⟩,hid,hitem⟩

end Live

section Put

variable [LT κ] [DecidableLT κ] [Add κ] {r : Registry κ α}

namespace Orderly

theorem distinct_live (h : r.Orderly) : (r.live.map Entry.id).Nodup :=
  h.distinct.sublist ((live_sublist r).map Entry.id)

theorem eq_of_id_eq (h : r.Orderly) {a b : Entry κ α} (ha : a ∈ r.live) (hb : b ∈ r.live)
    (hid : a.id = b.id) : a = b :=
  List.inj_on_of_nodup_map h.distinct_live ha hb hid

/-- What has expired is at the front, for an entry expires no later than those behind it. -/
theorem entries_expire (h : r.Orderly) : r.expire.entries = r.live := by
  apply dropWhile_eq_filter
  refine h.ordered.imp ?_
  intro a b hab ha
  exact decide_eq_true (hab.1 r.now (of_decide_eq_true ha))

theorem size_eq (h : r.Orderly) : r.size = r.live.length := by rw [size, h.entries_expire]

/-- There are no more live entries than there is room for. -/
theorem length_live_le (h : r.Orderly) : r.live.length ≤ r.capacity :=
  (live_sublist r).length_le.trans h.length

end Orderly

/-- What stays leaves room for one more entry. If the id is in use, its own entry makes room. -/
theorem length_staying_lt (h : r.Orderly) (hc : r.capacity ≠ 0) (id : Text) :
    (r.staying id).length < r.capacity := by
  have hlive := h.length_live_le
  rw [staying]
  split_ifs with hid
  · obtain ⟨e,he,hid⟩ := List.mem_map.mp hid
    have hlt : (r.live.filter (·.id ≠ id)).length < r.live.length :=
      List.length_filter_lt_length_iff_exists.mpr ⟨e,he,by simp [hid]⟩
    omega
  · rw [List.length_drop]
    omega

/-- A live entry goes if its id is used again; if the registry is full of others, the first one
goes. -/
theorem mem_staying_iff (h : r.Orderly) (hc : r.capacity ≠ 0) {id : Text} {e : Entry κ α}
    (he : e ∈ r.live) :
    e ∈ r.staying id ↔ e.id ≠ id ∧
      ¬(id ∉ r.live.map Entry.id ∧ r.live.length = r.capacity ∧ r.live.head? = some e) := by
  have hlive := h.length_live_le
  rw [staying]
  split_ifs with hid
  · simp only [List.mem_filter, he, ne_eq, decide_not, Bool.not_eq_eq_eq_not, Bool.not_true,
      decide_eq_false_iff_not, true_and, hid, not_true_eq_false, false_and,
      not_false_eq_true, and_true]
  have hne : e.id ≠ id := fun heq => hid (heq ▸ List.mem_map_of_mem he)
  by_cases hfull : r.live.length = r.capacity
  · have hnodup := h.distinct_live.of_map
    cases hlist : r.live with
    | nil =>
      rw [hlist] at hfull
      exact absurd hfull.symm hc
    | cons first rest =>
      rw [hlist] at he hnodup hfull hid
      have hdrop : (first :: rest).length+1-r.capacity = 1 := by omega
      rw [hdrop, List.drop_one, List.tail_cons, List.head?_cons, Option.some_inj]
      obtain ⟨hfirst,_⟩ := List.nodup_cons.mp hnodup
      constructor
      · intro hrest
        exact ⟨hne,fun hout => hfirst (hout.2.2 ▸ hrest)⟩
      · rintro ⟨_,hstay⟩
        exact (List.mem_cons.mp he).resolve_left fun heq => hstay ⟨hid,hfull,heq.symm⟩
  · have hdrop : r.live.length+1-r.capacity = 0 := by omega
    rw [hdrop, List.drop_zero]
    exact iff_of_true he ⟨hne,fun hout => hfull hout.2.1⟩

def putting (r : Registry κ α) (id : Text) (item : α) : Registry κ α :=
  { r with entries := r.staying id ++ [⟨id, item, r.now+r.lifetime⟩] }

/-- Putting an item in keeps what stays and puts the new entry behind it; what is given up has other
ids, so nothing is left under the id. -/
theorem put_eq (h : r.Orderly) (hc : r.capacity ≠ 0) (id : Text) (item : α) :
    r.put id item = .ok (r.putting id item) := by
  have hhas : r.expire.has id = true ↔ id ∈ r.live.map Entry.id := by
    rw [has, h.entries_expire, List.any_eq_true, List.mem_map]
    simp only [decide_eq_true_eq]
  have hentries : ((if r.expire.has id then r.expire
      else r.expire.makeRoom).entries.filter (·.id ≠ id)) =
      r.staying id := by
    rw [staying]
    by_cases hid : id ∈ r.live.map Entry.id
    · rw [if_pos (hhas.mpr hid), if_pos hid, h.entries_expire]
    · rw [if_neg (mt hhas.mp hid), if_neg hid, makeRoom, h.entries_expire]
      apply List.filter_eq_self.mpr
      intro e he
      exact decide_eq_true fun heq => hid (heq ▸ List.mem_map_of_mem (List.mem_of_mem_drop he))
  have hsame : ∀ t : Registry κ α, (if t.has id then t else t.makeRoom).append id item =
      { t with entries := ((if t.has id then t else t.makeRoom).entries.filter (·.id ≠ id)) ++
          [⟨id, item, t.now+t.lifetime⟩] } := by
    intro t
    split_ifs <;> rfl
  rw [put, if_neg (show r.expire.capacity ≠ 0 from hc), hsame, hentries]
  rfl

/-- Putting an item in keeps the order: nothing that stays has the id, and the new entry expires
after it. -/
theorem Orderly.putting (h : r.Orderly) (hc : r.capacity ≠ 0) (id : Text) (item : α) :
    (r.putting id item).Orderly := by
  have hsub : (r.staying id).Sublist r.entries := (staying_sublist r id).trans (live_sublist r)
  refine ⟨?_,?_,?_,?_⟩
  · rw [Registry.putting, List.map_append, List.nodup_append]
    refine ⟨h.distinct.sublist (hsub.map Entry.id),List.nodup_singleton _,?_⟩
    intro a ha b hb
    obtain ⟨e,he,rfl⟩ := List.mem_map.mp ha
    rw [List.mem_singleton.mp hb]
    exact ne_of_mem_staying he
  · rw [Registry.putting, List.pairwise_append]
    refine ⟨h.ordered.sublist hsub,List.pairwise_singleton _ _,?_⟩
    intro a ha b hb
    rw [List.mem_singleton.mp hb]
    exact h.due a (hsub.subset ha)
  · intro e he
    rcases List.mem_append.mp he with he | he
    · exact h.due e (hsub.subset he)
    · rw [List.mem_singleton.mp he]
      exact NoLater.refl _
  · rw [Registry.putting, List.length_append]
    exact length_staying_lt h hc id

/-- After an item is put in, what stays is live, and so is the new entry unless its lifetime is over
at once. -/
theorem mem_live_putting {id : Text} {item : α} {e : Entry κ α} :
    e ∈ (r.putting id item).live ↔ e ∈ r.staying id ∨
      (e = ⟨id, item, r.now+r.lifetime⟩ ∧ r.now < r.now+r.lifetime) := by
  rw [mem_live, putting, List.mem_append, List.mem_singleton, or_and_right]
  refine or_congr (and_iff_left_of_imp ?_) (and_congr_right ?_)
  · intro he
    exact (mem_live.mp ((staying_sublist r id).subset he)).2
  · rintro rfl
    rfl

/-- An item that is put in is there if its time is not over at once; what else is there has
stayed. -/
theorem find?_putting (h : r.Orderly) (hc : r.capacity ≠ 0) {id : Text} {item : α} (other : Text)
    (found : α) :
    (r.putting id item).find? other = some found ↔
      (other = id ∧ r.now < r.now+r.lifetime ∧ item = found) ∨
        ∃ e ∈ r.staying id, e.id = other ∧ e.item = found := by
  rw [find?_eq_some_iff (h.putting hc id item).distinct]
  simp only [mem_live_putting]
  constructor
  · rintro ⟨e,hstay | ⟨rfl,hnow⟩,hid,hitem⟩
    · exact Or.inr ⟨e,hstay,hid,hitem⟩
    · exact Or.inl ⟨hid.symm,hnow,hitem⟩
  · rintro (⟨rfl,hnow,hitem⟩ | ⟨e,hstay,hid,hitem⟩)
    · exact ⟨_,Or.inr ⟨rfl,hnow⟩,rfl,hitem⟩
    · exact ⟨e,Or.inl hstay,hid,hitem⟩

/-- What is found under another id was found there before. -/
theorem find?_of_putting (h : r.Orderly) (hc : r.capacity ≠ 0) {id other : Text} {item found : α}
    (hne : other ≠ id) (hfound : (r.putting id item).find? other = some found) :
    r.find? other = some found := by
  rw [find?_eq_some_iff h.distinct]
  rcases (find?_putting h hc other found).mp hfound with ⟨heq,_⟩ | ⟨e,hstay,hid,hitem⟩
  · exact absurd heq hne
  · exact ⟨e,(staying_sublist r id).subset hstay,hid,hitem⟩

/-- Putting an item in again that is there changes nothing of what is found. Its lifetime is not
over at once, since it starts no earlier than that of the entry, which is live. -/
theorem find?_putting_again (h : r.Orderly) (hc : r.capacity ≠ 0) {id : Text} {item : α}
    (hitem : r.find? id = some item) (other : Text) :
    (r.putting id item).find? other = r.find? other := by
  obtain ⟨e,he,hid,heitem⟩ := (find?_eq_some_iff h.distinct).mp hitem
  have hnow : r.now < r.now+r.lifetime :=
    (h.due e (mem_live.mp he).1).1 _ (mem_live.mp he).2
  have hmem : id ∈ r.live.map Entry.id := hid ▸ List.mem_map_of_mem he
  apply Option.ext
  intro found
  rw [find?_putting h hc, find?_eq_some_iff h.distinct]
  constructor
  · rintro (⟨rfl,_,rfl⟩ | ⟨e',hstay,hid'⟩)
    · exact ⟨e,he,hid,heitem⟩
    · exact ⟨e',(staying_sublist r id).subset hstay,hid'⟩
  · rintro ⟨e',he',hid',hitem'⟩
    by_cases heq : other = id
    · have hsame := h.eq_of_id_eq he he' (hid.trans (heq.symm.trans hid'.symm))
      exact Or.inl ⟨heq,hnow,by rw [← heitem, ← hitem', hsame]⟩
    · refine Or.inr ⟨e',(mem_staying_iff h hc he').mpr ⟨?_,fun hout => hout.1 hmem⟩,hid',hitem'⟩
      rwa [hid']

end Put

end CategorySelection.Registry
