import CategorySelection.Proofs.Catalog.Refinement
/-!
Editing a catalog whose store fails now and then. An edit starts from what was read: from the saved
names, or from the seeds where reading failed. It leaves the saved names as they are or puts the
edited ones in their place, so the saved names survive an edit unless reading failed and writing did
not.
-/

namespace CategorySelection

/-- A store that keeps a text under a key: in every usable world, `held` is what is there. A call
may end with a fault that stores show when they cannot be used for the moment. Then reading has
changed nothing, and writing has been done or has not. -/
structure Store.Keeps {σ : Type} (store : Store σ) (key : Text) (usable : σ → Prop)
    (held : σ → Option Text) : Prop where
  get : ∀ w, usable w → usable (store.get key w).world ∧ held (store.get key w).world = held w ∧
    ((store.get key w).result = .ok (held w) ∨
      ∃ e, (store.get key w).result = .error e ∧ e.kind.isUnavailable = true)
  set : ∀ value w, usable w → usable (store.set key value w).world ∧
    ((store.set key value w).result = .ok () ∧ held (store.set key value w).world = some value ∨
      ∃ e, (store.set key value w).result = .error e ∧ e.kind.isUnavailable = true ∧
        (held (store.set key value w).world = held w ∨
          held (store.set key value w).world = some value))

namespace Catalog

def savedNames? (held : Option Text) : Option (Finset Text) :=
  match held.map decode with
  | some (.ok (.names all)) =>
    if ∀ name ∈ all, Category.isName name = true then some all.toFinset else none
  | _ => none

/-- The names that an edit starts from: those that are saved, or the seeds if they cannot be
read. -/
def editBase {σ : Type} (catalog : Catalog σ) (w : σ) (S : Finset Text) : Finset Text :=
  if (catalog.store.get catalog.key w).result.isOk then S else catalog.seeds.toFinset

theorem savedNames?_encode {names : List Text} (h : ∀ name ∈ names, Category.isName name = true) :
    savedNames? (some (encode names)) = some names.toFinset := by
  have hnamed : ∀ name ∈ Text.sortedSet names, Category.isName name = true :=
    fun name hname => h name ((Text.mem_sortedSet name names).mp hname)
  have hset : (Text.sortedSet names).toFinset = names.toFinset := by
    ext name
    rw [List.mem_toFinset, List.mem_toFinset, Text.mem_sortedSet]
  rw [savedNames?, Option.map_some, decode_encode h]
  dsimp only
  rw [if_pos hnamed, hset]

/-- What is read as names was saved as names of categories. -/
theorem savedNames?_eq_some {held : Option Text} {S : Finset Text} (h : savedNames? held = some S) :
    ∃ raw all, held = some raw ∧ decode raw = .ok (.names all) ∧
      (∀ name ∈ all, Category.isName name = true) ∧ all.toFinset = S := by
  rw [savedNames?] at h
  split at h
  · next all hd =>
    obtain ⟨raw,rfl,hraw⟩ := Option.map_eq_some_iff.mp hd
    split_ifs at h with hall
    exact ⟨raw,all,rfl,hraw,hall,Option.some_inj.mp h⟩
  · cases h

section Edit

variable {σ : Type} {catalog : Catalog σ} {usable : σ → Prop} {held : σ → Option Text} {w : σ}
  {S : Finset Text}

/-- Loading gives the names that an edit starts from and leaves what is saved as it is. -/
theorem load_editBase (hk : catalog.store.Keeps catalog.key usable held) (hw : usable w)
    (hS : savedNames? (held w) = some S) :
    ∃ w' log, catalog.load w = ⟨.ok ((editBase catalog w S).sort (· ≤ ·)), w', log⟩ ∧ usable w' ∧
      held w' = held w := by
  obtain ⟨husable,hheld,hresult⟩ := hk.get w hw
  rcases hget : catalog.store.get catalog.key w with ⟨result,w',log⟩
  rw [hget] at husable hheld hresult
  rcases hresult with rfl | ⟨e,rfl,he⟩
  · obtain ⟨raw,all,hraw,hd,hall,rfl⟩ := savedNames?_eq_some hS
    rw [hraw] at hget
    obtain ⟨log',hload⟩ := load_of_saved hget hd
    have hkept : all.filter Category.isName = all := List.filter_eq_self.mpr hall
    have hbase : editBase catalog w all.toFinset = all.toFinset := by
      rw [editBase, hget]
      rfl
    rw [fromSaved, hkept, Text.sortedSet_eq_sort] at hload
    exact ⟨w',log',by rw [hload, hbase],husable,hheld⟩
  · obtain ⟨log',hload⟩ := load_of_unavailable hget he
    have hbase : editBase catalog w S = catalog.seeds.toFinset := by
      rw [editBase, hget]
      rfl
    rw [defaults, Text.sortedSet_eq_sort] at hload
    exact ⟨w',log',by rw [hload, hbase],husable,hheld⟩

/-- Saving names ends well, and has put them in the place of what was saved or left that as it
was. -/
theorem save_keeps (hk : catalog.store.Keeps catalog.key usable held) (hw : usable w)
    {names : List Text} (hn : ∀ name ∈ names, Category.isName name = true) :
    ∃ w' log, catalog.save names w = ⟨.ok (), w', log⟩ ∧
      (held w' = held w ∨ savedNames? (held w') = some names.toFinset) := by
  obtain ⟨_,hset⟩ := hk.set (encode names) w hw
  rcases hcall : catalog.store.set catalog.key (encode names) w with ⟨result,w',log⟩
  rw [hcall] at hset
  rcases hset with ⟨rfl,hheld⟩ | ⟨e,rfl,he,hheld⟩
  · refine ⟨w',log,save_of_ok hcall,Or.inr ?_⟩
    rw [hheld, savedNames?_encode hn]
  · obtain ⟨log',hsave⟩ := save_of_unavailable hcall he
    refine ⟨w',log',hsave,hheld.imp_right fun hsome => ?_⟩
    rw [hsome, savedNames?_encode hn]

theorem isName_of_mem_editBase (hseeds : ∀ name ∈ catalog.seeds, Category.isName name = true)
    (hS : savedNames? (held w) = some S) :
    ∀ name ∈ editBase catalog w S, Category.isName name = true := by
  obtain ⟨_,all,_,_,hall,rfl⟩ := savedNames?_eq_some hS
  intro name hname
  rw [editBase] at hname
  split_ifs at hname
  · exact hall name (List.mem_toFinset.mp hname)
  · exact hseeds name (List.mem_toFinset.mp hname)

/-- Adding a name changes what is saved to the names that the edit started from together with the
new one, or leaves it. -/
theorem add_keeps (hk : catalog.store.Keeps catalog.key usable held) (hw : usable w)
    (hseeds : ∀ name ∈ catalog.seeds, Category.isName name = true)
    (hS : savedNames? (held w) = some S) (name : Text) :
    (catalog.add name w).result = .ok (Request.refusal (editBase catalog w S) name.trim) ∧
      (savedNames? (held (catalog.add name w).world) = some S ∨
        savedNames? (held (catalog.add name w).world) =
          some (insert name.trim (editBase catalog w S))) := by
  obtain ⟨w',log,hload,husable,hheld⟩ := load_editBase hk hw hS
  rw [Catalog.add, Action.bind_of_ok hload, rejection?_sort]
  cases hrefusal : Request.refusal (editBase catalog w S) name.trim with
  | some why =>
    refine ⟨rfl,Or.inl ?_⟩
    rw [← hS, ← hheld]
    rfl
  | none =>
    have hname := ((Request.refusal_eq_none_iff _ _).mp hrefusal).1
    have hnamed : ∀ other ∈ (editBase catalog w S).sort (· ≤ ·) ++ [name.trim],
        Category.isName other = true := by
      intro other hother
      rcases List.mem_append.mp hother with hother | hother
      · exact isName_of_mem_editBase hseeds hS other ((Finset.mem_sort _).mp hother)
      · rwa [List.mem_singleton.mp hother]
    obtain ⟨w'',log',hsave,hsaved⟩ := save_keeps hk husable hnamed
    rw [hheld, toFinset_sort_append] at hsaved
    simp only [Action.bind_apply, hsave, Action.record_apply, Action.pure_apply]
    exact ⟨trivial,hsaved.imp_left fun hsame => by rw [hsame, hS]⟩

/-- Deleting a name changes what is saved to the names that the edit started from without it, or
leaves it. -/
theorem delete_keeps (hk : catalog.store.Keeps catalog.key usable held) (hw : usable w)
    (hseeds : ∀ name ∈ catalog.seeds, Category.isName name = true)
    (hS : savedNames? (held w) = some S) (name : Text) :
    (catalog.delete name w).result = .ok () ∧
      (savedNames? (held (catalog.delete name w).world) = some S ∨
        savedNames? (held (catalog.delete name w).world) =
          some ((editBase catalog w S).erase name)) := by
  obtain ⟨w',log,hload,husable,hheld⟩ := load_editBase hk hw hS
  rw [Catalog.delete, Action.bind_of_ok hload]
  by_cases hm : name ∈ (editBase catalog w S).sort (· ≤ ·)
  · have hnamed : ∀ other ∈ ((editBase catalog w S).sort (· ≤ ·)).erase name,
        Category.isName other = true := by
      intro other hother
      exact isName_of_mem_editBase hseeds hS other
        ((Finset.mem_sort _).mp (List.mem_of_mem_erase hother))
    obtain ⟨w'',log',hsave,hsaved⟩ := save_keeps hk husable hnamed
    rw [hheld, toFinset_sort_erase] at hsaved
    rw [if_pos hm]
    simp only [Action.bind_apply, hsave, Action.record_apply]
    exact ⟨trivial,hsaved.imp_left fun hsame => by rw [hsame, hS]⟩
  · rw [if_neg hm]
    refine ⟨rfl,Or.inl ?_⟩
    rw [← hS, ← hheld]
    rfl

end Edit

end Catalog

/-- An outage whose faults are those that stores show when they cannot be used for the moment. -/
def Store.Outage.IsTransient (outage : Store.Outage) : Prop :=
  ∀ e ∈ outage.get.toList ++ outage.set.toList ++ outage.remove.toList, e.kind.isUnavailable = true

instance (outage : Store.Outage) : Decidable outage.IsTransient :=
  inferInstanceAs (Decidable (∀ e ∈ _, _))

section Guarded

variable {σ α : Type} {fault : Store.Outage → Option Fault} {x : Action σ α} {w : σ × Store.Outage}

theorem Store.guarded_of_none (h : fault w.2 = none) :
    guarded fault x w = ⟨(x w.1).result,((x w.1).world,w.2),(x w.1).log⟩ := by
  rw [guarded, Action.bind_apply, Action.world_apply]
  dsimp only
  rw [h]
  rfl

theorem Store.guarded_of_some {e : Fault} (h : fault w.2 = some e) :
    guarded fault x w = ⟨.error e,w,[]⟩ := by
  rw [guarded, Action.bind_apply, Action.world_apply]
  dsimp only
  rw [h]
  rfl

end Guarded

/-- A table whose calls may fail for the moment keeps its text. -/
theorem Store.keeps_memory_withOutage (key : Text) :
    Store.memory.withOutage.Keeps key (fun w => w.2.IsTransient) (fun w => w.1.get? key) := by
  constructor
  · rintro ⟨table,outage⟩ hw
    cases hget : outage.get with
    | none =>
      have hcall : Store.memory.withOutage.get key (table,outage) =
          ⟨.ok (table.get? key),(table,outage),[]⟩ := guarded_of_none hget
      rw [hcall]
      exact ⟨hw,rfl,Or.inl rfl⟩
    | some e =>
      have hcall : Store.memory.withOutage.get key (table,outage) = ⟨.error e,(table,outage),[]⟩ :=
        guarded_of_some hget
      rw [hcall]
      exact ⟨hw,rfl,Or.inr ⟨e,rfl,hw e (by simp [hget])⟩⟩
  · rintro value ⟨table,outage⟩ hw
    cases hset : outage.set with
    | none =>
      have hcall : Store.memory.withOutage.set key value (table,outage) =
          ⟨.ok (),(table.put key value,outage),[]⟩ := guarded_of_none hset
      rw [hcall]
      exact ⟨hw,Or.inl ⟨rfl,by rw [Assoc.get?_put, if_pos rfl]⟩⟩
    | some e =>
      have hcall : Store.memory.withOutage.set key value (table,outage) =
          ⟨.error e,(table,outage),[]⟩ := guarded_of_some hset
      rw [hcall]
      exact ⟨hw,Or.inr ⟨e,rfl,hw e (by simp [hset]),Or.inl rfl⟩⟩

namespace Catalog

/-- What an edit leaves saved, whatever calls of the store fail: the names that were saved, or the
names that could be read with the edit done to them. Names that could not be read stand aside for
the seeds, so only an edit that read the saved names keeps them. -/
theorem edit_keeps_names_read {σ : Type} (store : Store σ) (key : Text) (seeds : List Text)
    (usable : σ → Prop) (held : σ → Option Text) (hk : store.Keeps key usable held) (before : σ)
    (catalog : Catalog σ) (hmake : (make store key seeds before).result = .ok catalog) (w : σ)
    (hw : usable w) (S : Finset Text) (hS : savedNames? (held w) = some S) (name : Text) :
    let base := if (store.get key w).result.isOk then S else (seeds.filter Category.isName).toFinset
    let added := savedNames? (held (catalog.add name w).world)
    let deleted := savedNames? (held (catalog.delete name w).world)
    (catalog.add name w).result = .ok (Request.refusal base name.trim) ∧
      (added = some S ∨ added = some (insert name.trim base)) ∧
      (catalog.delete name w).result = .ok () ∧
      (deleted = some S ∨ deleted = some (base.erase name)) := by
  rw [make_apply, Except.ok.injEq] at hmake
  subst hmake
  have hseeds : ∀ name ∈ seeds.filter Category.isName, Category.isName name = true :=
    fun _ h => (List.mem_filter.mp h).2
  intro base added deleted
  let catalog : Catalog σ := ⟨store,key,seeds.filter Category.isName⟩
  obtain ⟨hresult,hadded⟩ := @add_keeps _ catalog usable held w S hk hw hseeds hS name
  obtain ⟨hdone,hdeleted⟩ := @delete_keeps _ catalog usable held w S hk hw hseeds hS name
  exact ⟨hresult,hadded,hdone,hdeleted⟩

/-- Writing that fails leaves the saved names as they were, and writing that is done adds to
them. -/
theorem edit_keeps_names_read_full_disk :
    let store : Store (Assoc Text × Store.Outage) := Store.memory.withOutage
    let catalog : Catalog (Assoc Text × Store.Outage) := ⟨store,"k",["Smoke"]⟩
    let full : Store.Outage := ⟨none,some (.foreign .system "full"),none⟩
    let saved : Assoc Text := [("k","[\"b\", \"a\"]")]
    let both : Finset Text := List.toFinset ["a","b"]
    let after := savedNames? ((catalog.add "c" (saved,full)).world.1.get? "k")
    full.IsTransient ∧ savedNames? (saved.get? "k") = some both ∧
      (after = some both ∨ after = some (insert (Text.ofString "c").trim both)) := by
  intro store catalog full saved both after
  have hw : full.IsTransient := by decide
  have hS : savedNames? (saved.get? "k") = some both := by decide +kernel
  exact ⟨hw,hS,(edit_keeps_names_read store "k" ["Smoke"] _ _ (Store.keeps_memory_withOutage "k")
    (saved,full) catalog rfl (saved,full) hw both hS "c").2.1⟩

/-- While reading fails and writing does not, adding a name puts it with the default names in the
place of the names that were saved, and deleting a default name puts the others there. -/
theorem outage_replaces_saved_names :
    let catalog : Catalog (Assoc Text × Store.Outage) :=
      ⟨Store.memory.withOutage,defaultKey,defaultSeeds⟩
    let outage : Store.Outage := ⟨some (.foreign .storage "busy"),none,none⟩
    let saved : Assoc Text := [(defaultKey,"[\"Mine\"]")]
    let mine : Finset Text := List.toFinset ["Mine"]
    let added := savedNames? ((catalog.add "New" (saved,outage)).world.1.get? defaultKey)
    let deleted := savedNames? ((catalog.delete "Smoke" (saved,outage)).world.1.get? defaultKey)
    outage.IsTransient ∧ savedNames? (saved.get? defaultKey) = some mine ∧
      ¬(added = some mine ∨ added = some (insert (Text.ofString "New").trim mine)) ∧
      ¬(deleted = some mine ∨ deleted = some (mine.erase "Smoke")) := by
  intro catalog outage saved mine added deleted
  refine ⟨?_,?_,?_,?_⟩
  · decide
  · decide +kernel
  · decide +kernel
  · decide +kernel

end Catalog

end CategorySelection
