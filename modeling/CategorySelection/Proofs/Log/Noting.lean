import CategorySelection.Proofs.Action
import CategorySelection.Proofs.Log.OneLine
import CategorySelection.Store
/-!
What actions note. That an action keeps to usable worlds and notes only records of some kind is
carried over a sequence from its parts. The stores whose records are tidy are those in which a
catalog can be kept.
-/

namespace CategorySelection

/-- An outcome that leaves a usable world, whose records are all fine, and whose value is as
told. -/
structure Outcome.Notes {σ α : Type} (usable : σ → Prop) (fine : Log.Record → Prop)
    (told : α → Prop) (o : Outcome σ α) : Prop where
  world : usable o.world
  log : ∀ r ∈ o.log, fine r
  value : ∀ a, o.result = .ok a → told a

namespace Outcome.Notes

variable {σ τ α β : Type} {usable : σ → Prop} {fine : Log.Record → Prop} {told : α → Prop}
  {told' : β → Prop} {s : σ}

theorem mono {fine' : Log.Record → Prop} {o : Outcome σ α} (h : o.Notes usable fine told)
    (hfine : ∀ r, fine r → fine' r) : o.Notes usable fine' told :=
  ⟨h.world,fun r hr => hfine r (h.log r hr),h.value⟩

theorem silent {o : Outcome σ α} (hs : usable o.world) (hlog : o.log = []) :
    o.Notes usable fine fun _ => True := by
  refine ⟨hs,?_,fun _ _ => trivial⟩
  rw [hlog]
  exact List.forall_mem_nil _

/-- What is told of the value may rest on where it comes from. -/
theorem returned {o : Outcome σ α} (h : o.Notes usable fine told) :
    o.Notes usable fine fun a => o.result = .ok a ∧ told a :=
  ⟨h.world,h.log,fun a ha => ⟨ha,h.value a ha⟩⟩

theorem pure {a : α} (hs : usable s) (ha : told a) :
    ((Pure.pure a : Action σ α) s).Notes usable fine told := by
  refine ⟨hs,List.forall_mem_nil _,fun b hb => ?_⟩
  rwa [← Except.ok.inj hb]

theorem fail (e : Fault) (hs : usable s) :
    ((Action.fail e : Action σ α) s).Notes usable fine told :=
  ⟨hs,List.forall_mem_nil _,nofun⟩

theorem ofExcept {r : Except Fault α} (hs : usable s) (hr : ∀ a, r = .ok a → told a) :
    (Action.ofExcept r s).Notes usable fine told :=
  ⟨hs,List.forall_mem_nil _,hr⟩

theorem world_eq (hs : usable s) : (Action.world s).Notes usable fine (· = s) :=
  ⟨hs,List.forall_mem_nil _,fun _ ha => (Except.ok.inj ha).symm⟩

theorem setWorld {t : σ} (ht : usable t) : (Action.setWorld t s).Notes usable fine fun _ => True :=
  ⟨ht,List.forall_mem_nil _,fun _ _ => trivial⟩

theorem write {records : List Log.Record} (hs : usable s) (hr : ∀ r ∈ records, fine r) :
    (Action.write records s).Notes usable fine fun _ => True :=
  ⟨hs,hr,fun _ _ => trivial⟩

theorem record {r : Log.Record} (hs : usable s) (hr : fine r) :
    (Action.record r s).Notes usable fine fun _ => True :=
  write hs (List.forall_mem_singleton.mpr hr)

/-- The records of a sequence are those of its first part, and those of the second one if the first
returns. -/
theorem bind {x : Action σ α} {f : α → Action σ β} (hx : (x s).Notes usable fine told)
    (hf : ∀ a t, told a → usable t → (f a t).Notes usable fine told') :
    ((x >>= f) s).Notes usable fine told' := by
  rw [Action.bind_apply]
  rcases hout : x s with ⟨e | a,t,log⟩ <;> rw [hout] at hx
  · exact ⟨hx.world,hx.log,nofun⟩
  · have hrest := hf a t (hx.value a rfl) hx.world
    exact ⟨hrest.world,List.forall_mem_append.mpr ⟨hx.log,hrest.log⟩,hrest.value⟩

theorem map {x : Action σ α} {f : α → β} (hx : (x s).Notes usable fine told)
    (hf : ∀ a, told a → told' (f a)) :
    ((x >>= fun a => Pure.pure (f a)) s).Notes usable fine told' :=
  hx.bind fun a _ ha ht => .pure ht (hf a ha)

theorem attempt {x : Action σ α} (hx : (x s).Notes usable fine told) :
    (x.attempt s).Notes usable fine (· = (x s).result) :=
  ⟨hx.world,hx.log,fun _ hresult => (Except.ok.inj hresult).symm⟩

/-- What is rescued notes only what is fine, if the rescue does. -/
theorem rescue {x : Action σ α} {caught : Fault → Bool} {handler : Fault → Action σ α}
    (hx : (x s).Notes usable fine told)
    (hh : ∀ e t, usable t → (handler e t).Notes usable fine told) :
    (x.rescue caught handler s).Notes usable fine told := by
  refine hx.attempt.bind fun result t hresult ht => ?_
  cases result with
  | ok a => exact .pure ht (hx.value a hresult.symm)
  | error e =>
    dsimp only
    split_ifs
    · exact hh e t ht
    · exact .fail e ht

/-- On a part of the world an action notes what it notes there. -/
theorem onPart {part : τ → σ} {replace : σ → τ → τ} {usable' : τ → Prop} {x : Action σ α} {t : τ}
    (hx : (x (part t)).Notes usable fine told) (hw : ∀ s, usable s → usable' (replace s t)) :
    (x.onPart part replace t).Notes usable' fine told :=
  ⟨hw _ hx.world,hx.log,hx.value⟩

end Outcome.Notes

/-- A store in which a catalog can be kept: what it notes is tidy, and so are the messages of the
faults with which it gives no entry for the moment. -/
structure Store.IsTidy {σ : Type} (store : Store σ) (key : Text) (usable : σ → Prop) : Prop where
  get : ∀ w, usable w → (store.get key w).Notes usable Log.Record.IsTidy fun _ => True
  message : ∀ w e, usable w → (store.get key w).result = .error e → e.kind.isUnavailable = true →
    e.message.IsOneLine
  set : ∀ value w, usable w → (store.set key value w).Notes usable Log.Record.IsTidy fun _ => True
  remove : ∀ w, usable w → (store.remove key w).Notes usable Log.Record.IsTidy fun _ => True

end CategorySelection
