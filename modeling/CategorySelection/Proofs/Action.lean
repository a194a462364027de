import CategorySelection.Action
/-!
Running actions. Each primitive action is given by what it ends with, and a sequence by what its
first action ends with.
-/

namespace CategorySelection.Action

variable {σ τ α β : Type}

/-- A first step that fails ends the whole; else the second step goes on from what the first one
left. -/
theorem bind_apply (x : Action σ α) (f : α → Action σ β) (s : σ) :
    (x >>= f) s = match x s with
      | ⟨.error e, s, log⟩ => ⟨.error e, s, log⟩
      | ⟨.ok a, s, log⟩ => ⟨(f a s).result, (f a s).world, log ++ (f a s).log⟩ := rfl

/-- A step that ends well hands its value and its world on, and its log stands before that of the
rest. -/
theorem bind_of_ok {x : Action σ α} {s t : σ} {a : α} {log : List Log.Record}
    (h : x s = ⟨.ok a, t, log⟩) (f : α → Action σ β) :
    (x >>= f) s = ⟨(f a t).result, (f a t).world, log ++ (f a t).log⟩ := by
  rw [bind_apply, h]

/-- An action that gives a value ends with it, in its world and with its log. -/
theorem apply_of_result {x : Action σ α} {s : σ} {a : α} (h : (x s).result = .ok a) :
    x s = ⟨.ok a, (x s).world, (x s).log⟩ := by
  rw [← h]

@[simp] theorem pure_apply (a : α) (s : σ) : (pure a : Action σ α) s = ⟨.ok a, s, []⟩ := rfl

@[simp] theorem ofExcept_apply (r : Except Fault α) (s : σ) : ofExcept r s = ⟨r, s, []⟩ := rfl

@[simp] theorem world_apply (s : σ) : world s = ⟨.ok s, s, []⟩ := rfl

@[simp] theorem setWorld_apply (s t : σ) : setWorld t s = ⟨.ok (), t, []⟩ := rfl

@[simp] theorem change_apply (f : σ → σ) (s : σ) : change f s = ⟨.ok (), f s, []⟩ := rfl

@[simp] theorem write_apply (records : List Log.Record) (s : σ) :
    write records s = ⟨.ok (), s, records⟩ := rfl

@[simp] theorem record_apply (r : Log.Record) (s : σ) : record r s = ⟨.ok (), s, [r]⟩ := rfl

@[simp] theorem fail_apply (e : Fault) (s : σ) : (fail e : Action σ α) s = ⟨.error e, s, []⟩ := rfl

@[simp] theorem attempt_apply (x : Action σ α) (s : σ) :
    x.attempt s = ⟨.ok (x s).result, (x s).world, (x s).log⟩ := rfl

@[simp] theorem onFirst_apply (x : Action σ α) (w : σ × τ) :
    x.onFirst w = ⟨(x w.1).result, ((x w.1).world, w.2), (x w.1).log⟩ := rfl

@[simp] theorem onSecond_apply (x : Action τ α) (w : σ × τ) :
    x.onSecond w = ⟨(x w.2).result, (w.1, (x w.2).world), (x w.2).log⟩ := rfl

theorem rescue_of_ok {caught : Fault → Bool} {x : Action σ α}
    {handler : Fault → Action σ α} {s t : σ} {a : α} {log : List Log.Record}
    (h : x s = ⟨.ok a, t, log⟩) :
    x.rescue caught handler s = ⟨.ok a, t, log⟩ := by
  have hattempt : x.attempt s = ⟨.ok (.ok a), t, log⟩ := by rw [attempt_apply, h]
  rw [rescue, bind_of_ok hattempt]
  simp only [pure_apply, List.append_nil]

/-- A fault that is caught is handed to the handler, with what the action did before it. -/
theorem rescue_of_error {caught : Fault → Bool} {x : Action σ α} {handler : Fault → Action σ α}
    {s t : σ} {e : Fault} {log : List Log.Record} (h : x s = ⟨.error e, t, log⟩)
    (hc : caught e = true) :
    x.rescue caught handler s =
      ⟨(handler e t).result, (handler e t).world, log ++ (handler e t).log⟩ := by
  have hattempt : x.attempt s = ⟨.ok (.error e), t, log⟩ := by rw [attempt_apply, h]
  rw [rescue, bind_of_ok hattempt]
  simp only [hc, ↓reduceIte]

/-- A fault that is not caught ends the whole. -/
theorem rescue_of_uncaught {caught : Fault → Bool} {x : Action σ α} {handler : Fault → Action σ α}
    {s : σ} {e : Fault} (h : (x s).result = .error e) (hc : caught e = false) :
    (x.rescue caught handler s).result = .error e := by
  rw [rescue, bind_apply, attempt_apply, h]
  simp only [hc, Bool.false_eq_true, ↓reduceIte, fail_apply]

/-- Renaming what an action gives has no effect on the world. -/
theorem world_bind_pure (x : Action σ α) (f : α → β) (s : σ) :
    ((x >>= fun a => pure (f a)) s).world = (x s).world := by
  rw [bind_apply]
  rcases x s with ⟨_ | _,s,log⟩ <;> rfl

theorem result_bind_pure (x : Action σ α) (f : α → β) (s : σ) :
    ((x >>= fun a => pure (f a)) s).result = (x s).result.map f := by
  rw [bind_apply]
  rcases x s with ⟨_ | _,s,log⟩ <;> rfl

theorem log_bind_pure (x : Action σ α) (f : α → β) (s : σ) :
    ((x >>= fun a => pure (f a)) s).log = (x s).log := by
  rw [bind_apply]
  rcases x s with ⟨_ | _,s,log⟩
  · rfl
  · exact List.append_nil log

theorem isOk_bind_pure (x : Action σ α) (f : α → β) (s : σ) :
    ((x >>= fun a => pure (f a)) s).result.isOk = (x s).result.isOk := by
  rw [bind_apply]
  rcases x s with ⟨_ | _,s,log⟩ <;> rfl

end CategorySelection.Action
