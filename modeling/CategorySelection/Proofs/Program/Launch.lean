import CategorySelection.Program.Run
import CategorySelection.Proofs.Catalog.Saved
/-!
Setting the program up. The settings are read and nothing is changed for them, and the catalog that
they name is over the file that they name.
-/

namespace CategorySelection

open Catalog Store

namespace Action

variable {σ α β : Type}

def IsReading (x : Action σ α) : Prop := ∀ s, (x s).world = s

namespace IsReading

variable {x : Action σ α}

theorem pure (a : α) : IsReading (pure a : Action σ α) := fun _ => rfl

theorem ofExcept (r : Except Fault α) : IsReading (ofExcept r : Action σ α) := fun _ => rfl

theorem world : IsReading (world : Action σ σ) := fun _ => rfl

theorem write (records : List Log.Record) :
    IsReading (write records : Action σ Unit) := fun _ => rfl

/-- Two steps that leave the world as it is do so together. -/
theorem bind {f : α → Action σ β} (hx : x.IsReading) (hf : ∀ a, (f a).IsReading) :
    IsReading (x >>= f) := by
  intro s
  have hs := hx s
  rw [bind_apply]
  rcases hrun : x s with ⟨_ | a,t,log⟩ <;> rw [hrun] at hs
  · exact hs
  · exact (hf a t).trans hs

end IsReading

end Action

theorem Settings.isReading_withFile (environment : Assoc Text) (file : Path) :
    (withFile environment file).IsReading := by
  refine .bind (.ofExcept _) fun _ => .bind .world fun d => ?_
  split
  · exact .bind (.ofExcept _) fun t => .bind (.write _) fun _ => .ofExcept _
  · exact .pure _

/-- The variables are read one after the other, and each that is refused is noted. -/
theorem Settings.isReading_read {σ : Type} (homes : Homes) (environment : Assoc Text) :
    (read homes environment : Action σ Settings).IsReading := by
  have hnoted {α : Type} (n : Noted α) :
      Action.IsReading (do Action.write n.records; return n.value : Action σ α) :=
    .bind (.write _) fun _ => .pure _
  refine .bind (.ofExcept _) fun _ => ?_
  iterate 6 refine .bind (hnoted _) fun _ => ?_
  exact .pure _

theorem Settings.isReading_load (homes : Homes) (environment : Assoc Text) (file : Option Path) :
    (load homes environment file).IsReading := by
  have hread (environment : Assoc Text) :
      (read homes environment : Action Disk Settings).IsReading :=
    isReading_read homes environment
  cases file with
  | none => exact .bind (.pure environment) hread
  | some file =>
    unfold Settings.load
    dsimp only
    split
    · exact .bind (.pure environment) hread
    · exact .bind (isReading_withFile environment file) hread

theorem Launch.isReading_settings (around : Surroundings) (i : Invocation) :
    (settings around i).IsReading := .bind (Settings.isReading_load _ _ _) fun _ => .pure _

theorem Catalog.isName_of_mem_defaultSeeds : ∀ name ∈ defaultSeeds, Category.isName name = true :=
  List.all_eq_true.mp (by decide)

/-- The default names are all good, so none of them is left out. -/
theorem Launch.catalog_apply (s : Settings) (d : Disk) :
    ∃ log, catalog s d = ⟨.ok ⟨file ⟨s.storagePath,s.lockTimeout⟩,s.storageKey,defaultSeeds⟩,d,
      log⟩ := by
  have hseeds : defaultSeeds.filter Category.isName = defaultSeeds :=
    List.filter_eq_self.mpr Catalog.isName_of_mem_defaultSeeds
  rw [catalog, Action.bind_apply, Action.record_apply]
  dsimp only
  rw [Catalog.make_apply, hseeds]
  exact ⟨_,rfl⟩

/-- A command that ends prints its lines, each with a line feed behind it. -/
theorem Program.report_of_ok (before : Text) (shown : List Log.Record → Text)
    {o : Outcome World Ending} {ending : Ending} (h : o.result = .ok ending) :
    (report before shown o).1.result = .ok ending.status ∧
      (report before shown o).1.printed = ending.lines.flatMap (· ++ [0x0a]) ∧
      (report before shown o).2 = o.world := by
  rw [report, h]
  exact ⟨rfl,rfl,rfl⟩

end CategorySelection
