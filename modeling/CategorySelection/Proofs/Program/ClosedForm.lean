import CategorySelection.Proofs.Program.Ends
import CategorySelection.Proofs.Program.Launch
/-!
The closed form of the command `edit`. What it prints is told by the names and the expression alone.
-/

namespace CategorySelection

/-- What is printed of an ending: its status and its lines. -/
def shownOf (result : Except Fault Ending) : Except Fault (Nat × List Text) :=
  result.map fun ending => (ending.status, ending.lines)

namespace PlainEdit

variable {e f : PlainEdit} {d d' : Disk}

/-- Edits of good names with one line and one file fail alike, as do edits of bad names. -/
theorem fails_congr (hnamed : f.IsNamed ↔ e.IsNamed) (houtput : f.output = e.output)
    (hline : e.IsNamed → f.line = e.line)
    (hwrites : ∀ p, e.output = some p → (d'.CanWrite p e.bytes ↔ d.CanWrite p e.bytes)) :
    f.Fails d' ↔ e.Fails d := by
  by_cases hgood : e.IsNamed
  · have hbytes : f.bytes = e.bytes := congrArg Session.lineBytes (hline hgood)
    rw [Fails, Fails, hnamed, houtput, hbytes]
    refine or_congr_right (exists_congr fun p => and_congr_right fun hp => ?_)
    exact not_congr (hwrites p hp)
  · exact iff_of_true (Or.inl (mt hnamed.mp hgood)) (Or.inl hgood)

namespace Ends

variable {after after' : Disk} {result result' : Except Fault Ending}

/-- An edit with a bad name is refused before anything is written. -/
theorem of_not_named (h : e.Ends d result after) (hnamed : ¬e.IsNamed) :
    (∃ why, result = .ok (.refused why)) ∧ after = d := by
  rw [IsNamed] at hnamed
  push Not at hnamed
  obtain ⟨name,hname,hinvalid⟩ := hnamed
  cases hbad : (e.includes ++ e.excludes).find? (!Category.isName ·) with
  | none =>
    have hgood := List.find?_eq_none.mp hbad name hname
    rw [Bool.not_eq_true', Bool.not_eq_false] at hgood
    exact absurd hgood hinvalid
  | some bad =>
    obtain ⟨hresult,hafter⟩ := h.misnamed bad hbad
    exact ⟨⟨_,hresult⟩,hafter⟩

theorem of_fails (h : e.Ends d result after) (hfails : e.Fails d) :
    ∃ why, result = .ok (.refused why) := by
  by_cases hnamed : e.IsNamed
  case neg => exact (h.of_not_named hnamed).1
  obtain ⟨p,houtput,hwrite⟩ := hfails.resolve_left (not_not_intro hnamed)
  by_cases hopen : d.CanOpen p
  · have hroom : d.hasRoom e.bytes = false := by
      rw [← Bool.not_eq_true]
      exact fun hroom => hwrite ⟨hopen,hroom⟩
    obtain ⟨why,hresult,_⟩ := h.unfinished hnamed p houtput hopen hroom
    exact ⟨_,hresult⟩
  · obtain ⟨why,hrefused⟩ := Disk.openEmpty_of_not_canOpen hopen
    exact ⟨_,(h.unopenable hnamed p why houtput hrefused).1⟩

theorem of_not_fails (h : e.Ends d result after) (hfails : ¬e.Fails d) :
    result = .ok { lines := [e.line] } := by
  rw [Fails, not_or, not_not] at hfails
  obtain ⟨hnamed,hwrites⟩ := hfails
  cases houtput : e.output with
  | none => exact (h.shown hnamed houtput).1
  | some p =>
    have hwrite : d.CanWrite p e.bytes := by
      by_contra hno
      exact hwrites ⟨p,houtput,hno⟩
    exact (h.written hnamed p houtput hwrite).1

/-- Edits that fail alike and have one line are shown alike; the complaints may differ. -/
theorem same (h : e.Ends d result after) (hf : f.Ends d' result' after')
    (hfails : f.Fails d' ↔ e.Fails d) (hline : e.IsNamed → f.line = e.line) :
    shownOf result' = shownOf result := by
  by_cases hbad : e.Fails d
  · obtain ⟨why,rfl⟩ := h.of_fails hbad
    obtain ⟨why',rfl⟩ := hf.of_fails (hfails.mpr hbad)
    rfl
  · have hnamed : e.IsNamed := not_not.mp fun hno => hbad (Or.inl hno)
    rw [h.of_not_fails hbad, hf.of_not_fails (mt hfails.mp hbad), hline hnamed]

/-- A run of an edit reports status 1 and prints nothing if the edit fails, and else it reports
status 0 and prints the line. -/
theorem reported {o : Outcome Program.World Ending} (h : e.Ends d o.result after) (before : Text)
    (shown : List Log.Record → Text) :
    let r := (Program.report before shown o).1
    ((r.result = .ok 1 ∧ r.printed = []) ↔ e.Fails d) ∧
      ((r.result = .ok 0 ∧ r.printed = e.line ++ [0x0a]) ↔ ¬e.Fails d) := by
  intro r
  by_cases hbad : e.Fails d
  · obtain ⟨why,hresult⟩ := h.of_fails hbad
    obtain ⟨hstatus,hprinted,_⟩ := Program.report_of_ok before shown hresult
    refine ⟨iff_of_true ⟨hstatus,hprinted⟩ hbad,iff_of_false ?_ (not_not_intro hbad)⟩
    rintro ⟨hzero,_⟩
    cases hstatus.symm.trans hzero
  · obtain ⟨hstatus,hprinted,_⟩ := Program.report_of_ok before shown (h.of_not_fails hbad)
    refine ⟨iff_of_false ?_ hbad,
      iff_of_true ⟨hstatus,hprinted.trans (List.flatMap_singleton _ _)⟩ hbad⟩
    rintro ⟨hone,_⟩
    cases hstatus.symm.trans hone

end Ends

end PlainEdit

theorem PlainEdit.Same.isNamed_iff {e f : PlainEdit} (h : e.Same f) : f.IsNamed ↔ e.IsNamed := by
  simp only [PlainEdit.IsNamed, List.mem_append, h.includes, h.excludes]

namespace Program

open Store.File

/-- The command `edit` computes a closed form. Over every catalog that can be loaded, and with a
file whose path the system can take, as it can each path of an argument, an edit ends with status 1
and prints nothing if one of the names that it switches is bad or its file cannot be written, where
a bad name leaves the disk as loading left it; else it ends with status 0 and prints its line, which
reads as the marks that it leaves, and the file holds the same line. What is printed depends neither
on the catalog nor on the order and number of the names, and doing the edit to its line once more
prints the line. A catalog in a file leaves alone what is apart from its files. -/
theorem edit_closed_form {store : Store Disk} {key : Text} {seeds : List Text} {d₀ : Disk}
    {catalog : Catalog Disk} (hmake : (Catalog.make store key seeds d₀).result = .ok catalog)
    {d d' : Disk} {known : List Text} {log : List Log.Record}
    (hload : catalog.load d = ⟨.ok known,d',log⟩) {e : PlainEdit}
    (htakable : ∀ p, e.output = some p → Disk.checkPath p = .ok ()) (n : Nat) :
    let o := edit catalog e.toEdit (n, d)
    e.Ends d' o.result o.world.2 ∧
    (∀ before shown, let r := (report before shown o).1
      ((r.result = .ok 1 ∧ r.printed = []) ↔ e.Fails d') ∧
        ((r.result = .ok 0 ∧ r.printed = e.line ++ [0x0a]) ↔ ¬e.Fails d')) ∧
    (e.IsNamed → ∀ name,
      Assoc.get? name (Expression.parse e.line) = (some (e.mark name)).filter (· ≠ .neutral)) ∧
    (∀ (store₁ : Store Disk) (key₁ : Text) (seeds₁ : List Text) (d₁ : Disk)
      (catalog₁ : Catalog Disk), (Catalog.make store₁ key₁ seeds₁ d₁).result = .ok catalog₁ →
      ∀ (c c' : Disk) (known₁ : List Text) (log₁ : List Log.Record),
      catalog₁.load c = ⟨.ok known₁,c',log₁⟩ →
      (∀ p, e.output = some p → (c'.CanWrite p e.bytes ↔ d'.CanWrite p e.bytes)) →
      ∀ (f : PlainEdit) (m : Nat), e.Same f ∨ f = e.again →
        shownOf (edit catalog₁ f.toEdit (m, c)).result = shownOf o.result) ∧
    ∀ options l, store = Store.file options → IsApart options.path l d → Disk.Spares l d d' := by
  intro o
  rw [Catalog.make_apply] at hmake
  obtain rfl := Except.ok.inj hmake
  have hnamed (seeds : List Text) : Catalog.AllNamed (seeds.filter Category.isName) :=
    fun _ h => (List.mem_filter.mp h).2
  have hends : e.Ends d' o.result o.world.2 := ends_edit (hnamed seeds) hload htakable n
  refine ⟨hends,hends.reported,PlainEdit.get?_parse_line,?_,?_⟩
  · intro store₁ key₁ seeds₁ d₁ catalog₁ hmake₁ c c' known₁ log₁ hload₁ hwrites f m hf
    rw [Catalog.make_apply] at hmake₁
    obtain rfl := Except.ok.inj hmake₁
    have halike : (f.IsNamed ↔ e.IsNamed) ∧ f.output = e.output ∧
        (e.IsNamed → f.line = e.line) := by
      rcases hf with hsame | rfl
      · exact ⟨hsame.isNamed_iff,hsame.output.symm,fun _ => hsame.line_eq.symm⟩
      · exact ⟨Iff.rfl,rfl,PlainEdit.line_again⟩
    obtain ⟨hiff,houtput,hline⟩ := halike
    have hends₁ := ends_edit (hnamed seeds₁) hload₁ (fun p hp => htakable p (houtput ▸ hp)) m
    exact hends.same hends₁ (PlainEdit.fails_congr hiff houtput hline hwrites) hline
  · rintro options l rfl hapart
    have hspares := Catalog.spares_load hapart key (seeds.filter Category.isName)
    rwa [hload] at hspares

/-- A file of another name beside the only file is apart from the files of a store there. -/
theorem isApart_onlyPath : IsApart onlyPath #[Text.ofString "out"] (onlyFile []) := by
  refine ⟨by decide,by decide,fun n h => ?_⟩
  have hlong := length_temporaryName onlyPath n
  rw [Disk.target_sibling, Disk.step] at h
  split_ifs at h
  · cases h
  · have hpush : (#[] : Array Text).push (Text.ofString "out") =
        (#[] : Array Text).push (temporaryName onlyPath n) := h
    rw [← Array.push_inj_right.mp hpush] at hlong
    exact absurd hlong (by decide)

/-- Clearing `C` goes before including it, and excluding `A` before what the expression gives. -/
theorem edit_closed_form_written :
    let catalog : Catalog Disk := ⟨Store.file ⟨onlyPath, .ofInt 5⟩, "k", ["A"]⟩
    let output : Path := Path.ofText "out"
    let e : PlainEdit :=
      { expression := "Category=A&Category!=C", includes := ["B", "C", "B"], excludes := ["A"],
        clears := ["C"]
        output := some output }
    let o := edit catalog e.toEdit (0, onlyFile [])
    ∃ d' log, catalog.load (onlyFile []) = ⟨.ok ["A"],d',log⟩ ∧
      (report [] bare o).1.result = .ok 0 ∧
      (report [] bare o).1.printed = "Category=B&Category!=A\n" ∧
      o.world.2.readText output = .ok "Category=B&Category!=A\n" ∧
      Disk.Spares #[Text.ofString "out"] (onlyFile []) d' := by
  intro catalog output e o
  have hresult : (catalog.load (onlyFile [])).result = .ok ["A"] := by decide +kernel
  have hload : catalog.load (onlyFile []) =
      ⟨.ok ["A"],(catalog.load (onlyFile [])).world,(catalog.load (onlyFile [])).log⟩ := by
    rw [← hresult]
  have hnamed : e.IsNamed := by
    change ∀ name ∈ ([[0x42], [0x43], [0x42], [0x41]] : List Text), Category.isName name = true
    exact List.all_eq_true.mp (by decide)
  have hline : e.line = "Category=B&Category!=A" := by decide +kernel
  have hmake : (Catalog.make (Store.file ⟨onlyPath, .ofInt 5⟩) "k" ["A"] (onlyFile [])).result =
      .ok catalog := rfl
  have htakable (p : Path) (hp : e.output = some p) : Disk.checkPath p = .ok () := by
    obtain rfl := Option.some_inj.mp hp
    exact Disk.checkPath_ofText (List.all_eq_true.mp (by decide))
  obtain ⟨hends,hreported,_,_,hspares⟩ := edit_closed_form hmake hload htakable 0
  have hopens : ((catalog.load (onlyFile [])).world.openEmpty output).isOk = true := by
    decide +kernel
  have hwrite : (catalog.load (onlyFile [])).world.CanWrite output e.bytes := by
    rcases hopen : (catalog.load (onlyFile [])).world.openEmpty output with _ | ⟨l,d'⟩ <;>
      rw [hopen] at hopens
    · cases hopens
    · exact ⟨Disk.canOpen_of_openEmpty hopen,Disk.hasRoom_of_room (by decide +kernel) e.bytes⟩
  have hfine : ¬e.Fails (catalog.load (onlyFile [])).world := by
    rintro (hbad | ⟨p,hp,hno⟩)
    · exact hbad hnamed
    · obtain rfl := Option.some_inj.mp hp
      exact hno hwrite
  obtain ⟨_,_,hread⟩ := hends.written hnamed output rfl hwrite
  obtain ⟨hstatus,hprinted⟩ := (hreported [] bare).2.mpr hfine
  rw [hline] at hread hprinted
  exact ⟨_,_,hload,hstatus,hprinted,hread,hspares _ _ rfl isApart_onlyPath⟩

end Program

end CategorySelection
