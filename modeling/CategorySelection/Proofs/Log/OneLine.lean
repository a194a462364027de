import CategorySelection.Proofs.Expression.Canonical
import CategorySelection.Proofs.Log.Programs
/-!
Log lines for people. A record is written on one line just if no text that it carries has a code
point in it which ends a line. Quoted texts have none, whatever they quote, and neither have the
names of categories, numbers and times.
-/

namespace CategorySelection

/-- The code points that end a line: the ASCII controls from line feed to carriage return and the
three separators of files, groups and records, the next-line control and the two separators of
Unicode. -/
def CodePoint.endsLine (c : CodePoint) : Bool :=
  c.isBetween 0x0a 0x0d || c.isBetween 0x1c 0x1e || c == 0x85 || c == 0x2028 || c == 0x2029

def Text.IsOneLine (t : Text) : Prop := ∀ c ∈ t, c.endsLine = false

instance (t : Text) : Decidable t.IsOneLine :=
  inferInstanceAs (Decidable (∀ c ∈ t, c.endsLine = false))

namespace CodePoint

theorem endsLine_of_isPlain {c : CodePoint} (h : c.isPlain = true) : c.endsLine = false := by
  simp only [isPlain, isBetween, Bool.and_eq_true, decide_eq_true_eq] at h
  simp only [endsLine, isBetween, Bool.or_eq_false_iff, Bool.and_eq_false_iff,
    decide_eq_false_iff_not, beq_eq_false_iff_ne, ne_eq, Fin.ext_iff]
  omega

set_option maxRecDepth 4000 in
/-- Nothing that is printable ends a line. Behind ASCII a table of ranges is searched. -/
theorem endsLine_of_isPrintable {c : CodePoint} (h : c.isPrintable = true) :
    c.endsLine = false := by
  by_contra hends
  simp only [Bool.not_eq_false, endsLine, isBetween, Bool.or_eq_true, Bool.and_eq_true,
    decide_eq_true_eq, beq_iff_eq] at hends
  by_cases hascii : c.val < 0x7f
  · rw [isPrintable, if_pos hascii, decide_eq_true_eq] at h
    simp only [Fin.ext_iff] at hends
    omega
  · have hseparator : c = 0x85 ∨ c = 0x2028 ∨ c = 0x2029 := by
      simp only [Fin.ext_iff] at hends ⊢
      omega
    rcases hseparator with rfl | rfl | rfl
    · exact absurd h (by decide +kernel)
    · exact absurd h (by decide +kernel)
    · exact absurd h (by decide +kernel)

end CodePoint

namespace Text

variable {t u : Text}

theorem IsPlain.isOneLine (h : t.IsPlain) :
    t.IsOneLine := fun c hc => CodePoint.endsLine_of_isPlain (h c hc)

theorem IsPlain.of_isName (h : Category.isName t = true) : t.IsPlain := by
  intro c hc
  have hname := ((Expression.isName_iff t).mp h).2 c hc
  simp only [Category.isNameChar, CodePoint.isAsciiLetter, CodePoint.isAsciiDigit,
    CodePoint.isPlain, CodePoint.isBetween, Bool.or_eq_true, Bool.and_eq_true,
    decide_eq_true_eq] at hname ⊢
  omega

theorem IsPlain.ofHex (width n : Nat) : (Text.ofHex width n).IsPlain := by
  induction width generalizing n with
  | zero => exact List.forall_mem_nil _
  | succ width ih =>
    exact (ih (n/16)).append (List.forall_mem_singleton.mpr (Json.isPlain_ofHexDigit n))

theorem IsPlain.ofNat (n : Nat) : (Text.ofNat n).IsPlain := .of_digits (isAsciiDigit_of_mem_ofNat n)

theorem IsPlain.ofInt (n : Int) : (Text.ofInt n).IsPlain := by
  cases n with
  | ofNat n => exact .ofNat n
  | negSucc n => exact .cons rfl (.ofNat (n+1))

namespace IsOneLine

theorem nil : IsOneLine [] := List.forall_mem_nil _

theorem of_all (h : t.all CodePoint.isPlain = true) : t.IsOneLine := (IsPlain.of_all h).isOneLine

theorem of_isName (h : Category.isName t = true) : t.IsOneLine := (IsPlain.of_isName h).isOneLine

/-- A text with the end of a line in it is not one line. -/
theorem not_of_mem {c : CodePoint} (hc : c ∈ t) (hends : c.endsLine = true) : ¬t.IsOneLine := by
  intro h
  rw [h c hc] at hends
  cases hends

/-- Two texts one after the other are one line just if both are. -/
theorem append_iff : IsOneLine (t ++ u) ↔ t.IsOneLine ∧ u.IsOneLine := List.forall_mem_append

theorem append (ht : t.IsOneLine) (hu : u.IsOneLine) : IsOneLine (t ++ u) := append_iff.mpr ⟨ht,hu⟩

theorem join_iff {separator : Text} {parts : List Text} (hs : separator.IsOneLine) :
    (Text.join separator parts).IsOneLine ↔ ∀ part ∈ parts, IsOneLine part := by
  constructor
  · exact fun h part hpart c hc => h c (mem_join_of_mem hpart hc)
  · intro h c hc
    rcases mem_join hc with hc | ⟨part,hpart,hc⟩
    · exact hs c hc
    · exact h part hpart c hc

end IsOneLine

end Text

section Quoted

/-- Between quotes every code point is on one line: what is kept is a quote, a backslash or
printable, and the others are spelled in hexadecimal digits. -/
theorem CodePoint.isOneLine_quoted {quote : CodePoint} (hq : quote.endsLine = false)
    (c : CodePoint) :
    (CodePoint.quoted quote c).IsOneLine := by
  have hhex (width n : Nat) : (Text.ofHex width n).IsOneLine :=
    (Text.IsPlain.ofHex width n).isOneLine
  have hescape (mark : Text) (hm : mark.all isPlain = true) (width : Nat) :
      Text.IsOneLine (mark ++ Text.ofHex width c.val) :=
      (Text.IsOneLine.of_all hm).append (hhex width _)
  rw [CodePoint.quoted]
  split_ifs with hspecial _ _ _ hprintable
  · have hc : c.endsLine = false := by
      rcases hspecial with rfl | rfl
      · exact hq
      · rfl
    exact List.forall_mem_cons.mpr ⟨rfl,List.forall_mem_singleton.mpr hc⟩
  · exact Text.IsOneLine.of_all rfl
  · exact Text.IsOneLine.of_all rfl
  · exact Text.IsOneLine.of_all rfl
  · exact List.forall_mem_singleton.mpr (endsLine_of_isPrintable hprintable)
  · exact hescape "\\x" rfl 2
  · exact hescape "\\u" rfl 4
  · exact hescape "\\U" rfl 8

namespace Text

theorem isOneLine_quoted (t : Text) : t.quoted.IsOneLine := by
  have hquote : t.quoteOf.endsLine = false := by
    rw [quoteOf]
    split_ifs <;> rfl
  have hshown : IsOneLine (t.flatMap (CodePoint.quoted t.quoteOf)) := by
    intro d hd
    obtain ⟨c,_,hc⟩ := List.mem_flatMap.mp hd
    exact CodePoint.isOneLine_quoted hquote c d hc
  exact .append (List.forall_mem_cons.mpr ⟨hquote,hshown⟩) (List.forall_mem_singleton.mpr hquote)

theorem isOneLine_quotedList (ts : List Text) : (quotedList ts).IsOneLine := by
  have hjoined : (Text.join ", " (ts.map quoted)).IsOneLine :=
    (IsOneLine.join_iff (.of_all rfl)).mpr (List.forall_mem_map.mpr fun t _ => t.isOneLine_quoted)
  exact .append (.append (.of_all rfl) hjoined) (.of_all rfl)

end Text

end Quoted

section Messages

theorem Json.isOneLine_kindName (value : Json) : value.kindName.IsOneLine := by
  cases value <;> exact .of_all rfl

theorem Json.ReadFault.isOneLine_message (e : Json.ReadFault) : e.message.IsOneLine := by
  have hdigits (n : Nat) : (Text.ofNat n).IsOneLine := (Text.IsPlain.ofNat n).isOneLine
  cases e with
  | malformed reason line column offset =>
    have hreason : reason.message.IsOneLine := by cases reason <;> exact .of_all rfl
    simp only [message, Text.IsOneLine.append_iff, and_assoc]
    exact ⟨hreason,.of_all rfl,hdigits line,.of_all rfl,hdigits column,.of_all rfl,
      hdigits offset,.of_all rfl⟩
  | integerTooLong digits =>
    simp only [message, Text.IsOneLine.append_iff, and_assoc]
    exact ⟨.of_all rfl,hdigits _,.of_all rfl,hdigits digits,.of_all rfl⟩
  | tooDeep inArray => cases inArray <;> exact .of_all rfl

/-- What the system complains about is told on one line, as paths stand in quotes. -/
theorem SystemFault.isOneLine_message (e : SystemFault) : e.message.IsOneLine := by
  have habout (sign : Text) (hs : sign.IsOneLine) (path : Option Text) :
      (about sign path).IsOneLine := by
    cases path with
    | none => exact .nil
    | some p => exact .append hs p.isOneLine_quoted
  have hcause : e.cause.text.IsOneLine := by cases e.cause <;> exact .of_all rfl
  simp only [message, Text.IsOneLine.append_iff, and_assoc]
  exact ⟨.of_all rfl,(Text.IsPlain.ofNat _).isOneLine,.of_all rfl,hcause,
    habout _ (.of_all rfl) e.path,habout _ (.of_all rfl) e.target⟩

theorem ReadTrouble.isOneLine_message (e : ReadTrouble) : e.message.IsOneLine := by
  cases e with
  | system e => exact e.isOneLine_message
  | bytes e =>
    have hplaces (start stop : Nat) : (Utf8.places start stop).IsOneLine := by
      rw [Utf8.places]
      split_ifs
      · exact (Text.IsPlain.ofNat start).isOneLine
      · exact (((Text.IsPlain.ofNat start).append (.of_all rfl)).append (.ofNat _)).isOneLine
    have hreason : e.reason.message.IsOneLine := by cases e.reason <;> exact .of_all rfl
    simp only [message, Utf8.DecodeFault.message, Text.IsOneLine.append_iff, and_assoc]
    refine ⟨.of_all rfl,?_,.of_all rfl,hplaces _ _,.of_all rfl,hreason⟩
    split_ifs
    · exact .append (.of_all rfl) (Text.IsPlain.ofHex 2 _).isOneLine
    · exact .of_all rfl

end Messages

namespace Moment

theorem isPlain_text (t : Moment) : t.text.IsPlain := by
  have hmillis : ((Text.ofNatPadded 6 t.micros).first 3).IsPlain :=
    fun c hc => Text.IsPlain.ofNatPadded 6 t.micros c (List.mem_of_mem_take hc)
  exact ((((t.isPlain_date (.ofInt t.year)).append (.of_all rfl)).append t.isPlain_clock).append
    (.of_all rfl)).append hmillis

end Moment

namespace Log

theorem Level.isPlain_name (level : Level) : level.name.IsPlain := by
  have hnamed : named.all (fun entry => entry.2.all CodePoint.isPlain) = true := by decide
  rw [name]
  split
  · next level' name hfind =>
      exact .of_all (List.all_eq_true.mp hnamed _ (List.mem_of_find?_eq_some hfind))
  · exact .append (.of_all rfl) (.ofInt level)

/-- The component of a logger is a part of its name, so it has no code points of its own. -/
theorem isOneLine_component {logger : Text} (h : logger.IsOneLine) :
    (Line.component logger).IsOneLine := by
  rcases (isLastPart_component logger).2 with hwhole | ⟨before,hsplit⟩
  · rwa [← hwhole]
  · rw [hsplit, Text.IsOneLine.append_iff] at h
    exact fun c hc => h.2 c (List.mem_cons_of_mem _ hc)

def Context.IsOneLine (c : Context) : Prop := ∀ entry ∈ c.entries, entry.2.display.IsOneLine

namespace Context

theorem isOneLine_ofSession (id : Text) :
    (ofSession id).IsOneLine ↔ id.IsOneLine := List.forall_mem_singleton

theorem isOneLine_ofCatalog (key : Text) :
    (ofCatalog key).IsOneLine ↔ key.IsOneLine := List.forall_mem_singleton

theorem isOneLine_ofCategory (name : Text) : (ofCategory name).IsOneLine ↔ name.IsOneLine :=
  List.forall_mem_singleton

theorem isOneLine_inSession (name id : Text) :
    ((ofCategory name).extendedBy (ofSession id)).IsOneLine ↔ id.IsOneLine ∧ name.IsOneLine :=
  List.forall_mem_cons.trans (and_congr_right' List.forall_mem_singleton)

theorem isOneLine_inCatalog (name key : Text) :
    ((ofCategory name).extendedBy (ofCatalog key)).IsOneLine ↔ name.IsOneLine ∧ key.IsOneLine :=
  List.forall_mem_cons.trans (and_congr_right' List.forall_mem_singleton)

theorem isOneLine_empty : IsOneLine {} := List.forall_mem_nil _

/-- The names of the fields are printable, so what is shown of a context is one line just if the
values are. -/
theorem isOneLine_contextText (c : Context) : (Line.contextText c).IsOneLine ↔ c.IsOneLine := by
  have hfields : fields.all (fun name => name.all CodePoint.isPlain) = true := by decide
  have hname {entry : Text × Json} (he : entry ∈ c.entries) : entry.1.IsOneLine := by
    obtain ⟨⟨name,value⟩,hpair,hvalue⟩ := List.mem_filterMap.mp he
    obtain ⟨shown,_,rfl⟩ := Option.map_eq_some_iff.mp hvalue
    exact .of_all (List.all_eq_true.mp hfields name (List.of_mem_zip hpair).1)
  rw [Line.contextText, Text.IsOneLine.append_iff, Text.IsOneLine.append_iff,
    Text.IsOneLine.join_iff (.of_all rfl), List.forall_mem_map]
  constructor
  · rintro ⟨⟨_,hjoined⟩,_⟩ entry he
    exact (Text.IsOneLine.append_iff.mp (hjoined entry he)).2
  · intro h
    refine ⟨⟨.of_all rfl,fun entry he => ?_⟩,.of_all rfl⟩
    exact .append (.append (hname he) (.of_all rfl)) (h entry he)

end Context

/-- A line is one just if its context and its message are: its first three parts are one line
whatever the record is, and so are the blanks between the parts. -/
theorem Line.isOneLine_text_iff {l : Line} (hlevel : l.level.IsOneLine)
    (hlogger : l.logger.IsOneLine) (htrouble : l.trouble = none) :
    l.text.IsOneLine ↔ l.context.IsOneLine ∧ l.message.IsOneLine := by
  have hpadded (width : Nat) {t : Text} (ht : t.IsOneLine) :
      Text.IsOneLine ("[" ++ Text.padRight width t ++ "]") := by
    have hspaces : Text.IsOneLine (Text.repeated (width - t.length) ' ') := by
      intro c hc
      rw [List.eq_of_mem_replicate hc]
      rfl
    exact .append (.append (.of_all rfl) (ht.append hspaces)) (.of_all rfl)
  have hcontext : (∀ part ∈ (if l.context.entries.isEmpty then [] else [contextText l.context]),
      Text.IsOneLine part) ↔ l.context.IsOneLine := by
    split_ifs with hempty
    · rw [Context.IsOneLine, List.isEmpty_iff.mp hempty]
      exact ⟨fun _ => List.forall_mem_nil _,fun _ => List.forall_mem_nil _⟩
    · rw [List.forall_mem_singleton, Context.isOneLine_contextText]
  have hlead : ∀ part ∈ [l.time.text, "[" ++ Text.padRight 8 l.level ++ "]",
      "[" ++ Text.padRight 10 (component l.logger) ++ "]"], Text.IsOneLine part := by
    rw [List.forall_mem_cons, List.forall_mem_cons, List.forall_mem_singleton]
    exact ⟨l.time.isPlain_text.isOneLine,hpadded 8 hlevel,hpadded 10 (isOneLine_component hlogger)⟩
  rw [text, parts, htrouble, Option.toList_none, List.append_nil,
    Text.IsOneLine.join_iff (.of_all rfl), List.forall_mem_append, List.forall_mem_append,
    List.forall_mem_singleton, hcontext]
  exact ⟨fun h => ⟨h.1.2,h.2⟩,fun h => ⟨⟨hlead,h.1⟩,h.2⟩⟩

namespace Record

def IsOneLine (r : Record) : Prop := ∀ seconds l, r.line seconds = .ok l → l.text.IsOneLine

theorem line_of_text {r : Record} {t : Text} (h : r.message = .text t) (seconds : Json) :
    r.line seconds = (Moment.ofSeconds seconds).mapError Fault.instant >>= fun time =>
      .ok ⟨time,r.level.name,r.logger,t,r.context,r.trouble⟩ := by
  rw [line, h]
  rfl

/-- A record of a text is written on one line just if its context and the text are. The time does
not matter, so that of the first second of all serves. -/
theorem isOneLine_iff {r : Record} {t : Text} (ht : r.message = .text t)
    (hlogger : r.logger.IsOneLine) (htrouble : r.trouble = none) :
    r.IsOneLine ↔ r.context.IsOneLine ∧ t.IsOneLine := by
  have htext (time : Moment) :=
    Line.isOneLine_text_iff (l := ⟨time,r.level.name,r.logger,t,r.context,r.trouble⟩)
      (Level.isPlain_name r.level).isOneLine hlogger htrouble
  constructor
  · intro h
    have hline : r.line (.int 0) = .ok ⟨⟨1970,1,1,0,0,0,0⟩,r.level.name,r.logger,t,r.context,
        r.trouble⟩ := by
      rw [line_of_text ht]
      rfl
    exact (htext _).mp (h (.int 0) _ hline)
  · intro h seconds l hl
    rw [line_of_text ht] at hl
    cases hm : (Moment.ofSeconds seconds).mapError Fault.instant with
    | error e =>
      rw [hm] at hl
      cases hl
    | ok time =>
      rw [hm] at hl
      obtain rfl := Except.ok.inj hl
      exact (htext time).mpr h

def IsTidy (r : Record) : Prop := r.trouble = none → r.IsOneLine

/-- A record that carries a fault is not asked to be one line. -/
theorem isTidy_of_trouble {r : Record} {t : Text} (h : r.trouble = some t) : r.IsTidy := by
  intro hnone
  rw [h] at hnone
  cases hnone

/-- What a part of the program notes is tidy just if its context and its text are. -/
theorem isTidy_note_iff {part : Text} (hpart : part.IsOneLine) (level : Level) (t : Text)
    (c : Context) (tag : Option Json) : IsTidy { note part level t with context := c, tag := tag } ↔
      c.IsOneLine ∧ t.IsOneLine := by
  have hlogger : (Log.logger part).IsOneLine := .append (.of_all rfl) hpart
  have hiff := isOneLine_iff (r :=
    { note part level t with context := c, tag := tag }) rfl hlogger rfl
  exact ⟨fun h => hiff.mp (h rfl),fun h _ => hiff.mpr h⟩

end Record

end Log

end CategorySelection
