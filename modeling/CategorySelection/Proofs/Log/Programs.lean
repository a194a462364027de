import CategorySelection.Log.Line
import CategorySelection.Proofs.Json.Floats
import CategorySelection.Proofs.Json.ReadsBack
import CategorySelection.Proofs.Text.Utf8
/-!
Log lines for programs. Whatever texts a record carries, its line is printable ASCII and is read
back as the object of these texts, so that no text can end the line, add a field to it or pass for
another text.
-/

namespace CategorySelection

def CodePoint.isPlain (c : CodePoint) : Bool := c.isBetween 0x20 0x7e

def Text.IsPlain (t : Text) : Prop := ∀ c ∈ t, c.isPlain = true

namespace Text.IsPlain

variable {t u : Text}

theorem append (ht : t.IsPlain) (hu : u.IsPlain) : Text.IsPlain (t ++ u) :=
  List.forall_mem_append.mpr ⟨ht,hu⟩

theorem cons {c : CodePoint} (hc : c.isPlain = true) (ht : t.IsPlain) : Text.IsPlain (c :: t) :=
  List.forall_mem_cons.mpr ⟨hc,ht⟩

theorem of_all (h : t.all CodePoint.isPlain = true) : t.IsPlain := List.all_eq_true.mp h

theorem join {separator : Text} {parts : List Text} (hs : separator.IsPlain)
    (h : ∀ part ∈ parts, Text.IsPlain part) : (Text.join separator parts).IsPlain := by
  intro c hc
  rcases mem_join hc with hc | ⟨part,hpart,hc⟩
  · exact hs c hc
  · exact h part hpart c hc

theorem of_digits (h : ∀ c ∈ t, c.isAsciiDigit = true) : t.IsPlain := by
  intro c hc
  have hdigit := h c hc
  simp only [CodePoint.isAsciiDigit, CodePoint.isPlain, CodePoint.isBetween, Bool.and_eq_true,
    decide_eq_true_eq] at hdigit ⊢
  omega

theorem isEncodable (h : t.IsPlain) : t.isEncodable = true := by
  rw [Text.isEncodable_iff]
  intro c hc
  have hplain := h c hc
  simp only [CodePoint.isPlain, CodePoint.isSurrogate, CodePoint.isBetween, Bool.and_eq_true,
    Bool.and_eq_false_iff, decide_eq_true_eq, decide_eq_false_iff_not] at hplain ⊢
  omega

end Text.IsPlain

namespace Json

section Plain

theorem isPlain_ofHexDigit (n : Nat) : (CodePoint.ofHexDigit n).isPlain = true := by
  have hsmall : ∀ k : Fin 16, (CodePoint.ofHexDigit k.val).isPlain = true := by decide
  have hmod : CodePoint.ofHexDigit n = CodePoint.ofHexDigit (n % 16) := by
    simp only [CodePoint.ofHexDigit, Nat.mod_mod]
  rw [hmod]
  exact hsmall ⟨n % 16,Nat.mod_lt n (by decide)⟩

theorem isPlain_unitEscape (n : Nat) : (unitEscape n).IsPlain := by
  rw [unitEscape_eq]
  simp only [Text.IsPlain, List.forall_mem_cons, isPlain_ofHexDigit, true_and]
  exact ⟨rfl,rfl,List.forall_mem_nil _⟩

/-- An escape of one letter is made of printable code points, and so is the letter. -/
theorem isPlain_of_escapeLetter? {c letter : CodePoint} (h : escapeLetter? c = some letter) :
    letter.isPlain = true := by
  rw [escapeLetter?] at h
  split_ifs at h with hq <;> obtain rfl := Option.some_inj.mp h
  · rcases hq with rfl | rfl <;> rfl
  all_goals rfl

/-- In ASCII every code point is escaped into printable ASCII. -/
theorem isPlain_escapeAscii (c : CodePoint) : (escapeAscii c).IsPlain := by
  rw [escapeAscii]
  split
  · next letter hletter =>
      exact .cons rfl (.cons (isPlain_of_escapeLetter? hletter) (List.forall_mem_nil _))
  · split_ifs with hplain
    · exact List.forall_mem_singleton.mpr hplain
    · exact isPlain_unitEscape _
    · exact (isPlain_unitEscape _).append (isPlain_unitEscape _)

theorem isPlain_writeString (t : Text) : (writeString true t).IsPlain := by
  have hwrite := writeString_append true t []
  rw [List.append_nil] at hwrite
  rw [hwrite]
  refine .cons rfl (.append ?_ (.of_all rfl))
  intro c hc
  obtain ⟨d,_,hc⟩ := List.mem_flatMap.mp hc
  exact isPlain_escapeAscii d c hc

theorem isPlain_writeLine_ofTexts (table : List (Text × Text)) :
    (writeLine .spaced (ofTexts table)).IsPlain := by
  have hentry (entry : Text × Text) : (Gaps.spaced.entry true (writeString true) entry).IsPlain :=
    ((isPlain_writeString _).append (.of_all rfl)).append (isPlain_writeString _)
  have hjoined :
      (Gaps.spaced.joined (table.map (Gaps.spaced.entry true (writeString true)))).IsPlain :=
    .join (.of_all rfl) (List.forall_mem_map.mpr fun entry _ => hentry entry)
  rw [writeLine_ofTexts, Gaps.object]
  exact .cons rfl (.append (.of_all rfl) (hjoined.append (.of_all rfl)))

end Plain

end Json

theorem Text.IsPlain.ofNatPadded (width n : Nat) : (Text.ofNatPadded width n).IsPlain :=
  .of_digits (Json.isAsciiDigit_of_mem_ofNatPadded width n)

namespace Moment

theorem isPlain_clock (t : Moment) : t.clock.IsPlain :=
  ((((Text.IsPlain.ofNatPadded 2 _).append (.of_all rfl)).append (.ofNatPadded 2 _)).append
    (.of_all rfl)).append (.ofNatPadded 2 _)

theorem isPlain_date (t : Moment) {year : Text} (h : year.IsPlain) : (t.date year).IsPlain :=
  (((h.append (.of_all rfl)).append (.ofNatPadded 2 _)).append
    (.of_all rfl)).append (.ofNatPadded 2 _)

theorem isPlain_exact (t : Moment) : t.exact.IsPlain := by
  have hfraction : Text.IsPlain (if t.micros = 0 then ([] : Text)
      else "." ++ Text.ofNatPadded 6 t.micros) := by
    split_ifs
    · exact List.forall_mem_nil _
    · exact .append (.of_all rfl) (.ofNatPadded 6 _)
  exact (((((t.isPlain_date (.ofNatPadded 4 _)).append (.of_all rfl)).append t.isPlain_clock).append
    hfraction)).append (.of_all rfl)

end Moment

namespace Log

def IsLastPart (t last : Text) : Prop :=
  CodePoint.ofChar '.' ∉ last ∧ (t = last ∨ ∃ before, t = before ++ CodePoint.ofChar '.' :: last)

theorem component_of_plain {logger : Text} (h : CodePoint.ofChar '.' ∉ logger) :
    Line.component logger = logger := by
  rw [Line.component, Text.split_of_not_mem h]
  rfl

theorem component_of_dotted (before : Text) {last : Text} (h : CodePoint.ofChar '.' ∉ last) :
    Line.component (before ++ CodePoint.ofChar '.' :: last) = last := by
  rw [Line.component, Text.split_append, Text.split_of_not_mem h, List.getLast?_concat]
  rfl

/-- The component is the last part of the name of a logger, as the last dot is the first one from
behind. -/
theorem isLastPart_component (logger : Text) : IsLastPart logger (Line.component logger) := by
  by_cases hdot : CodePoint.ofChar '.' ∈ logger
  · obtain ⟨behind,rest,hsplit,hlast⟩ := List.eq_append_cons_of_mem (List.mem_reverse.mpr hdot)
    have hlogger : logger = rest.reverse ++ CodePoint.ofChar '.' :: behind.reverse := by
      rw [← List.reverse_reverse logger, hsplit]
      simp only [List.reverse_append, List.reverse_cons, List.append_assoc, List.singleton_append]
    have hfree : CodePoint.ofChar '.' ∉ behind.reverse := by rwa [List.mem_reverse]
    rw [hlogger, component_of_dotted _ hfree]
    exact ⟨hfree,Or.inr ⟨_,rfl⟩⟩
  · rw [component_of_plain hdot]
    exact ⟨hdot,Or.inl rfl⟩

theorem IsLastPart.isEncodable {t last : Text} (h : IsLastPart t last) (ht : t.isEncodable = true) :
    last.isEncodable = true := by
  rcases h.2 with rfl | ⟨before,rfl⟩
  · exact ht
  · rw [Text.isEncodable, List.all_append, List.all_cons] at ht
    simp only [Bool.and_eq_true] at ht
    exact ht.2.2

structure ContextTexts where
  sessionId : Option Text := none
  category : Option Text := none
  storageKey : Option Text := none
  deriving Repr, DecidableEq

def ContextTexts.context (c : ContextTexts) : Context :=
  ⟨c.sessionId.map .string,c.category.map .string,c.storageKey.map .string⟩

namespace Line

def field (name : Text) (t : Option Text) : List (Text × Text) := (t.map (Prod.mk name)).toList

def table (l : Line) (c : ContextTexts) : List (Text × Text) :=
  ("timestamp",l.time.exact) :: ("level",l.level) :: ("component",component l.logger) ::
    ("message",l.message) :: (field "session_id" c.sessionId ++ (field "category" c.category ++
      (field "storage_key" c.storageKey ++ field "exception" l.trouble)))

def fieldNames : List Text :=
  ["timestamp","level","component","message","session_id","category","storage_key","exception"]

structure IsEncodable (l : Line) (c : ContextTexts) : Prop where
  level : l.level.isEncodable = true
  logger : l.logger.isEncodable = true
  message : l.message.isEncodable = true
  sessionId : ∀ t, c.sessionId = some t → t.isEncodable = true
  category : ∀ t, c.category = some t → t.isEncodable = true
  storageKey : ∀ t, c.storageKey = some t → t.isEncodable = true
  trouble : ∀ t, l.trouble = some t → t.isEncodable = true

variable {l : Line} {c : ContextTexts}

theorem toJson_eq (h : l.context = c.context) : l.toJson = .ofTexts (l.table c) := by
  obtain ⟨time,level,logger,message,context,trouble⟩ := l
  obtain rfl : context = c.context := h
  obtain ⟨sessionId,category,storageKey⟩ := c
  cases sessionId <;> cases category <;> cases storageKey <;> cases trouble <;> rfl

/-- The fields of a line stand in their fixed order, and some may be missing. -/
theorem names_table_sublist (l : Line) (c : ContextTexts) :
    (Assoc.names (l.table c)).Sublist fieldNames := by
  have hfield (name : Text) (text : Option Text) :
      (Assoc.names (field name text)).Sublist [name] := by
    cases text with
    | none => exact List.nil_sublist _
    | some t => exact List.Sublist.refl _
  have happend (table other : List (Text × Text)) :
      Assoc.names (table ++ other) = Assoc.names table ++ Assoc.names other := List.map_append
  rw [table, Assoc.names_cons, Assoc.names_cons, Assoc.names_cons, Assoc.names_cons, happend,
    happend, happend]
  have hfields := (hfield "session_id" c.sessionId).append ((hfield "category" c.category).append
    ((hfield "storage_key" c.storageKey).append (hfield "exception" l.trouble)))
  exact (((hfields.cons_cons _).cons_cons _).cons_cons _).cons_cons _

theorem distinct_table (l : Line) (c : ContextTexts) : (Assoc.names (l.table c)).Nodup :=
  List.Nodup.sublist (l.names_table_sublist c) (by decide)

theorem isEncodable_name_of_mem_table {entry : Text × Text} (he : entry ∈ l.table c) :
    entry.1.isEncodable = true := by
  have hname := (l.names_table_sublist c).subset (List.mem_map_of_mem he)
  have hall : fieldNames.all Text.isEncodable = true := by decide
  exact List.all_eq_true.mp hall _ hname

theorem isEncodable_text_of_mem_table (h : l.IsEncodable c) {entry : Text × Text}
    (he : entry ∈ l.table c) :
    entry.2.isEncodable = true := by
  have hfield {name : Text} {text : Option Text} (ht : ∀ t, text = some t → t.isEncodable = true)
      (he : entry ∈ field name text) : entry.2.isEncodable = true := by
    cases text with
    | none => cases he
    | some t =>
      obtain rfl := List.mem_singleton.mp he
      exact ht t rfl
  simp only [table, List.mem_cons, List.mem_append] at he
  rcases he with rfl | rfl | rfl | rfl | he | he | he | he
  · exact l.time.isPlain_exact.isEncodable
  · exact h.level
  · exact (isLastPart_component l.logger).isEncodable h.logger
  · exact h.message
  · exact hfield h.sessionId he
  · exact hfield h.category he
  · exact hfield h.storageKey he
  · exact hfield h.trouble he

/-- A line of texts without single surrogates is read back as its table. -/
theorem read_json (hcontext : l.context = c.context) (h : l.IsEncodable c) :
    Json.read l.json = .ok (.ofTexts (l.table c)) := by
  rw [json, toJson_eq hcontext]
  apply Json.read_writeLine_ofTexts (l.distinct_table c)
  · exact fun entry he => (Text.isEncodable_iff _).mp (isEncodable_name_of_mem_table he)
  · exact fun entry he => (Text.isEncodable_iff _).mp (isEncodable_text_of_mem_table h he)

theorem ofTexts_injective {table other : List (Text × Text)}
    (h : Json.ofTexts table = Json.ofTexts other) :
    table = other := by
  refine List.map_injective_iff.mpr ?_ (Json.object.inj h)
  intro entry entry' hentry
  obtain ⟨hname,htext⟩ := Prod.mk.inj hentry
  exact Prod.ext hname (Json.string.inj htext)

/-- The table of a line gives back each of its texts. -/
theorem texts_of_table (l : Line) (c : ContextTexts) :
    c.sessionId = Assoc.get? "session_id" (l.table c) ∧
      c.category = Assoc.get? "category" (l.table c) ∧
      c.storageKey = Assoc.get? "storage_key" (l.table c) ∧
        l.trouble = Assoc.get? "exception" (l.table c) := by
  obtain ⟨time,level,logger,message,context,trouble⟩ := l
  obtain ⟨sessionId,category,storageKey⟩ := c
  cases sessionId <;> cases category <;> cases storageKey <;> cases trouble <;>
    exact ⟨rfl,rfl,rfl,rfl⟩

/-- The line of a record whose texts have no single surrogates, whatever else is in them. It is made
of printable ASCII, so it is one line, and it is read back as the object of its texts in their
order, in which the component is what follows the last dot in the name of the logger. So no two such
lines say different things. -/
theorem json_line_faithful (hcontext : l.context = c.context) (h : l.IsEncodable c) :
    l.json.IsPlain ∧ IsLastPart l.logger (component l.logger) ∧
      Json.read l.json = .ok (.ofTexts (l.table c)) ∧
      ∀ (l' : Line) (c' : ContextTexts), l'.context = c'.context → l'.IsEncodable c' →
        l.json = l'.json →
        l.time.exact = l'.time.exact ∧ l.level = l'.level ∧
          component l.logger = component l'.logger ∧
          l.message = l'.message ∧ c = c' ∧ l.trouble = l'.trouble := by
  have hplain : l.json.IsPlain := by
    rw [json, toJson_eq hcontext]
    exact Json.isPlain_writeLine_ofTexts _
  refine ⟨hplain,isLastPart_component l.logger,read_json hcontext h,?_⟩
  intro l' c' hcontext' h' hsame
  have htable : l.table c = l'.table c' := by
    have hread := read_json hcontext h
    rw [hsame, read_json hcontext' h'] at hread
    exact (ofTexts_injective (Except.ok.inj hread)).symm
  obtain ⟨hsession,hcategory,hstorage,htrouble⟩ := texts_of_table l c
  obtain ⟨hsession',hcategory',hstorage',htrouble'⟩ := texts_of_table l' c'
  rw [htable] at hsession hcategory hstorage htrouble
  have hc : c = c' := by
    obtain ⟨_,_,_⟩ := c
    obtain ⟨_,_,_⟩ := c'
    rw [ContextTexts.mk.injEq]
    exact ⟨hsession.trans hsession'.symm,hcategory.trans hcategory'.symm,
      hstorage.trans hstorage'.symm⟩
  simp only [table, List.cons.injEq, Prod.mk.injEq, true_and] at htable
  exact ⟨htable.1,htable.2.1,htable.2.2.1,htable.2.2.2.1,hc,htrouble.trans htrouble'.symm⟩

/-- A line with quotes, a new line and a code point past the sixteen bits in it. -/
theorem json_line_faithful_of_new_line :
    let c : ContextTexts := { category := some "A\nB" }
    let message : Text := Text.ofString "Added \"A\nB\" " ++ [0x1f600]
    let l : Line := ⟨⟨2024,5,1,12,0,0,123000⟩,"INFO","category_filter.catalog",message,c.context,
      some "a\x7b\\"⟩
    let said : List (Text × Text) :=
      [("timestamp","2024-05-01T12:00:00.123000+00:00"),("level","INFO"),
      ("component","catalog"),("message",message),("category","A\nB"),("exception","a\x7b\\")]
    l.context = c.context ∧ l.IsEncodable c ∧ Json.read l.json = .ok (.ofTexts said) := by
  intro c message l said
  have hl : l.IsEncodable c := by
    constructor
    case sessionId => nofun
    case storageKey => nofun
    case category =>
      rintro t ⟨⟩
      decide
    case trouble =>
      rintro t ⟨⟩
      decide
    all_goals decide
  have htable : l.table c = said := by cbv
  obtain ⟨_,_,hread,_⟩ := json_line_faithful (rfl : l.context = c.context) hl
  rw [htable] at hread
  exact ⟨rfl,hl,hread⟩

end Line

end Log

end CategorySelection
