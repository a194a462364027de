import CategorySelection.Proofs.Assoc
import CategorySelection.Proofs.Json.Strings
import CategorySelection.Proofs.Text.Basic
/-!
Texts that are read as a value. Such texts with commas between them make an array, and with names
before them an object, one level deeper. A text has enough fuel in its length.
-/

namespace CategorySelection.Json

def EndsValue (t : Text) : Prop :=
  ∀ c ∈ t.head?, c.isAsciiDigit = false ∧ c ≠ CodePoint.ofChar '.' ∧ c ≠ CodePoint.ofChar 'e' ∧
    c ≠ CodePoint.ofChar 'E'

theorem endsValue_nil : EndsValue [] := by
  intro c hc
  cases hc

theorem endsValue_comma (t : Text) : EndsValue (CodePoint.ofChar ',' :: t) := by
  intro c hc
  obtain rfl := Option.some_inj.mp hc
  decide

theorem endsValue_bracket (t : Text) : EndsValue (CodePoint.ofChar ']' :: t) := by
  intro c hc
  obtain rfl := Option.some_inj.mp hc
  decide

theorem endsValue_brace (t : Text) : EndsValue (CodePoint.ofChar '\x7d' :: t) := by
  intro c hc
  obtain rfl := Option.some_inj.mp hc
  decide

/-- Blanks end a value, and what follows them does so if there are none. -/
theorem endsValue_blanks {blanks t : Text} (hb : ∀ c ∈ blanks, isSpace c = true)
    (ht : EndsValue t) :
    EndsValue (blanks ++ t) := by
  cases blanks with
  | nil => exact ht
  | cons b blanks =>
    intro c hc
    obtain rfl := Option.some_inj.mp hc
    have hspace := hb b List.mem_cons_self
    simp only [isSpace, Bool.or_eq_true, beq_iff_eq] at hspace
    rcases hspace with ((rfl | rfl) | rfl) | rfl <;> decide

def startsValue (c : CodePoint) : Bool :=
  !isSpace c && c ≠ CodePoint.ofChar ']' && c ≠ CodePoint.ofChar '\x7d' && c ≠ (0xfeff : CodePoint)

def StartsValue (t : Text) : Prop := ∃ c rest, t = c :: rest ∧ startsValue c = true

/-- A text that is read as a value wherever it stands, if this many arrays and objects may still be
opened. -/
structure ReadsAs (t : Text) (depth : Nat) (value : Json) : Prop where
  starts : StartsValue t
  reads : ∀ fuel, t.length ≤ fuel → ∀ rest, EndsValue rest →
    readValue fuel depth (t ++ rest) = .ok (value, rest)

/-- The blanks between the parts of an array or object: behind its opening bracket, before its
closing one, behind each comma and behind each colon. -/
structure Gaps where
  opening : Text
  closing : Text
  comma : Text
  colon : Text
  opening_blank : ∀ c ∈ opening, isSpace c = true
  closing_blank : ∀ c ∈ closing, isSpace c = true
  comma_blank : ∀ c ∈ comma, isSpace c = true
  colon_blank : ∀ c ∈ colon, isSpace c = true

def Gaps.joined (gaps : Gaps) (parts : List Text) : Text :=
  Text.join (CodePoint.ofChar ',' :: gaps.comma) parts

def Gaps.array (gaps : Gaps) (parts : List Text) : Text :=
  CodePoint.ofChar '[' :: (gaps.opening ++
    (gaps.joined parts ++ (gaps.closing ++ [CodePoint.ofChar ']'])))

def Gaps.object (gaps : Gaps) (parts : List Text) : Text :=
  CodePoint.ofChar '\x7b' ::
    (gaps.opening ++ (gaps.joined parts ++ (gaps.closing ++ [CodePoint.ofChar '\x7d'])))

def Gaps.entry {α : Type} (gaps : Gaps) (ascii : Bool) (text : α → Text)
    (entry : Text × α) : Text :=
  writeString ascii entry.1 ++ (CodePoint.ofChar ':' :: gaps.colon) ++ text entry.2

theorem skipSpace_cons {c : CodePoint} (hc : isSpace c = false) (t : Text) :
    skipSpace (c :: t) = c :: t :=
  List.dropWhile_cons_of_neg (by rw [hc]; exact Bool.false_ne_true)

theorem skipSpace_append {blanks : Text} (hb : ∀ c ∈ blanks, isSpace c = true) (t : Text) :
    skipSpace (blanks ++ t) = skipSpace t := by
  rw [skipSpace, List.dropWhile_append_of_pos hb, skipSpace]

theorem skipSpace_blanks {blanks : Text} (hb : ∀ c ∈ blanks, isSpace c = true) {c : CodePoint}
    (hc : isSpace c = false) (t : Text) : skipSpace (blanks ++ c :: t) = c :: t := by
  rw [skipSpace_append hb, skipSpace_cons hc]

namespace Gaps

variable (gaps : Gaps)

theorem joined_singleton (part : Text) : gaps.joined [part] = part := Text.join_singleton _ part

theorem joined_cons_cons (part next : Text) (rest : List Text) :
    gaps.joined (part :: next :: rest) =
      part ++ (CodePoint.ofChar ',' :: (gaps.comma ++ gaps.joined (next :: rest))) :=
  Text.join_cons_cons _ part next rest

end Gaps

section Starts

variable {t : Text}

theorem isSpace_of_startsValue {c : CodePoint} (hc : startsValue c = true) : isSpace c = false := by
  simp only [startsValue, Bool.and_eq_true, Bool.not_eq_true'] at hc
  exact hc.1.1.1

theorem ne_of_startsValue {c : CodePoint} (hc : startsValue c = true) :
    c ≠ CodePoint.ofChar ']' ∧ c ≠ CodePoint.ofChar '\x7d' ∧ c ≠ (0xfeff : CodePoint) := by
  simp only [startsValue, Bool.and_eq_true, decide_eq_true_eq] at hc
  exact ⟨hc.1.1.2,hc.1.2,hc.2⟩

theorem StartsValue.length_pos (h : StartsValue t) : 0 < t.length := by
  obtain ⟨c,rest,rfl,_⟩ := h
  exact Nat.succ_pos _

theorem StartsValue.append (h : StartsValue t) (rest : Text) : StartsValue (t ++ rest) := by
  obtain ⟨c,tail,rfl,hc⟩ := h
  exact ⟨c,tail ++ rest,rfl,hc⟩

theorem StartsValue.skipSpace_eq (h : StartsValue t) : skipSpace t = t := by
  obtain ⟨c,tail,rfl,hc⟩ := h
  exact skipSpace_cons (isSpace_of_startsValue hc) tail

/-- Texts that start in that way keep doing so when they are joined. -/
theorem StartsValue.joined {parts : List Text} (hne : parts ≠ [])
    (h : ∀ part ∈ parts, StartsValue part) (gaps : Gaps) : StartsValue (gaps.joined parts) := by
  match parts with
  | [part] =>
    rw [gaps.joined_singleton]
    exact h part List.mem_cons_self
  | part :: next :: tail =>
    rw [gaps.joined_cons_cons]
    exact (h part List.mem_cons_self).append _

end Starts

namespace ReadsAs

variable {t : Text} {depth : Nat} {value : Json}

/-- A text that is read as a value at the top is read as that value. -/
theorem read_eq (h : ReadsAs t maxNesting value) : read t = .ok value := by
  have hvalue := h.reads (2*t.length+2) (by omega) [] endsValue_nil
  rw [List.append_nil] at hvalue
  have hall : readAll t = .ok value := by
    rw [readAll, h.starts.skipSpace_eq, hvalue]
    rfl
  obtain ⟨c,tail,rfl,hc⟩ := h.starts
  rw [read, hall]
  · rfl
  · intro tail htail
    exact (ne_of_startsValue hc).2.2 (List.cons.inj htail).1

end ReadsAs

theorem starts_writeString (ascii : Bool) (t : Text) : StartsValue (writeString ascii t) :=
  ⟨_,_,(List.append_nil _).symm.trans (writeString_append ascii t []),by decide⟩

/-- A written string is read as the string with its surrogates joined where they are escaped. -/
theorem readsAs_writeString (ascii : Bool) (depth : Nat) (t : Text) :
    ReadsAs (writeString ascii t) depth (.string (rejoined ascii t)) := by
  refine ⟨starts_writeString ascii t,?_⟩
  intro fuel hfuel rest _
  have hpos := (starts_writeString ascii t).length_pos
  obtain ⟨fuel,rfl⟩ : ∃ n, fuel = n+1 := Nat.exists_eq_succ_of_ne_zero (by omega)
  rw [writeString_append, readValue.eq_def]
  dsimp only
  rw [if_pos rfl, readString_write]
  rfl

/-- A string without surrogates is read as it was written. -/
theorem readsAs_string (ascii : Bool) (depth : Nat) {t : Text}
    (ht : ∀ c ∈ t, c.isSurrogate = false) :
    ReadsAs (writeString ascii t) depth (.string t) := by
  have hread := readsAs_writeString ascii depth t
  rwa [rejoined, joinParts_flatMap ascii t ht] at hread

/-- An array without entries. -/
theorem readsAs_nil (depth : Nat) :
    ReadsAs [CodePoint.ofChar '[', CodePoint.ofChar ']'] (depth+1) (.array []) := by
  refine ⟨⟨_,_,rfl,by decide⟩,?_⟩
  intro fuel hfuel rest _
  simp only [List.length_cons, List.length_nil] at hfuel
  obtain ⟨fuel,rfl⟩ : ∃ n, fuel = n+1 := Nat.exists_eq_succ_of_ne_zero (by omega)
  rw [List.cons_append, readValue.eq_def]
  dsimp only
  rw [if_neg (by decide), if_pos rfl, List.cons_append, skipSpace_cons rfl]
  rfl

/-- An object without entries. -/
theorem readsAs_empty (depth : Nat) :
    ReadsAs [CodePoint.ofChar '\x7b', CodePoint.ofChar '\x7d'] (depth+1) (.object []) := by
  refine ⟨⟨_,_,rfl,by decide⟩,?_⟩
  intro fuel hfuel rest _
  simp only [List.length_cons, List.length_nil] at hfuel
  obtain ⟨fuel,rfl⟩ : ∃ n, fuel = n+1 := Nat.exists_eq_succ_of_ne_zero (by omega)
  rw [List.cons_append, readValue.eq_def]
  dsimp only
  rw [if_neg (by decide), if_neg (by decide), if_pos rfl, List.cons_append, skipSpace_cons rfl]
  rfl

section Entries

variable {α : Type} {text : α → Text} {value : α → Json} {depth : Nat} (gaps : Gaps)

/-- The entries of an array are read one by one, each with the fuel that the ones before it left. -/
theorem readItems_joined {items : List α} (hne : items ≠ [])
    (h : ∀ item ∈ items, ReadsAs (text item) depth (value item)) {fuel : Nat}
    (hfuel : (gaps.joined (items.map text)).length < fuel) (rest : Text) :
    readItems fuel depth
        (gaps.joined (items.map text) ++ (gaps.closing ++ CodePoint.ofChar ']' :: rest)) =
      .ok (items.map value, rest) := by
  induction items generalizing fuel with
  | nil => exact absurd rfl hne
  | cons item tail ih =>
    obtain ⟨hitem,htail⟩ := List.forall_mem_cons.mp h
    obtain ⟨fuel,rfl⟩ : ∃ n, fuel = n+1 := Nat.exists_eq_succ_of_ne_zero (by omega)
    cases tail with
    | nil =>
      have hends := endsValue_blanks gaps.closing_blank (endsValue_bracket rest)
      rw [List.map_singleton, gaps.joined_singleton] at hfuel ⊢
      rw [readItems, hitem.reads fuel (by omega) _ hends]
      dsimp only [bind, Except.bind]
      rw [skipSpace_blanks gaps.closing_blank rfl]
      rfl
    | cons next tail =>
      have hpos := hitem.starts.length_pos
      rw [List.map_cons, List.map_cons, gaps.joined_cons_cons, ← List.map_cons] at hfuel ⊢
      simp only [List.length_append, List.length_cons] at hfuel
      have hshort : (gaps.joined ((next :: tail).map text)).length < fuel := by omega
      have hrest := ih (List.cons_ne_nil next tail) htail hshort
      have hstart := StartsValue.joined (List.map_eq_nil_iff.not.mpr (List.cons_ne_nil next tail))
        (List.forall_mem_map.mpr fun other hother => (htail other hother).starts) gaps
      rw [List.append_assoc, List.cons_append, List.append_assoc, readItems,
        hitem.reads fuel (by omega) _ (endsValue_comma _)]
      dsimp only [bind, Except.bind]
      rw [skipSpace_cons rfl]
      dsimp only
      rw [if_neg (by decide), if_pos rfl, skipSpace_append gaps.comma_blank,
        (hstart.append _).skipSpace_eq, hrest]
      rfl

theorem readsAs_array {items : List α} (hne : items ≠ [])
    (h : ∀ item ∈ items, ReadsAs (text item) depth (value item)) :
    ReadsAs (gaps.array (items.map text)) (depth+1) (.array (items.map value)) := by
  refine ⟨⟨_,_,rfl,by decide⟩,?_⟩
  intro fuel hfuel rest _
  simp only [Gaps.array, List.length_cons, List.length_append, List.length_nil] at hfuel
  obtain ⟨fuel,rfl⟩ : ∃ n, fuel = n+1 := Nat.exists_eq_succ_of_ne_zero (by omega)
  have hshort : (gaps.joined (items.map text)).length < fuel := by omega
  have hread := readItems_joined gaps hne h hshort rest
  have hstart := StartsValue.joined (List.map_eq_nil_iff.not.mpr hne)
    (List.forall_mem_map.mpr fun other hother => (h other hother).starts) gaps
  have hskip := (hstart.append (gaps.closing ++ CodePoint.ofChar ']' :: rest)).skipSpace_eq
  obtain ⟨c,tail,htail,hc⟩ := hstart
  simp only [Gaps.array, List.cons_append, List.append_assoc, List.nil_append]
  rw [readValue.eq_def]
  dsimp only
  rw [if_neg (by decide), if_pos rfl, skipSpace_append gaps.opening_blank, hskip]
  rw [htail] at hread ⊢
  dsimp only [List.cons_append] at hread ⊢
  rw [if_neg (ne_of_startsValue hc).1, hread]
  rfl

theorem starts_entry (ascii : Bool) (text : α → Text) (entry : Text × α) :
    StartsValue (gaps.entry ascii text entry) := by
  rw [Gaps.entry, List.append_assoc]
  exact (starts_writeString ascii entry.1).append _

/-- A name and its value are read up to what follows them. -/
theorem readFields_entry {ascii : Bool} {entry : Text × α}
    (hname : ∀ c ∈ entry.1, c.isSurrogate = false)
    (h : ReadsAs (text entry.2) depth (value entry.2)) {fuel : Nat}
    (hfuel : (gaps.entry ascii text entry).length ≤ fuel) {rest : Text} (hrest : EndsValue rest) :
    readFields (fuel+1) depth (gaps.entry ascii text entry ++ rest) =
      match skipSpace rest with
      | [] => .error (.malformed .expectingComma 0)
      | c :: rest =>
        if c = CodePoint.ofChar '\x7d' then .ok ([(entry.1,value entry.2)], rest)
        else if c = CodePoint.ofChar ',' then do
          let (fields,rest) ← readFields fuel depth (skipSpace rest)
          .ok ((entry.1,value entry.2) :: fields, rest)
        else .error (.malformed .expectingComma (rest.length+1)) := by
  simp only [Gaps.entry, List.length_append, List.length_cons] at hfuel
  have hvalue := h.reads fuel (by omega) rest hrest
  rw [Gaps.entry, List.append_assoc, List.append_assoc, writeString_append, readFields.eq_def]
  dsimp only
  rw [if_pos rfl, readString_write, joinParts_flatMap _ _ hname]
  dsimp only [bind, Except.bind]
  rw [List.cons_append, skipSpace_cons rfl]
  dsimp only
  rewrite [if_pos rfl, skipSpace_append gaps.colon_blank,
    (h.starts.append rest).skipSpace_eq, hvalue]
  rfl

/-- The names and values of an object are read one by one. -/
theorem readFields_joined {ascii : Bool} {fields : List (Text × α)} (hne : fields ≠ [])
    (hnames : ∀ entry ∈ fields, ∀ c ∈ entry.1, c.isSurrogate = false)
    (h : ∀ entry ∈ fields, ReadsAs (text entry.2) depth (value entry.2)) {fuel : Nat}
    (hfuel : (gaps.joined (fields.map (gaps.entry ascii text))).length < fuel) (rest : Text) :
    readFields fuel depth (gaps.joined (fields.map (gaps.entry ascii text)) ++
      (gaps.closing ++ CodePoint.ofChar '\x7d' :: rest)) =
      .ok (fields.map fun entry => (entry.1,value entry.2), rest) := by
  induction fields generalizing fuel with
  | nil => exact absurd rfl hne
  | cons entry tail ih =>
    obtain ⟨hentry,htail⟩ := List.forall_mem_cons.mp h
    obtain ⟨hname,hnames⟩ := List.forall_mem_cons.mp hnames
    obtain ⟨fuel,rfl⟩ : ∃ n, fuel = n+1 := Nat.exists_eq_succ_of_ne_zero (by omega)
    cases tail with
    | nil =>
      have hends := endsValue_blanks gaps.closing_blank (endsValue_brace rest)
      rw [List.map_singleton, gaps.joined_singleton] at hfuel ⊢
      rw [readFields_entry gaps hname hentry (by omega) hends,
        skipSpace_blanks gaps.closing_blank rfl]
      rfl
    | cons next tail =>
      have hpos := (starts_entry gaps ascii text entry).length_pos
      rw [List.map_cons, List.map_cons, gaps.joined_cons_cons, ← List.map_cons] at hfuel ⊢
      simp only [List.length_append, List.length_cons] at hfuel
      have hshort : (gaps.joined ((next :: tail).map (gaps.entry ascii text))).length < fuel := by
        omega
      have hrest := ih (List.cons_ne_nil next tail) hnames htail hshort
      have hstart := StartsValue.joined (List.map_eq_nil_iff.not.mpr (List.cons_ne_nil next tail))
        (List.forall_mem_map.mpr fun other _ => starts_entry gaps ascii text other) gaps
      rw [List.append_assoc, List.cons_append, List.append_assoc,
        readFields_entry gaps hname hentry (by omega) (endsValue_comma _), skipSpace_cons rfl]
      dsimp only
      rw [if_neg (by decide), if_pos rfl, skipSpace_append gaps.comma_blank,
        (hstart.append _).skipSpace_eq, hrest]
      rfl

/-- An object of distinct names and of values that are read is read. -/
theorem readsAs_object {ascii : Bool} {fields : List (Text × α)} (hne : fields ≠ [])
    (hdistinct : (Assoc.names fields).Nodup)
    (hnames : ∀ entry ∈ fields, ∀ c ∈ entry.1, c.isSurrogate = false)
    (h : ∀ entry ∈ fields, ReadsAs (text entry.2) depth (value entry.2)) :
    ReadsAs (gaps.object (fields.map (gaps.entry ascii text))) (depth+1)
      (.object (fields.map fun entry => (entry.1,value entry.2))) := by
  have hpairs : Assoc.ofPairs (fields.map fun entry => (entry.1,value entry.2)) =
      fields.map fun entry => (entry.1,value entry.2) := by
    apply Assoc.ofPairs_eq_self
    rw [Assoc.names_map_snd]
    exact hdistinct
  refine ⟨⟨_,_,rfl,by decide⟩,?_⟩
  intro fuel hfuel rest _
  simp only [Gaps.object, List.length_cons, List.length_append, List.length_nil] at hfuel
  obtain ⟨fuel,rfl⟩ : ∃ n, fuel = n+1 := Nat.exists_eq_succ_of_ne_zero (by omega)
  have hshort : (gaps.joined (fields.map (gaps.entry ascii text))).length < fuel := by omega
  have hread := readFields_joined gaps hne hnames h hshort rest
  have hstart := StartsValue.joined (List.map_eq_nil_iff.not.mpr hne)
    (List.forall_mem_map.mpr fun other _ => starts_entry gaps ascii text other) gaps
  have hskip := (hstart.append (gaps.closing ++ CodePoint.ofChar '\x7d' :: rest)).skipSpace_eq
  obtain ⟨c,tail,htail,hc⟩ := hstart
  simp only [Gaps.object, List.cons_append, List.append_assoc, List.nil_append]
  rw [readValue.eq_def]
  dsimp only
  rw [if_neg (by decide), if_neg (by decide), if_pos rfl,
    skipSpace_append gaps.opening_blank, hskip]
  rw [htail] at hread ⊢
  dsimp only [List.cons_append] at hread ⊢
  rw [if_neg (ne_of_startsValue hc).2.1, hread]
  dsimp only [Functor.map, Except.map]
  rw [hpairs]

end Entries

theorem isSpace_of_mem_blank : ∀ c ∈ [CodePoint.ofChar ' '], isSpace c = true :=
  List.forall_mem_singleton.mpr rfl

def Gaps.spaced : Gaps where
  opening := []
  closing := []
  comma := [CodePoint.ofChar ' ']
  colon := [CodePoint.ofChar ' ']
  opening_blank := List.forall_mem_nil _
  closing_blank := List.forall_mem_nil _
  comma_blank := isSpace_of_mem_blank
  colon_blank := isSpace_of_mem_blank

theorem writeLineItems_spaced (items : List Json) :
    writeLineItems .spaced items = Gaps.spaced.joined (items.map (writeLine .spaced)) := by
  induction items with
  | nil => rfl
  | cons item tail ih =>
    cases tail with
    | nil => rw [writeLineItems, List.map_singleton, Gaps.joined_singleton]
    | cons next tail =>
      rw [writeLineItems, ih, List.map_cons, List.map_cons, List.map_cons, Gaps.joined_cons_cons,
        List.append_assoc]
      · rfl
      · exact fun h => nomatch h

theorem writeLineFields_spaced (fields : List (Text × Json)) :
    writeLineFields .spaced fields =
      Gaps.spaced.joined (fields.map (Gaps.spaced.entry true (writeLine .spaced))) := by
  induction fields with
  | nil => rfl
  | cons field tail ih =>
    obtain ⟨name,value⟩ := field
    cases tail with
    | nil =>
      rw [writeLineFields, List.map_singleton, Gaps.joined_singleton]
      rfl
    | cons next tail =>
      rw [writeLineFields, ih, List.map_cons, List.map_cons, List.map_cons, Gaps.joined_cons_cons,
        List.append_assoc]
      · rfl
      · exact fun h => nomatch h

def ofTexts (table : List (Text × Text)) : Json :=
  .object (table.map fun entry => (entry.1,.string entry.2))

/-- An object of texts on one line is its fields joined by commas and blanks. -/
theorem writeLine_ofTexts (table : List (Text × Text)) :
    writeLine .spaced (ofTexts table) =
      Gaps.spaced.object (table.map (Gaps.spaced.entry true (writeString true))) := by
  rw [ofTexts, writeLine, writeLineFields_spaced, List.map_map]
  exact List.append_assoc ..

/-- A table of distinct names is read back, its entries in their order. -/
theorem read_writeLine_ofTexts {table : List (Text × Text)} (hdistinct : (Assoc.names table).Nodup)
    (hnames : ∀ entry ∈ table, ∀ c ∈ entry.1, c.isSurrogate = false)
    (htexts : ∀ entry ∈ table, ∀ c ∈ entry.2, c.isSurrogate = false) :
    read (writeLine .spaced (ofTexts table)) = .ok (ofTexts table) := by
  rw [writeLine_ofTexts, ofTexts]
  cases table with
  | nil => exact (readsAs_empty 989).read_eq
  | cons entry rest =>
    have hvalues : ∀ other ∈ entry :: rest,
        ReadsAs (writeString true other.2) 989 (.string other.2) :=
      fun other hother => readsAs_string true 989 (htexts other hother)
    exact (readsAs_object Gaps.spaced (List.cons_ne_nil entry rest) hdistinct hnames
      hvalues).read_eq

/-- An array of texts is read back with each text as its string comes back. -/
theorem read_write_strings (ts : List Text) :
    read (writeLine .spaced (.array (ts.map .string))) =
      .ok (.array ((ts.map (rejoined true)).map .string)) := by
  have hwrite : writeLine .spaced (.array (ts.map .string)) =
      Gaps.spaced.array (ts.map fun t => writeLine .spaced (.string t)) := by
    rw [writeLine, writeLineItems_spaced, List.map_map]
    rfl
  cases ts with
  | nil => exact (readsAs_nil 989).read_eq
  | cons t rest =>
    have hitems : ∀ item ∈ t :: rest,
        ReadsAs (writeLine .spaced (.string item)) 989 (.string (rejoined true item)) :=
      fun item _ => readsAs_writeString true 989 item
    rw [hwrite, List.map_map]
    exact (readsAs_array Gaps.spaced (List.cons_ne_nil t rest) hitems).read_eq

theorem strings?_array (ts : List Text) : (Json.array (ts.map .string)).strings? = some ts := by
  rw [strings?]
  induction ts with
  | nil => rfl
  | cons t rest ih =>
    rw [List.map_cons, List.mapM_cons, ih]
    rfl

end CategorySelection.Json
