import CategorySelection.Fault
import CategorySelection.Text.Blank
/-!
Files of variables. Each binding `NAME=value` stands on lines of its own; a value may be in quotes,
in which case it may go on over several lines and may have escapes, and a value may refer to other
variables. A binding that cannot be read is left out with the rest of its line.
-/

namespace CategorySelection

namespace EnvFile

/-- What one binding says: a variable, with its value if it has an equals sign, or nothing. -/
inductive Binding
  | assigns (name : Text) (value : Option Text)
  | nothing
  | unreadable (line : Nat)
  deriving Repr, DecidableEq

def isLineEnd (c : CodePoint) : Bool := c = 0x0a || c = 0x0d

def isInlineBlank (c : CodePoint) : Bool := c.isBlank && !isLineEnd c

def skipInline (t : Text) : Text := t.dropWhile isInlineBlank

def skipToLineEnd (t : Text) : Text := t.dropWhile (!isLineEnd ·)

def afterLine (t : Text) : Text := (skipToLineEnd t).drop 1

def skipExport (t : Text) : Text :=
  match Text.after? "export" t with
  | none => t
  | some rest => if (rest.take 1).any isInlineBlank then skipInline rest else t

/-- The name at the front of a text and what follows it. In place of a name there may be a
comment. -/
def readName? (t : Text) : Option (Option Text × Text) :=
  match t with
  | [] => none
  | c :: rest =>
    if c = '#' then some (none, t)
    else
      let ends (d : CodePoint) : Bool :=
        if c = 0x27 then d = 0x27 else d = '=' || d = '#' || d.isBlank
      let body := if c = 0x27 then rest else t
      let name := body.takeWhile (!ends ·)
      let after := body.drop name.length
      if name.isEmpty || (c = 0x27 && after.isEmpty) then none
      else some (some name, if c = 0x27 then after.drop 1 else after)

/-- What stands before the closing quote, and what follows that quote. A backslash and the code
point behind it belong together, so a quote behind a backslash does not close. -/
def readQuoted? (quote : CodePoint) : Text → Option (Text × Text)
  | [] => none
  | [c] => if c = quote then some ([], []) else none
  | c :: d :: rest =>
    if c = quote then some ([], d :: rest)
    else if c = '\\' then (readQuoted? quote rest).map fun (body, after) => (c :: d :: body, after)
    else (readQuoted? quote (d :: rest)).map fun (body, after) => (c :: body, after)

def escapes : List (CodePoint × CodePoint) :=
  [('\\', '\\'), (0x27, 0x27), ('"', '"'), ('a', 0x07), ('b', 0x08), ('f', 0x0c), ('n', 0x0a),
    ('r', 0x0d), ('t', 0x09), ('v', 0x0b)]

def escaped? (quote c : CodePoint) : Option CodePoint :=
  if quote = '"' then (escapes.find? (·.1 = c)).map (·.2)
  else if c = '\\' ∨ c = 0x27 then some c
  else none

def unescape (quote : CodePoint) : Text → Text
  | [] => []
  | [c] => [c]
  | c :: d :: rest =>
    match if c = '\\' then escaped? quote d else none with
    | some x => x :: unescape quote rest
    | none => c :: unescape quote (d :: rest)

/-- A text up to blanks with a number sign behind them, and whether a number sign is the first thing
in the text that is not blank. -/
def splitComment : Text → Text × Bool
  | [] => ([], false)
  | c :: rest =>
    let (kept, comment) := splitComment rest
    if !c.isBlank then (c :: kept, c = '#')
    else if comment then ([], true)
    else (c :: kept, false)

def beforeComment (t : Text) : Text := (splitComment t).1

/-- The value at the front of a text and what follows it. Blanks before a value do not count, but a
number sign behind them starts a comment. -/
def readValue? (t : Text) : Option (Text × Text) :=
  let unquoted := ((beforeComment (t.takeWhile (!isLineEnd ·))).trim, skipToLineEnd t)
  match skipInline t with
  | [] => some unquoted
  | c :: rest =>
    if c = 0x27 ∨ c = '"' then
      (readQuoted? c rest).map fun (body, after) => (unescape c body, after)
    else some unquoted

def skipComment (t : Text) : Text :=
  match skipInline t with
  | [] => t
  | c :: rest => if c = '#' then skipToLineEnd rest else t

def readLineEnd? (t : Text) : Option Text :=
  match skipInline t with
  | [] => some []
  | c :: rest => if isLineEnd c then some rest else none

def readParts (t : Text) : Except Text (Binding × Text) :=
  let t := skipExport t
  match readName? t with
  | none => .error t
  | some (name, t) =>
    let t := skipInline t
    let value : Except Text (Option Text × Text) :=
      match Text.after? "=" t with
      | none => .ok (none, t)
      | some rest =>
        match readValue? rest with
        | none => .error rest
        | some (value, rest) => .ok (some value, rest)
    match value with
    | .error t => .error t
    | .ok (value, t) =>
      let t := skipComment t
      match readLineEnd? t with
      | none => .error t
      | some rest => .ok (name.elim .nothing (.assigns · value), rest)

/-- The bindings of a text whose first line has a number. Each takes at least one code point, so the
length of the text is enough `fuel`. -/
def bindingsFrom : (fuel line : Nat) → Text → List Binding
  | 0, _, _ => []
  | fuel + 1, line, t =>
    match t.dropWhile CodePoint.isBlank with
    | [] => []
    | c :: rest =>
      let (binding, after) :=
        match readParts (c :: rest) with
        | .ok result => result
        | .error place => (.unreadable line, afterLine place)
      let passed := t.take (t.length - after.length)
      binding :: bindingsFrom fuel (line + passed.count 0x0a) after

/-- The bindings of a file. A byte order mark before them does not count. -/
def bindings (t : Text) : List Binding := bindingsFrom t.length 1 t.unmarked

def unreadableLines (bs : List Binding) : List Nat :=
  bs.filterMap fun
    | .unreadable line => some line
    | _ => none

/-- What a reference to a variable stands for. A variable of the surroundings goes before one of the
file. -/
def lookUp (surroundings : Assoc Text) (values : Assoc (Option Text)) (name : Text)
    (default : Text) : Text :=
  match surroundings.get? name, values.get? name with
  | some value, _ => value
  | none, some value => value.getD []
  | none, none => default

/-- The reference at the front of a text: its name, what stands for it if there is no such variable,
and how many code points it has. -/
def reference? (t : Text) : Option (Text × Text × Nat) :=
  match Text.after? "$\x7b" t with
  | none => none
  | some body =>
    let name := body.takeWhile fun (c : CodePoint) => c ≠ '\x7d' && c ≠ ':'
    let after := body.drop name.length
    match Text.after? ":-" after with
    | some rest =>
      let default := rest.takeWhile fun (c : CodePoint) => c ≠ '\x7d'
      if (rest.drop default.length).isEmpty then none
      else some (name, default, name.length + default.length + 5)
    | none => (Text.after? "\x7d" after).map fun _ => (name, [], name.length + 3)

/-- A value behind its first `skip` code points, with what they stand for in place of the
references. -/
def substitute (value : Text → Text → Text) : (skip : Nat) → Text → Text
  | _, [] => []
  | skip + 1, _ :: rest => substitute value skip rest
  | 0, c :: rest =>
    match reference? (c :: rest) with
    | some (name, default, length) => value name default ++ substitute value (length - 1) rest
    | none => c :: substitute value 0 rest

def values (surroundings : Assoc Text) (bs : List Binding) : Assoc (Option Text) :=
  bs.foldl (fun known b =>
    match b with
    | .assigns name value =>
      known.put name (value.map (substitute (lookUp surroundings known) 0))
    | _ => known) []

/-- The surroundings with a variable, unless they have it. The system takes no zero in a name or a
value, and no equals sign in a name. -/
def define (surroundings : Assoc Text) (name value : Text) : Except Fault (Assoc Text) :=
  if surroundings.has name then .ok surroundings
  else if 0 ∈ name ∨ 0 ∈ value then .error .zeroInText
  else if 0x3d ∈ name then .error .illegalVariable
  else .ok (surroundings.put name value)

def extend (surroundings : Assoc Text) (bs : List Binding) : Except Fault (Assoc Text) :=
  (values surroundings bs).foldlM (fun known (name, value) =>
    match value with
    | none => .ok known
    | some value => define known name value) surroundings

end EnvFile

end CategorySelection
