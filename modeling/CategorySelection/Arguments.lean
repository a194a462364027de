import CategorySelection.Assoc
import CategorySelection.Text.Numeral
import CategorySelection.Text.Quoted
/-!
Grammars of command lines. A program has options, whose names may be cut short as long as one option
is meant, and at most one operand or a choice of commands, each with a grammar of its own.
-/

namespace CategorySelection

namespace Arguments

inductive Taking
  | nothing
  | text
  | oneOf (choices : List Text)
  | wholeNumber
  deriving Repr, DecidableEq

/-- An option: its names and what it takes. The option that asks for help ends the reading. -/
structure OptionForm where
  names : List Text
  taking : Taking
  asksForHelp : Bool := false
  deriving Repr, DecidableEq

inductive Grammar
  | bare (program : Text) (options : List OptionForm)
  | operand (program : Text) (options : List OptionForm) (name : Text) (required : Bool)
  | commands (program : Text) (options : List OptionForm) (name : Text)
    (choices : List (Text × Grammar))

namespace Grammar

def program : Grammar → Text
  | .bare program _ | .operand program _ _ _ | .commands program _ _ _ => program

def options : Grammar → List OptionForm
  | .bare _ options | .operand _ options _ _ | .commands _ options _ _ => options

def needed : Grammar → List Text
  | .bare .. => []
  | .operand _ _ name required => if required then [name] else []
  | .commands _ _ name _ => [name]

end Grammar

inductive Complaint
  | ambiguous (given : Text) (candidates : List Text)
  | needsValue (argument : Text)
  | takesNoValue (argument value : Text)
  | notAmong (argument value : Text) (choices : List Text)
  | noNumber (argument value : Text)
  | missing (names : List Text)
  | unrecognized (given : List Text)
  deriving Repr, DecidableEq

def Complaint.message : Complaint → Text
  | .ambiguous given candidates =>
    "ambiguous option: " ++ given ++ " could match " ++ Text.join ", " candidates
  | .needsValue argument => "argument " ++ argument ++ ": expected one argument"
  | .takesNoValue argument value =>
    "argument " ++ argument ++ ": ignored explicit argument " ++ value.quoted
  | .notAmong argument value choices =>
    "argument " ++ argument ++ ": invalid choice: " ++ value.quoted ++ " (choose from " ++
      Text.join ", " (choices.map Text.quoted) ++ ")"
  | .noNumber argument value => "argument " ++ argument ++ ": invalid int value: " ++ value.quoted
  | .missing names => "the following arguments are required: " ++ Text.join ", " names
  | .unrecognized given => "unrecognized arguments: " ++ Text.join " " given

/-- Why a command line is not carried out: it asks for help, or a program complains. -/
inductive Refusal
  | help
  | complaint (program : Text) (what : Complaint)
  deriving Repr, DecidableEq

def Refusal.message : Refusal → Text
  | .help => []
  | .complaint program what => program ++ ": error: " ++ what.message

def Refusal.status : Refusal → Nat
  | .help => 0
  | .complaint .. => 2

/-- An argument, sorted by what it may be: an option with the value that is attached to it, the
dashes behind which there are no options, or anything else. -/
inductive Word
  | option (form : Option OptionForm) (name : Text) (attached : Option Text) (written : Text)
  | dashes
  | plain (t : Text)
  deriving Repr, DecidableEq

def dashes : Text := "--"

namespace Word

def written : Word → Text
  | .option _ _ _ t => t
  | .dashes => Arguments.dashes
  | .plain t => t

def isOption : Word → Bool
  | .option .. => true
  | _ => false

def isDashes : Word → Bool
  | .dashes => true
  | _ => false

end Word

def OptionForm.shown (form : OptionForm) : Text := Text.join "/" form.names

def namesOf (options : List OptionForm) : List (Text × OptionForm) :=
  options.flatMap fun form => form.names.map (·, form)

def named? (options : List OptionForm) (name : Text) : Option OptionForm :=
  ((namesOf options).find? (·.1 = name)).map (·.2)

def splitAttached (t : Text) : Text × Option Text :=
  let name := t.takeWhile fun (c : CodePoint) => c ≠ '='
  (name, Text.after? "=" (t.drop name.length))

/-- The options that a text may mean, with the name that each has and the value that is attached. A
long name may be cut short; a short one may have its value behind it. -/
def candidates (options : List OptionForm) (t : Text) : List (Text × OptionForm × Option Text) :=
  if (Text.after? dashes t).isSome then
    let (name, attached) := splitAttached t
    (namesOf options).filterMap fun (n, form) =>
      (Text.after? name n).map fun _ => (n, form, attached)
  else
    (namesOf options).filterMap fun (n, form) =>
      if n = t.take 2 then some (n, form, some (t.drop 2))
      else (Text.after? t n).map fun _ => (n, form, none)

def isNegativeNumber (t : Text) : Bool :=
  match Text.after? "-" t with
  | none => false
  | some rest =>
    let body := if rest.getLast? = some 0x0a then rest.dropLast else rest
    let whole := body.takeWhile Numeral.isDigit
    let rest := body.drop whole.length
    if rest.isEmpty then !whole.isEmpty
    else
      match Text.after? "." rest with
      | none => false
      | some fraction => !fraction.isEmpty && fraction.all Numeral.isDigit

def sortWord (options : List OptionForm) (t : Text) : Except Complaint Word :=
  if (Text.after? "-" t).isNone ∨ (t.length = 1 ∧ (named? options t).isNone) then .ok (.plain t)
  else
    let (name, attached) := splitAttached t
    match named? options t, if attached.isSome then named? options name else none with
    | some form, _ => .ok (.option (some form) t none t)
    | none, some form => .ok (.option (some form) name attached t)
    | none, none =>
      match candidates options t with
      | [(n, form, attached)] => .ok (.option (some form) n attached t)
      | [] =>
        if isNegativeNumber t || t.contains 0x20 then
          .ok (.plain t)
        else
          .ok (.option none t none t)
      | several => .error (.ambiguous t (several.map (·.1)))

/-- Sorts the arguments. Behind the dashes there are no options. -/
def sortWords (options : List OptionForm) : List Text → Except Complaint (List Word)
  | [] => .ok []
  | t :: rest =>
    if t = dashes then .ok (.dashes :: rest.map .plain)
    else do
      let word ← sortWord options t
      let words ← sortWords options rest
      return word :: words

/-- What an option is given. An option that takes nothing is given nothing, and so is one to which
two dashes alone are attached, since these stand for no value. -/
inductive Given (α : Type)
  | value (a : α)
  | nothing
  deriving Repr, DecidableEq

namespace Given

def toOption {α : Type} : Given α → Option α
  | .value a => some a
  | .nothing => none

def map {α β : Type} (f : α → β) : Given α → Given β
  | .value a => .value (f a)
  | .nothing => .nothing

end Given

/-- What a command line says: the options it gives and their values, the operands, and what is left
over, each in order. -/
structure Reading where
  options : List (Text × Given Text) := []
  operands : List (Text × Text) := []
  leftover : List Text := []
  deriving Repr, DecidableEq

namespace Reading

def andThen (r s : Reading) : Reading :=
  ⟨r.options ++ s.options, r.operands ++ s.operands, r.leftover ++ s.leftover⟩

def values (r : Reading) (name : Text) : List (Given Text) :=
  (r.options.filter (·.1 = name)).map (·.2)

def last? (r : Reading) (name : Text) : Option (Given Text) := (r.values name).getLast?

def operand? (r : Reading) (name : Text) : Option Text := Assoc.get? name r.operands

end Reading

def checkValue (form : OptionForm) (value : Text) : Except Complaint Unit :=
  match form.taking with
  | .oneOf choices =>
    if value ∈ choices then .ok () else .error (.notAmong form.shown value choices)
  | .wholeNumber =>
    if (Numeral.int? value).isSome then .ok () else .error (.noNumber form.shown value)
  | .nothing | .text => .ok ()

def OptionForm.key (form : OptionForm) : Text := form.names.getLast?.getD []

def give (form : OptionForm) (value : Given Text) : Reading := { options := [(form.key, value)] }

/-- The options that are meant by a short one that takes nothing with more letters behind it. -/
def bundle (options : List OptionForm) (form : OptionForm) : Text →
    Except Complaint (List OptionForm)
  | [] => .ok [form]
  | c :: rest =>
    match named? options (['-', c] : List CodePoint) with
    | none => .error (.takesNoValue form.shown (c :: rest))
    | some next => (form :: ·) <$> bundle options next rest

variable (g : Grammar)

def complain {α : Type} (what : Complaint) : Except Refusal α := .error (.complaint g.program what)

def checked {α : Type} : Except Complaint α → Except Refusal α
  | .ok a => .ok a
  | .error what => complain g what

/-- Gives an option with the value that is attached to it. Options with short names take nothing,
and may be written behind one dash together. -/
def giveAttached (form : OptionForm) (name value : Text) : Except Refusal Reading :=
  if form.taking ≠ .nothing then
    if value = dashes then return give form .nothing
    else do
      checked g (checkValue form value)
      return give form (.value value)
  else if (Text.after? dashes name).isSome ∨ value.isEmpty then
    complain g (.takesNoValue form.shown value)
  else do
    let forms ← checked g (bundle g.options form value)
    if forms.any (·.asksForHelp) then .error .help
    else return { options := forms.map fun form => (form.key, .nothing) }

/-- Reads what follows the last option: the operand, if it is still to come, and what is left over.
`enter` reads the words of a command. -/
def readRest (enter : List Text → Except Refusal Reading) (pending : Bool) (words : List Word) :
    Except Refusal Reading :=
  let given := words.map Word.written
  let start := words.takeWhile Word.isDashes
  let rest := words.drop start.length
  let all : Reading := { leftover := given }
  if !pending then .ok all
  else
    match g, rest with
    | .bare .., _ => .ok all
    | .commands .., _ :: _ => enter given
    | .operand _ _ name _, word :: rest =>
      .ok { operands := [(name, word.written)]
            leftover := (rest.dropWhile Word.isDashes).map Word.written }
    | .operand _ _ _ false, [] => .ok {}
    | _, [] => complain g (.missing g.needed)

/-- Reads the words of a program. `pending` tells whether its operand is still to come, and `enter`
reads the words of a command. -/
def readWords (enter : List Text → Except Refusal Reading) : (pending : Bool) → List Word →
    Except Refusal Reading
  | pending, [] => readRest g enter pending []
  | pending, word :: rest =>
    if !(word :: rest).any Word.isOption then readRest g enter pending (word :: rest)
    else
      match word with
      | .option none _ _ written =>
        ({ leftover := [written] } : Reading).andThen <$> readWords enter pending rest
      | .option (some form) name (some value) _ => do
        let first ← giveAttached g form name value
        first.andThen <$> readWords enter pending rest
      | .option (some form) _ none _ =>
        if form.asksForHelp then .error .help
        else if form.taking = .nothing then
          (give form .nothing).andThen <$> readWords enter pending rest
        else
          match rest with
          | .plain value :: rest => do
            checked g (checkValue form value)
            (give form (.value value)).andThen <$> readWords enter pending rest
          | _ => complain g (.needsValue form.shown)
      | word =>
        match pending, g with
        | true, .operand _ _ name _ =>
          ({ operands := [(name, word.written)] } : Reading).andThen <$> readWords enter false rest
        | true, .commands .. => enter ((word :: rest).map Word.written)
        | _, _ =>
          ({ leftover := [word.written] } : Reading).andThen <$> readWords enter pending rest

/-- Reads the arguments of a program; at most `depth` programs are entered one from the other. -/
def readWithin : (depth : Nat) → Grammar → List Text → Except Refusal Reading
  | 0, _, given => .ok { leftover := given }
  | depth + 1, g, given => do
    let words ← checked g (sortWords g.options given)
    let enter : List Text → Except Refusal Reading
      | [] => .ok {}
      | command :: rest =>
        match g with
        | .commands _ _ name choices =>
          match choices.find? (·.1 = command) with
          | none => complain g (.notAmong name command (choices.map (·.1)))
          | some (_, chosen) =>
            ({ operands := [(name, command)] } : Reading).andThen <$> readWithin depth chosen rest
        | _ => .ok {}
    readWords g enter true words

/-- Reads a command line. Each program that is entered takes an argument, so there are no more of
them than arguments. Nothing may be left over. -/
def read (given : List Text) : Except Refusal Reading := do
  let reading ← readWithin (given.length + 1) g given
  if reading.leftover.isEmpty then return reading
  else complain g (.unrecognized reading.leftover)

end Arguments

end CategorySelection
