import CategorySelection.Binary64
import CategorySelection.Fault.Kind
import CategorySelection.Json
/-!
Points in time, counted from the start of 1970, and the dates they fall on. A date is found by
counting days from the first of March of the year zero, so that a leap day is the last day of a
year, in cycles of 400 years, which all have the same number of days.
-/

namespace CategorySelection

inductive InstantFault
  | undefined
  | beyondClock
  | beyondCalendar
  | yearOutOfRange (year : Int)
  | notNumber (found : Text)
  deriving Repr, DecidableEq

namespace InstantFault

def kind : InstantFault → FaultKind
  | .undefined | .yearOutOfRange _ => .value
  | .beyondClock => .overflow
  | .beyondCalendar => .system
  | .notNumber _ => .type

def message : InstantFault → Text
  | .undefined => "Invalid value NaN (not a number)"
  | .beyondClock => "timestamp out of range for platform time_t"
  | .beyondCalendar => "[Errno 75] Value too large for defined data type"
  | .yearOutOfRange year => "year " ++ Text.ofInt year ++ " is out of range"
  | .notNumber found => "'" ++ found ++ "' object cannot be interpreted as an integer"

end InstantFault

/-- A point in time: whole seconds since the start of 1970, and millionths of a second after
them. -/
structure Instant where
  seconds : Int
  micros : Nat
  deriving Repr, DecidableEq, Inhabited

namespace Instant

/-- The instant that a whole number of seconds and a fraction of one make. The fraction is given by
a numerator and a denominator and goes to the nearest millionth by way of the nearest floating-point
number. -/
def ofParts (negative : Bool) (seconds num den : Nat) : Instant :=
  let micros :=
    match Binary64.ofQuotient negative (num * 1000000) den with
    | .finite _ m e => let (n, d) := Binary64.quotient m e; roundQuotient n d
    | _ => 0
  let (seconds, micros) := if micros = 1000000 then (seconds + 1, 0) else (seconds, micros)
  if negative then
    if micros = 0 then ⟨-(seconds : Int), 0⟩ else ⟨-(seconds : Int) - 1, 1000000 - micros⟩
  else ⟨seconds, micros⟩

def ofSeconds : Json → Except InstantFault Instant
  | .int n => .ok ⟨n, 0⟩
  | .bool b => .ok ⟨if b then 1 else 0, 0⟩
  | .float .notANumber => .error .undefined
  | .float (.infinity _) => .error .beyondClock
  | .float (.finite s m e) =>
    let (num, den) := Binary64.quotient m e
    .ok (ofParts s (num / den) (num % den) den)
  | value => .error (.notNumber value.kindName)

end Instant

structure Moment where
  year : Int
  month : Nat
  day : Nat
  hour : Nat
  minute : Nat
  second : Nat
  micros : Nat
  deriving Repr, DecidableEq, Inhabited

namespace Moment

def cycleDays : Int := 146097

def daysBefore1970 : Int := 719468

/-- The year within a cycle that a day of the cycle falls into; years begin in March here. -/
def yearOfCycle (day : Nat) : Nat := (day - day / 1460 + day / 36524 - day / 146096) / 365

def firstDay (year : Nat) : Nat := 365 * year + year / 4 - year / 100

def dateOf (day : Int) : Int × Nat × Nat :=
  let day := day + daysBefore1970
  let cycle := Int.fdiv day cycleDays
  let inCycle := (Int.fmod day cycleDays).toNat
  let year := yearOfCycle inCycle
  let inYear := inCycle - firstDay year
  let month := (5 * inYear + 2) / 153
  let first := (153 * month + 2) / 5
  (cycle * 400 + year + (if 10 ≤ month then 1 else 0),
    if month < 10 then month + 3 else month - 9, inYear - first + 1)

/-- The moment of an instant. The clock counts seconds in words of 64 bits, the calendar counts
years from 1900 in words of 32 bits, and a moment has a year from 1 to 9999. -/
def ofInstant (t : Instant) : Except InstantFault Moment :=
  let inDay := (Int.fmod t.seconds 86400).toNat
  let (year, month, day) := dateOf (Int.fdiv t.seconds 86400)
  if t.seconds < -(twoTo 63 : Nat) ∨ (twoTo 63 : Nat) ≤ t.seconds then .error .beyondClock
  else if year - 1900 < -(twoTo 31 : Nat) ∨ (twoTo 31 : Nat) ≤ year - 1900 then
    .error .beyondCalendar
  else if year < 1 ∨ 9999 < year then .error (.yearOutOfRange year)
  else .ok ⟨year, month, day, inDay / 3600, inDay / 60 % 60, inDay % 60, t.micros⟩

def ofSeconds (seconds : Json) : Except InstantFault Moment := do
  ofInstant (← Instant.ofSeconds seconds)

def clock (t : Moment) : Text :=
  Text.ofNatPadded 2 t.hour ++ ":" ++ Text.ofNatPadded 2 t.minute ++ ":" ++
    Text.ofNatPadded 2 t.second

def date (t : Moment) (year : Text) : Text :=
  year ++ "-" ++ Text.ofNatPadded 2 t.month ++ "-" ++ Text.ofNatPadded 2 t.day

/-- The form for people: to the thousandth of a second, later digits cut off, the year in as many
digits as it has. -/
def text (t : Moment) : Text :=
  t.date (Text.ofInt t.year) ++ " " ++ t.clock ++ "." ++ (Text.ofNatPadded 6 t.micros).first 3

/-- The form for programs: the year in four digits, the millionths only if there are any, and the
offset of the time zone. -/
def exact (t : Moment) : Text :=
  t.date (Text.ofNatPadded 4 t.year.toNat) ++ "T" ++ t.clock ++
    (if t.micros = 0 then ([] : Text) else "." ++ Text.ofNatPadded 6 t.micros) ++ "+00:00"

end Moment

end CategorySelection
