import CategorySelection.Session
/-!
Commands of a session. A run of commands goes on after a command that failed, from what that command
left of the session and of the world.
-/

namespace CategorySelection.Session

variable {σ : Type}

inductive Opens (catalog : Catalog σ) (host : Text) : Session × σ → Prop
  | named {id : Text} {s : Session} {w : σ} :
    (openAs id catalog host w).result = .ok s →
      Opens catalog host (s, (openAs id catalog host w).world)
  | numbered {s : Session} {n : Nat} {w : σ} :
    (openNumbered catalog host (n, w)).result = .ok s →
      Opens catalog host (s, (openNumbered catalog host (n, w)).world.2)

/-- The commands that change marks. A category is switched in the direction that a word stands
for. -/
inductive Change
  | toggle (name direction : Text)
  | clear (name : Text)
  | clearAll
  deriving Repr, DecidableEq

def Change.perform : Change → Action Session Text
  | .toggle name direction =>
    do Session.toggle name (← Action.ofExcept (Direction.ofLabel direction))
  | .clear name => Session.clear name
  | .clearAll => Session.clearAll

def Change.effect : Change → Assoc Mark → Assoc Mark
  | .toggle name direction, marks =>
    match Direction.ofLabel direction with
    | .ok d => marks.put name d.mark
    | .error _ => marks
  | .clear name, marks => marks.erase name
  | .clearAll, _ => []

/-- Whether a change can be done: the name and the word must be good. -/
def Change.isGood : Change → Bool
  | .toggle name direction => (Direction.ofLabel direction).isOk && Category.isName name
  | .clear _ => true
  | .clearAll => true

/-- The commands of a session over a world. A commit may send the expression in any way. -/
inductive Command (σ : Type)
  | change (c : Change)
  | add (name : Text)
  | delete (name : Text)
  | restore
  | commit (send : Text → Action σ Unit) (override : Option Text)

/-- What a command gives: a text, or why a category could not be added. -/
inductive Reply
  | text (t : Text)
  | verdict (why : Option Catalog.Rejection)
  deriving Repr, DecidableEq

namespace Command

def change? : Command σ → Option Change
  | .change c => some c
  | _ => none

def perform (catalog : Catalog σ) : Command σ → Action (Session × σ) Reply
  | .change c => do return .text (← c.perform.onFirst)
  | .add name => do return .verdict (← addCategory catalog name)
  | .delete name => do return .text (← deleteCategory catalog name)
  | .restore => do return .text (← Session.restore catalog)
  | .commit send override => do return .text (← Session.commit send override)

/-- What is left of a session and the world after commands, whether or not some of them failed. -/
def after (catalog : Catalog σ) : List (Command σ) → Session × σ → Session × σ
  | [], w => w
  | command :: rest, w => after catalog rest (command.perform catalog w).world

end Command

end CategorySelection.Session
