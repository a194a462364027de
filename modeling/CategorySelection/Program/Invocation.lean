import CategorySelection.Arguments
import CategorySelection.Disk.Path
/-!
The command line of the program: the options before the command, the four commands, and what each of
them takes.
-/

namespace CategorySelection

open Arguments (Given)

/-- The changes that the command `edit` makes to an expression, and where it writes the result. -/
structure Edit where
  expression : Text := []
  includes : List (Given Text) := []
  excludes : List (Given Text) := []
  clears : List (Given Text) := []
  clearAll : Bool := false
  output : Option (Given Path) := none
  deriving Repr, DecidableEq

inductive CatalogTask
  | list
  | add (name : Text)
  | delete (name : Text)
  | restore
  deriving Repr, DecidableEq

inductive Command
  | parse (expression : Text)
  | edit (changes : Edit)
  | categories (task : CatalogTask)
  | serve (host : Option (Given Text)) (port : Option (Given Int))
  deriving Repr, DecidableEq

/-- A command line: the settings it gives itself, and the command. -/
structure Invocation where
  logLevel : Option (Given Text) := none
  envFile : Option (Given Path) := none
  storagePath : Option (Given Path) := none
  command : Command
  deriving Repr, DecidableEq

namespace Invocation

open Arguments

def helpOption : OptionForm := ⟨["-h", "--help"], .nothing, true⟩

def valued (name : Text) (taking : Taking) : OptionForm := ⟨[name], taking, false⟩

def programName : Text := "category-filter"

def logLevels : List Text := ["DEBUG", "INFO", "WARNING", "ERROR"]

def under (parts : List Text) : Text := Text.join " " (programName :: parts)

def editGrammar : Grammar :=
  .operand (under ["edit"])
    [helpOption, valued "--include" .text, valued "--exclude" .text, valued "--clear" .text,
      valued "--clear-all" .nothing, valued "--output" .text]
    "expression" false

def categoriesGrammar : Grammar :=
  let task (name : Text) : Text := under ["categories", name]
  .commands (under ["categories"]) [helpOption] "catalog_action"
    [("list", .bare (task "list") [helpOption]),
      ("add", .operand (task "add") [helpOption] "name" true),
      ("delete", .operand (task "delete") [helpOption] "name" true),
      ("restore", .bare (task "restore") [helpOption])]

def grammar : Grammar :=
  .commands programName
    [helpOption, valued "--log-level" (.oneOf logLevels), valued "--env-file" .text,
      valued "--storage-path" .text]
    "command"
    [("parse", .operand (under ["parse"]) [helpOption] "expression" true),
      ("edit", editGrammar),
      ("categories", categoriesGrammar),
      ("serve", .bare (under ["serve"])
        [helpOption, valued "--host" .text, valued "--port" .wholeNumber])]

def taskOf (r : Reading) : CatalogTask :=
  let name := (r.operand? "name").getD []
  let action := (r.operand? "catalog_action").getD []
  if action = Text.ofString "add" then .add name
  else if action = Text.ofString "delete" then .delete name
  else if action = Text.ofString "restore" then .restore
  else .list

def commandOf (r : Reading) : Command :=
  let expression := (r.operand? "expression").getD []
  let command := (r.operand? "command").getD []
  if command = Text.ofString "parse" then .parse expression
  else if command = Text.ofString "edit" then
    .edit {
      expression
      includes := r.values "--include"
      excludes := r.values "--exclude"
      clears := r.values "--clear"
      clearAll := (r.last? "--clear-all").isSome
      output := (r.last? "--output").map (·.map Path.ofText) }
  else if command = Text.ofString "categories" then .categories (taskOf r)
  else .serve (r.last? "--host") ((r.last? "--port").map (·.map fun t => (Numeral.int? t).getD 0))

def ofReading (r : Reading) : Invocation where
  logLevel := r.last? "--log-level"
  envFile := (r.last? "--env-file").map (·.map Path.ofText)
  storagePath := (r.last? "--storage-path").map (·.map Path.ofText)
  command := commandOf r

def ofArguments (given : List Text) : Except Refusal Invocation :=
  ofReading <$> Arguments.read grammar given

end Invocation

end CategorySelection
