import CategorySelection.Fault
import CategorySelection.Log.Record
/-!
Fields that callers attach to a record. Some of them are context fields and one is the tag; the
names of the record's own parts are refused, and all other names are carried along unseen.
-/

namespace CategorySelection

namespace Log

def Record.ownParts : List Text :=
  ["name", "msg", "args", "levelname", "levelno", "pathname", "filename", "module", "exc_info",
    "exc_text", "stack_info", "lineno", "funcName", "created", "msecs", "relativeCreated", "thread",
    "threadName", "processName", "process", "message", "asctime"]

namespace Context

def pick (fields : Assoc Json) : Context :=
  ⟨fields.get? "session_id", fields.get? "category", fields.get? "storage_key"⟩

def selfField : Text := "self"

def ofFields (fields : Assoc Json) : Except Fault Context :=
  let unknown := Text.sortedSet (fields.names.filter fun n => !Context.fields.contains n)
  if fields.has selfField then .error .contextNamesSelf
  else if unknown.isEmpty then .ok (pick fields) else .error (.unknownContext unknown)

end Context

namespace Record

def tagField : Text := "diagnostic_tag"

def attach (r : Record) (fields : Assoc Json) : Except Fault Record :=
  match fields.names.find? ownParts.contains with
  | some name => .error (.reservedField name)
  | none =>
    .ok { r with
      context := r.context.extendedBy (Context.pick fields)
      tag := fields.get? tagField <|> r.tag }

/-- A record with fields attached by the caller, below the context fields of its logger. The logger
above all others has no context. -/
def inContext (r : Record) (context attached : Assoc Json) : Except Fault Record := do
  if r.logger = rootLogger then throw .contextAtRoot
  let context ← Context.ofFields context
  let r ← r.attach attached
  return { r with context := r.context.extendedBy context }

end Record

end Log

end CategorySelection
