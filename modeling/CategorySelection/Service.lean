import CategorySelection.Service.OpenSessions
import CategorySelection.Service.Response
import CategorySelection.Service.Route
/-!
The service. It answers requests about a catalog, about expressions, and about sessions that clients
hold open. The body of a request is read before anything else is done, so a request with a bad body
changes nothing.
-/

namespace CategorySelection

namespace Service

/-- A request. Its path has no escapes left. -/
structure Request where
  method : Method
  path : Text
  body : Text := []
  deriving Repr

variable {σ : Type}

def withBody {α : Type} (read : Json → Checked α) (body : Text)
    (act : α → Action (World σ) Response) : Action (World σ) Response :=
  match readBody read body with
  | .error e => return .badBody e
  | .ok a => act a

def withSession (id : Text) (act : Action (Session × σ) Response) : Action (World σ) Response := do
  match ← useSession id with
  | none => return .noSession id
  | some s => onSession s act

def showSession : Action (Session × σ) Response := do
  return .done (Response.session (← Action.world).1)

def showCatalog (catalog : Catalog σ) : Action σ Json := do
  return Response.categories (← catalog.load)

def addCategory (catalog : Catalog σ) (name : Text) : Action σ Response := do
  match ← catalog.add name with
  | some why => return .notice 409 why.notice
  | none => return .created (← showCatalog catalog)

def writeExpression (marks : Assoc Mark) : Response :=
  match Checklist.ofMarks [] marks with
  | .error e => .notice 422 e.message
  | .ok checklist => .done (Response.expression checklist.expression)

def toggle (id name : Text) (direction : Direction) : Action (Session × σ) Response := do
  match ← (Session.toggle name direction).onFirst.attempt with
  | .ok _ => showSession
  | .error e =>
    if e.kind.isValue then
      Action.record
        { logger := Log.logger "api.routes", level := Log.Level.info
          message := .template "Rejected toggle in session %s: %s" [.string id, .string e.message] }
      return .notice 422 e.message
    else Action.fail e

def addThrough (catalog : Catalog σ) (name : Text) : Action (Session × σ) Response := do
  match ← Session.addCategory catalog name with
  | some why => return .notice 409 why.notice
  | none => showSession

def andShow (act : Action (Session × σ) Text) : Action (Session × σ) Response := do
  let _ ← act
  showSession

def answerCall (catalog : Catalog σ) (body : Text) : Call → Action (World σ) Response
  | .tellLive => return .done (.object [("status", .string "ok")])
  | .listCategories => onStore do return .done (← showCatalog catalog)
  | .addCategory => withBody readName body fun name => onStore (addCategory catalog name)
  | .deleteCategory name => onStore do
    catalog.delete name
    return .done (← showCatalog catalog)
  | .restoreCategories => onStore do
    catalog.restore
    return .done (← showCatalog catalog)
  | .parseExpression => withBody readExpression body fun t => do
    return .done (Response.marks (← Expression.read t))
  | .writeExpression => withBody readMarks body fun marks => return writeExpression marks
  | .openSession => withBody readExpression body fun t => do
    return .created (Response.session (← openSession catalog t))
  | .showSession id => withSession id showSession
  | .closeSession id => do
    if ← closeSession id then return .ended else return .noSession id
  | .toggle id => withBody readToggle body fun (name, direction) =>
    withSession id (toggle id name direction)
  | .clear id => withBody readName body fun name =>
    withSession id (andShow (Session.clear name).onFirst)
  | .clearAll id => withSession id (andShow Session.clearAll.onFirst)
  | .addThrough id => withBody readName body fun name => withSession id (addThrough catalog name)
  | .deleteThrough id name => withSession id (andShow (Session.deleteCategory catalog name))
  | .restoreThrough id => withSession id (andShow (Session.restore catalog))

def respond (catalog : Catalog σ) (r : Request) : Action (World σ) Response :=
  match Route.find r.method r.path with
  | .call call => answerCall catalog r.body call
  | .wrongMethod => return .wrongMethod
  | .moved => return .moved
  | .nowhere => return .notFound

/-- Answers a request. A response whose body cannot be sent is a fault; what the request has done
remains. -/
def answer (catalog : Catalog σ) (r : Request) : Action (World σ) Response := do
  let response ← respond catalog r
  let _ ← Action.ofExcept response.bytes
  return if r.method = .head then { response with body := none } else response

end Service

end CategorySelection
