import CategorySelection.Disk
/-!
Handing an expression to a host that reads it from a file.
-/

namespace CategorySelection

namespace Session

/-- Writes an expression and a line feed into a file. The file is emptied first, so it stays empty
if the expression cannot be encoded, and holds a part of the line if the system takes no more. -/
def sendToFile (p : Path) (expression : Text) : Action Disk Unit := do
  Action.ofExcept (Disk.checkPath p)
  match (← Action.world).openEmpty p with
  | .error e => Action.fail (.uncommitted p.text e)
  | .ok (l, d) =>
    match Utf8.encode (expression ++ "\n") with
    | .error e =>
      Action.setWorld d
      Action.fail (.encoding e)
    | .ok bytes =>
      let (d, filled) := d.fill l bytes
      Action.setWorld d
      Action.ofExcept (filled.mapError (.uncommitted p.text))

end Session

end CategorySelection
