import CategorySelection.Text
/-!
Paths. A path is kept without the empty parts and the single dots it may be written with; two dots
stay, since they mean the directory above only once the path is followed.
-/

namespace CategorySelection

/-- A path: what it starts at, nothing for a relative one, and its parts. -/
structure Path where
  root : Text
  parts : List Text
  deriving Repr, DecidableEq, Inhabited

namespace Path

def significant (parts : List Text) : List Text :=
  parts.filter fun part => !part.isEmpty && part ≠ Text.ofString "."

/-- The slashes at the front of a text, as the root of a path: exactly two of them are kept, and
otherwise one stands for all. -/
def rootOf (t : Text) : Text :=
  match (t.takeWhile (· = 0x2f)).length with
  | 0 => []
  | 2 => "//"
  | _ => "/"

def ofText (t : Text) : Path := ⟨rootOf t, significant (Text.split '/' t)⟩

/-- How a path is written; the relative path without parts is a dot. -/
def text (p : Path) : Text :=
  match p.root, p.parts with
  | [], [] => "."
  | root, parts => root ++ Text.join "/" parts

def name (p : Path) : Text := p.parts.getLast?.getD []

def parent (p : Path) : Path := ⟨p.root, p.parts.dropLast⟩

def child (p : Path) (name : Text) : Path := ⟨p.root, p.parts ++ [name]⟩

def sibling (p : Path) (name : Text) : Path := p.parent.child name

def under (base p : Path) : Path := if p.root.isEmpty then ⟨base.root, base.parts ++ p.parts⟩ else p

end Path

end CategorySelection
