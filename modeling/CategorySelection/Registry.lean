import CategorySelection.Fault
/-!
Registries. A registry keeps a limited number of items under ids, each for a limited time since it
was put in. A full registry makes room by giving up the item that has been in it for longest, so
an item that is put in again whenever it is used stays as long as it is used.
-/

namespace CategorySelection

/-- An item of a registry. It is there as long as the clock is below `expires`. -/
structure Registry.Entry (κ α : Type) where
  id : Text
  item : α
  expires : κ
  deriving Repr, DecidableEq

/-- A registry with its clock. The entries are in the order in which they were put in. -/
structure Registry (κ α : Type) where
  capacity : Nat
  lifetime : κ
  now : κ
  entries : List (Registry.Entry κ α) := []
  deriving Repr, DecidableEq

namespace Registry

variable {κ α : Type}

def make (capacity : Int) (lifetime now : κ) : Except Fault (Registry κ α) :=
  if capacity < 0 then .error .negativeCapacity else .ok ⟨capacity.toNat, lifetime, now, []⟩

variable [LT κ] [DecidableLT κ] [Add κ]

def isLive (r : Registry κ α) (e : Entry κ α) : Bool := r.now < e.expires

def expire (r : Registry κ α) : Registry κ α :=
  { r with entries := r.entries.dropWhile (!r.isLive ·) }

def size (r : Registry κ α) : Nat := r.expire.entries.length

def find? (r : Registry κ α) (id : Text) : Option α :=
  (r.entries.find? fun e => e.id = id && r.isLive e).map (·.item)

def has (r : Registry κ α) (id : Text) : Bool := r.entries.any (·.id = id)

def makeRoom (r : Registry κ α) : Registry κ α :=
  { r with entries := r.entries.drop (r.entries.length + 1 - r.capacity) }

/-- The registry with an item put in last. What was there under its id is given up. -/
def append (r : Registry κ α) (id : Text) (item : α) : Registry κ α :=
  { r with entries := r.entries.filter (·.id ≠ id) ++ [⟨id, item, r.now + r.lifetime⟩] }

/-- Puts an item in. A registry that holds nothing takes nothing. -/
def put (r : Registry κ α) (id : Text) (item : α) : Except Fault (Registry κ α) :=
  let r := r.expire
  if r.capacity = 0 then .error .noCapacity
  else .ok ((if r.has id then r else r.makeRoom).append id item)

def replace (r : Registry κ α) (id : Text) (item : α) : Registry κ α :=
  { r with entries := r.entries.map fun e => if e.id = id then { e with item } else e }

def remove (r : Registry κ α) (id : Text) : Registry κ α :=
  { r with entries := r.entries.filter (·.id ≠ id) }

def advance (r : Registry κ α) (time : κ) : Registry κ α := { r with now := r.now + time }

end Registry

end CategorySelection
