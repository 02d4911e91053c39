import ProxyLease.Record

/-!
# The registry

A registry maps identities to handles of records and keeps its entries sorted by
identity. An identity is registered once: adding it again is refused, and
updating one that is not registered does nothing.
-/

namespace ProxyLease

/-- Names one record for ever, also after it has left the registry. -/
abbrev Handle := Nat

structure Registry where
  entries : List (String × Handle)
  deriving DecidableEq

namespace Registry

def empty : Registry := ⟨[]⟩

def get? (r : Registry) (id : String) : Option Handle := r.entries.lookup id

def handles (r : Registry) : List Handle := r.entries.map (·.2)

def size (r : Registry) : Nat := r.entries.length

/-- Puts an entry in its place among sorted entries. -/
def insertEntry (id : String) (h : Handle) : List (String × Handle) → List (String × Handle)
  | [] => [(id, h)]
  | e :: rest => if id < e.1 then (id, h) :: e :: rest else e :: insertEntry id h rest

/-- Registers a handle, unless its identity is taken. -/
def add? (r : Registry) (id : String) (h : Handle) : Option Registry :=
  match r.get? id with
  | some _ => none
  | none => some ⟨insertEntry id h r.entries⟩

def update (r : Registry) (id : String) (h : Handle) : Registry :=
  ⟨r.entries.map fun e => if e.1 = id then (id, h) else e⟩

def remove (r : Registry) (id : String) : Registry :=
  ⟨r.entries.filter fun e => e.1 ≠ id⟩

end Registry
end ProxyLease
