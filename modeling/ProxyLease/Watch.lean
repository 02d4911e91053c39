import ProxyLease.Pool.Basic

/-!
# Watching a pool

The observer of a pool is told when a probe ends, when a proxy moves and when the
figures change. One that breaks down on an event was told about it all the same, and
a warning follows. A watch says which observer there is and what it records besides.
-/

namespace ProxyLease

inductive Notice where
  | validated
  | moved
  | counted
  deriving DecidableEq

def Event.notice? : Event → Option Notice
  | .validated _ _ => some .validated
  | .moved _ _ _ => some .moved
  | .counted _ => some .counted
  | _ => none

inductive Observer where
  | absent
  | steady
  /-- Breaks down on every event of one kind. -/
  | fragile (kind : Notice)
  deriving DecidableEq

structure Watch where
  observer : Observer
  logs : Bool
  uses : Bool

namespace Watch

/-- The warning after an observer broke down. -/
def breakdown : Event := .log .warn "Pool observer panicked while handling an event"

/-- An event as it reaches the observer, and what follows from that. -/
def deliver (o : Observer) (e : Event) : List Event :=
  match e.notice? with
  | none => [e]
  | some kind =>
    match o with
    | .absent => []
    | .steady => [e]
    | .fragile weak => if weak = kind then [e, breakdown] else [e]

def records (w : Watch) : Event → Bool
  | .log _ _ => w.logs
  | .used _ _ _ => w.uses
  | _ => true

def record (w : Watch) (trace : Array Event) : List Event :=
  (trace.toList.flatMap (deliver w.observer)).filter w.records

end Watch
end ProxyLease
