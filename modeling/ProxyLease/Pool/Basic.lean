import ProxyLease.Failure
import ProxyLease.Settings

/-!
# The state of a pool

A pool holds the records of all proxies it ever met, the registry of those that
belong to it, the census, the queue of proxies that wait for a probe and the line
of consumers that wait for a proxy. A consumer that waits owns an inbox, named by
a ticket. Everything that others can notice is written to the trace, in order.

A change of state is done in two strokes: `shift` or `claim` changes record and
census together, and `publish` tells the registry and the trace.
-/

namespace ProxyLease

/-- Names one inbox for ever. -/
abbrev Ticket := Nat

inductive LogLevel where
  | info
  | warn
  deriving DecidableEq

inductive Event where
  | fetch (source : String) (count : Nat)
  | check (proxy : Handle)
  | used (proxy : Handle) (success : Bool) (elapsed : Option Duration)
  | validated (proxy : Handle) (outcome : Outcome)
  | moved (proxy : Handle) (source target : Lifecycle)
  | counted (figures : Snapshot Float)
  | log (level : LogLevel) (text : String)

inductive Inbox where
  /-- Nothing was sent yet. -/
  | waiting
  | delivered (proxy : Handle)
  /-- Nothing will be sent any more. -/
  | hungUp
  /-- The consumer went away before anything was sent. -/
  | closed
  deriving DecidableEq

/-- A change of state that was applied and is still to be published. -/
structure Move where
  proxy : Handle
  source : Lifecycle
  target : Lifecycle
  /-- The proxy left the pool without expiring. -/
  detached : Bool
  figures : Snapshot Float

structure Pool where
  settings : Settings
  /-- Names of the sources in the order in which they are asked. -/
  sources : List String
  now : Instant
  records : Array (Record Float)
  registry : Registry
  census : Census Float
  chooser : Chooser
  /-- Waiting consumers, the one that came first at the front. -/
  line : List Ticket
  inboxes : Array Inbox
  /-- Proxies that wait for a probe. -/
  queue : List Handle
  running : Bool
  /-- How many proxies should be probed at a time. -/
  concurrency : Nat
  trace : Array Event

namespace Pool

/-- A pool over a registry that is already filled. -/
def create (settings : Settings) (sources : List String) (chooser : Chooser) (now : Instant)
    (records : Array (Record Float)) (registry : Registry) : Pool where
  settings := settings
  sources := sources
  now := now
  records := records
  registry := registry
  census := .empty now
  chooser := chooser
  line := []
  inboxes := #[]
  queue := []
  running := false
  concurrency := Nat.max settings.validationConcurrency 1
  trace := #[]

def record? (p : Pool) (h : Handle) : Option (Record Float) := p.records[h]?

def state? (p : Pool) (h : Handle) : Option Lifecycle := (p.record? h).map (·.state)

def modifyRecord (p : Pool) (h : Handle) (f : Record Float → Record Float) : Pool :=
  { p with records := p.records.modify h f }

def setState (p : Pool) (h : Handle) (s : Lifecycle) : Pool :=
  p.modifyRecord h fun r => { r with state := s }

def emit (p : Pool) (e : Event) : Pool := { p with trace := p.trace.push e }

def note (p : Pool) (level : LogLevel) (text : String) : Pool := p.emit (.log level text)

/-- The proxy as log lines name it. -/
def proxyText (p : Pool) (h : Handle) : String :=
  ((p.record? h).map (·.endpoint.text)).getD ""

def inbox (p : Pool) (t : Ticket) : Inbox := (p.inboxes[t]?).getD .closed

def setInbox (p : Pool) (t : Ticket) (i : Inbox) : Pool :=
  { p with inboxes := p.inboxes.setIfInBounds t i }

def isWaiting (p : Pool) (t : Ticket) : Bool := p.inbox t == .waiting

def proxiesIn (p : Pool) (s : Lifecycle) : List Handle :=
  p.registry.handles.filter fun h => p.state? h == some s

def registered (p : Pool) : List (Record Float) := p.registry.handles.filterMap p.record?

/-- Moves a proxy to another state than its own. -/
def shift? (p : Pool) (h : Handle) (target : Lifecycle) : Option (Pool × Move) :=
  match p.state? h with
  | none => none
  | some source =>
    if source = target then none
    else
      let census := p.census.change p.now source target
      some ({ p.setState h target with census }, ⟨h, source, target, false, census.snapshot⟩)

/-- Moves a proxy out of the one state it is expected in. -/
def shiftFrom? (p : Pool) (h : Handle) (source target : Lifecycle) : Option (Pool × Move) :=
  if p.state? h = some source then p.shift? h target else none

/-- Gives an available proxy to a consumer; a pool that hands proxies out only once
stops counting it. -/
def claim? (p : Pool) (h : Handle) : Option (Pool × Move) :=
  if p.state? h = some .available then
    let detached := p.settings.removeAfterGet
    let census :=
      if detached then p.census.remove p.now .available
      else p.census.change p.now .available .inUse
    some ({ p.setState h .inUse with census }, ⟨h, .available, .inUse, detached, census.snapshot⟩)
  else none

/-- Tells the registry and the trace about a move. -/
def publish (p : Pool) (m : Move) : Pool :=
  match p.record? m.proxy with
  | none => p
  | some r =>
    let registry :=
      if m.target = .expired ∨ m.detached then p.registry.remove r.id
      else p.registry.update r.id m.proxy
    ({ p with registry }.emit (.moved m.proxy m.source m.target)).emit (.counted m.figures)

/-- Counts a request that got its proxy. -/
def served (p : Pool) : Pool := { p with census := p.census.recordServed p.now }

def requested (p : Pool) : Pool := { p with census := p.census.recordRequest p.now }

end Pool
end ProxyLease
