import ProxyLease.Record
import ProxyLease.Source

/-!
# Scripts

A script says in advance how probes end, what sources name and what happened to a
record before a simulation begins. Scripted outcomes are made when they are due, so
that they carry the time of the simulation.
-/

namespace ProxyLease.Simulation

structure ScriptedVerdict where
  verdict : Verdict
  elapsed : Duration
  status : Option Nat
  error : Option String
  delay : Duration

namespace ScriptedVerdict

def standard : ScriptedVerdict := ⟨.success, .ofMillis 10, none, none, .zero⟩

/-- The outcome at the end of the probe. A timeout of which no more is said carries its
usual text. -/
def outcome (v : ScriptedVerdict) (now : Instant) : Outcome :=
  match v.verdict, v.error, v.status with
  | .success, _, status => .success now v.elapsed (status.getD 200)
  | .timeout, none, none => .timeout now v.elapsed
  | verdict, error, status =>
    let failed := Outcome.failed now verdict v.elapsed (error.getD "")
    match status with
    | none => failed
    | some code => failed.withStatus code

end ScriptedVerdict

/-- The verdicts of all probes: every proxy walks its own list, whose last verdict
repeats. -/
structure CheckScript where
  fallback : List ScriptedVerdict
  byId : List (String × List ScriptedVerdict)
  /-- How many verdicts each proxy has used. -/
  used : List (String × Nat)

namespace CheckScript

def next (s : CheckScript) (id : String) : ScriptedVerdict × CheckScript :=
  let list := (s.byId.lookup id).getD s.fallback
  let position := (s.used.lookup id).getD 0
  let verdict := (list[position]?).getD (list.getLast?.getD .standard)
  (verdict, { s with used := (id, position + 1) :: s.used.filter (·.1 ≠ id) })

end CheckScript

/-- A source in a simulation, in which nobody can be reached over a network. -/
structure ScriptedSource where
  source : Source
  /-- Names all its endpoints whatever it is asked for. -/
  ignoresCount : Bool
  delay : Duration

namespace ScriptedSource

/-- A source that answers at once and as it is asked. -/
def ofSource (source : Source) : ScriptedSource := ⟨source, false, .zero⟩

def answer (s : ScriptedSource) (count : Nat) : Except SourceFailure (List Endpoint) :=
  s.source.fetch .down 0 (if s.ignoresCount then 0 else count)

def extend (s : ScriptedSource) (more : List Endpoint) : ScriptedSource :=
  match s.source with
  | .fixed name list fails => { s with source := .fixed name (list ++ more) fails }
  | _ => s

def setFailing (s : ScriptedSource) (fails : Bool) : ScriptedSource :=
  match s.source with
  | .fixed name list _ => { s with source := .fixed name list fails }
  | _ => s

end ScriptedSource

/-- One event in the past of a record. -/
inductive PastEvent where
  | validated (verdict : ScriptedVerdict)
  | used (success : Bool) (elapsed : Option Duration) (verdict : Verdict)
  | pause (time : Duration)

def PastEvent.apply {R : Type} [Scalar R] (e : PastEvent) (now : Instant) (s : Statistics R) :
    Instant × Statistics R :=
  match e with
  | .validated v => (now, s.recordValidation (v.outcome now))
  | .used success elapsed verdict => (now, s.recordUse now success elapsed verdict)
  | .pause d => (now + d.ns, s)

/-- A record with a past. -/
structure ScriptedRecord where
  endpoint : Endpoint
  state : Lifecycle
  perSecond : Float
  past : List PastEvent

def ScriptedRecord.build (s : ScriptedRecord) (now : Instant) : Instant × Record Float :=
  let fresh : Record Float :=
    { Record.fresh s.endpoint now (burstOf s.perSecond) with state := s.state }
  let (later, statistics) := s.past.foldl (fun (t, st) e => e.apply t st) (now, fresh.statistics)
  (later, { fresh with statistics })

def buildAll (now : Instant) : List ScriptedRecord → Instant × List (Record Float)
  | [] => (now, [])
  | s :: rest =>
    let (later, record) := s.build now
    let (last, records) := buildAll later rest
    (last, record :: records)

end ProxyLease.Simulation
