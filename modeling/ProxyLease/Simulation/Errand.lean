import ProxyLease.Simulation.Probing
import ProxyLease.Simulation.Scenario

/-!
# Errands through a pool

A pool of scripted peers is started, and couriers carry requests through it one
after the other. An errand ends when its courier has returned.
-/

namespace ProxyLease.Simulation

structure Errand where
  address : String
  /-- Whether the request can be sent more than once. -/
  repeatable : Bool
  method : String
  stopsFirst : Bool

structure ErrandReport where
  result : Except CourierFailure Response
  time : Instant
  events : List Event
  world : World

/-- A stage with couriers and the peers they reach. -/
structure Traffic where
  stage : Stage
  couriers : Array Courier
  link : Link
  targets : Array Target

namespace Traffic

def now (t : Traffic) : Instant := t.stage.now

/-- Lets couriers act. -/
def act (t : Traffic) (f : CourierWorld → CourierWorld) : Traffic :=
  let m := f ⟨t.stage.world, t.couriers⟩
  { t with stage := { t.stage with world := m.world }, couriers := m.couriers }

def mapStage (t : Traffic) (f : Stage → Stage) : Traffic := { t with stage := f t.stage }

def courierStage? (t : Traffic) (i : CourierId) : Option CourierStage :=
  (t.couriers[i]?).map (·.stage)

/-- Lets time pass until a request for a proxy has ended. -/
def await (t : Traffic) (call : CallId) : Traffic :=
  t.mapStage fun s =>
    let queued : Stage := Stage.settle { s with waiters := s.waiters ++ [⟨"", call, .plain⟩] }
    match queued.deadline? call with
    | none => queued
    | some deadline =>
      Stage.passTime (fun q => (q.deadline? call).isNone) deadline queued.now queued

/-- The request of a courier goes out and comes back, or is given up. -/
def deliver (t : Traffic) (i : CourierId) (method : String) (address : Url) (proxy : Handle) :
    Traffic :=
  match t.stage.pool.record? proxy, address.target with
  | some r, .ok url =>
    let timeout := t.stage.pool.settings.validationTimeout
    let (delivery, took) := (exchangeAt t.targets t.link r.endpoint).within timeout
    let targets := noteRequest t.targets t.link r.endpoint (requestHead method url [])
    let waited := t.mapStage fun s => s.settle.advanceTo (s.now + took.ns)
    { waited with targets }.act (·.arrive i delivery)
  | _, _ => t

/-- Goes on with a courier until it has returned. An attempt takes three rounds, so three
rounds for every attempt the retries allow are enough. -/
def finish (method : String) (address : Url) (i : CourierId) : Nat → Traffic → Traffic
  | 0, t => t
  | rounds + 1, t =>
    match t.courierStage? i with
    | some (.waiting call) => finish method address i rounds ((t.await call).act (·.resume i))
    | some (.pacing _ _) => finish method address i rounds (t.act (·.depart i))
    | some (.inFlight h _) => finish method address i rounds (t.deliver i method address h)
    | _ => t

def result (t : Traffic) (i : CourierId) : Except CourierFailure Response :=
  match t.courierStage? i with
  | some (.returned result) => result
  | _ => .error (.pool .cancelled)

/-- Sends a courier off and waits for its return. A request without a usable address is
given up before that. -/
def carry (t : Traffic) (e : Errand) : Except CourierFailure Response × Traffic :=
  match requestAddress e.address with
  | .error flaw => (.error (.transport .other flaw.message), t)
  | .ok address =>
    let (i, sent) := (CourierWorld.mk t.stage.world t.couriers).send ⟨address, e.repeatable⟩
    let rounds := 3 * (t.stage.pool.settings.retryCount + 1) + 1
    let ended := finish e.method address i rounds (t.act fun _ => sent)
    (ended.result i, ended)

def run (watch : Watch) (t : Traffic) (e : Errand) : ErrandReport × Traffic :=
  let began := t.mapStage fun s => if e.stopsFirst then s.forget.stop else s.forget
  let (result, carried) := began.carry e
  let ended := carried.mapStage (·.settle)
  (⟨result, ended.now, watch.record ended.stage.pool.trace, ended.stage.world⟩, ended)

def runAll (watch : Watch) (t : Traffic) : List Errand → List ErrandReport × Traffic
  | [] => ([], t)
  | e :: rest =>
    let (report, next) := t.run watch e
    let (reports, last) := next.runAll watch rest
    (report :: reports, last)

/-- A pool over one source that names all targets; it was started and is at rest. The
first registered proxy is always chosen. -/
def opening (settings : Settings) (checks : CheckScript) (link : Link) (targets : List Target) :
    Traffic :=
  let source := ScriptedSource.ofSource (.fixed "mock" (targets.map (·.endpoint)) false)
  let pool := Pool.create settings [source.source.name] (.scripted [] []) 0 #[] .empty
  let stage := Stage.ofPool pool [source] checks
  let started := match stage.start with
    | .ok s => s.settle
    | .error _ => stage
  ⟨started, #[], link, targets.toArray⟩

end Traffic
end ProxyLease.Simulation
