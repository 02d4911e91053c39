import ProxyLease.Simulation.Stage
import ProxyLease.Watch

/-!
# Scenarios

A scenario sets a pool up and gives it commands, one after the other. Every command
runs to its end, then every task runs until it waits, and then it is reported what
the command answered, what was seen meanwhile and how the pool stands.
-/

namespace ProxyLease.Simulation

/-- Which proxy a command is about. -/
inductive ProxyName where
  /-- The first registered proxy in use. -/
  | firstInUse
  | named (id : String)
  deriving DecidableEq

inductive Command where
  | start
  | stop
  | fetch
  | tryGet
  | get (label : String) (timeout : Option Duration) (style : WaitStyle)
  /-- Cancels the request under a label, also one still to come. -/
  | cancel (label : String)
  | leave (label : String)
  | reportSuccess (proxy : ProxyName) (elapsed : Duration)
  | reportFailure (proxy : ProxyName) (verdict : Verdict)
  | inspect (id : String)
  | setConcurrency (workers : Nat)
  | advance (time : Duration)
  | list (state : Lifecycle)
  | survey
  | extendSource (source : Nat) (list : List Endpoint)
  | setFailing (source : Nat) (fails : Bool)

inductive Answer where
  | done
  | refused (failure : PoolFailure)
  | added (proxies : Nat)
  | handedOut (proxy : Option (Record Float))
  | unknown
  | record (record : Record Float)
  | identities (list : List String)
  | figures (snapshot : Snapshot Float)

structure Report where
  answer : Answer
  events : List Event
  ended : List EndedRequest
  /-- The world when every task waits again. -/
  world : World

namespace Stage

/-- A pool on a stage before anything happens; the registered records are known. -/
def ofPool (pool : Pool) (sources : List ScriptedSource) (checks : CheckScript) : Stage :=
  learnNew
    { world := .ofPool pool
      sources := sources.toArray
      checks
      idle := []
      probes := []
      questions := []
      waiters := []
      cancelled := []
      known := []
      ended := [] }

def find? (s : Stage) : ProxyName → Option Handle
  | .firstInUse =>
    (s.pool.proxiesIn .inUse).head?.bind fun h =>
      (s.pool.record? h).bind fun r => s.known.lookup r.id
  | .named id => s.known.lookup id

def start (s : Stage) : Except PoolFailure Stage :=
  match s.world.start with
  | (.failed failure, _) => .error failure
  | (.already, _) => .ok s
  | (.fetching pass, world) => .ok ({ s with world }.finishPass pass)

def stop (s : Stage) : Stage :=
  match s.world.stop with
  | (some stop, world) => { s with world }.finishStop stop
  | (none, _) => s

/-- Runs a pass of acquisition and counts the new proxies. -/
def fetch (s : Stage) : Nat × Stage :=
  let (pass, world) := s.world.beginPass
  let fetched : Stage := { s with world }.finishPass pass
  match fetched.world.passes[pass]? with
  | some (.finished added) => (added, fetched)
  | _ => (0, fetched)

def report (s : Stage) (proxy : ProxyName) (f : Handle → Pool → Pool) : Answer × Stage :=
  match s.find? proxy with
  | none => (.unknown, s)
  | some h => (.done, s.mapWorld (·.mapPool (f h)))

/-- The caller of a labelled request goes away. -/
def leave (s : Stage) (label : String) : Stage :=
  let (gone, others) := s.waiters.partition (·.label = label)
  gone.foldl (fun q v => q.mapWorld (·.abandon v.call)) { s with waiters := others }

def perform (s : Stage) : Command → Answer × Stage
  | .start =>
    match s.start with
    | .error failure => (.refused failure, s)
    | .ok started => (.done, started)
  | .stop => (.done, s.stop)
  | .fetch =>
    let (added, fetched) := s.fetch
    (.added added, fetched)
  | .tryGet =>
    let (found, world) := s.world.tryGet
    let asked := { s with world }
    match found with
    | none => (.handedOut none, asked)
    | some h => (.handedOut (asked.pool.record? h), asked.learn h)
  | .get label timeout style =>
    let (call, world) := s.world.get timeout
    (.done, { s with world, waiters := s.waiters ++ [⟨label, call, style⟩] })
  | .cancel label => (.done, { s with cancelled := label :: s.cancelled })
  | .leave label => (.done, s.leave label)
  | .reportSuccess proxy elapsed => s.report proxy fun h p => p.reportSuccess h elapsed
  | .reportFailure proxy verdict => s.report proxy fun h p => p.reportFailure h verdict
  | .inspect id =>
    match (s.known.lookup id).bind s.pool.record? with
    | none => (.unknown, s)
    | some record => (.record record, s)
  | .setConcurrency n =>
    match s.world.setConcurrency n with
    | .error failure => (.refused failure, s)
    | .ok world => (.done, { s with world })
  | .advance time => (.done, s.advanceTo (s.now + time.ns))
  | .list state =>
    (.identities (((s.pool.proxiesIn state).filterMap s.pool.record?).map (·.id)), s)
  | .survey => (.figures (.scan s.pool.registered), s)
  | .extendSource i list =>
    (.done, { s with sources := s.sources.modify i (·.extend list) })
  | .setFailing i fails =>
    (.done, { s with sources := s.sources.modify i (·.setFailing fails) })

def forget (s : Stage) : Stage :=
  { s with ended := [] }.mapWorld (·.mapPool fun p => { p with trace := #[] })

/-- Runs a command and lets every task run until it waits. -/
def step (watch : Watch) (s : Stage) (c : Command) : Report × Stage :=
  let (answer, acted) := s.forget.perform c
  let settled := acted.settle.learnNew
  (⟨answer, watch.record settled.pool.trace, settled.ended, settled.world⟩, settled)

def runCommands (watch : Watch) (s : Stage) : List Command → List Report
  | [] => []
  | c :: rest =>
    let (report, next) := s.step watch c
    report :: next.runCommands watch rest

end Stage

structure Scenario where
  settings : Settings
  sources : List ScriptedSource
  checks : CheckScript
  chooser : Chooser
  /-- Records in the registry before the pool is made. -/
  registered : List ScriptedRecord
  watch : Watch
  commands : List Command

namespace Scenario

/-- Registers records in turn; a record whose identity is taken is left out. -/
def enroll (records : List (Record Float)) : Array (Record Float) × Registry :=
  records.foldl
    (fun (kept, registry) r =>
      match registry.add? r.id kept.size with
      | some next => (kept.push r, next)
      | none => (kept, registry))
    (#[], .empty)

def opening (s : Scenario) : Stage :=
  let (now, records) := buildAll 0 s.registered
  let (kept, registry) := enroll records
  let pool := Pool.create s.settings (s.sources.map (·.source.name)) s.chooser now kept registry
  .ofPool pool s.sources s.checks

def run (s : Scenario) : List Report := s.opening.runCommands s.watch s.commands

end Scenario
end ProxyLease.Simulation
