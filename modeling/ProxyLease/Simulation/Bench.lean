import ProxyLease.Chooser
import ProxyLease.Simulation.Script

/-!
# Records on a bench

A bench holds records outside any pool, on one clock. Events can happen to them, a
chooser can choose among them, and a registry can hold some of them.
-/

namespace ProxyLease.Simulation

/-- The statistics at the beginning and after each event, with their instants. -/
def statisticsTrail (now : Instant) (s : Statistics Float) :
    List PastEvent → List (Instant × Statistics Float)
  | [] => [(now, s)]
  | e :: rest =>
    let (later, next) := e.apply now s
    (now, s) :: statisticsTrail later next rest

structure Bench where
  now : Instant
  records : Array (Record Float)

namespace Bench

def ofScripts (scripts : List ScriptedRecord) : Bench :=
  let (now, records) := buildAll 0 scripts
  ⟨now, records.toArray⟩

def happen (b : Bench) (h : Handle) (e : PastEvent) : Bench :=
  match b.records[h]? with
  | none => b
  | some r =>
    let (now, statistics) := e.apply b.now r.statistics
    ⟨now, b.records.setIfInBounds h { r with statistics }⟩

def weight (b : Bench) (h : Handle) : Float := ((b.records[h]?).map (·.weight b.now)).getD 0

def weights (b : Bench) : List Float := b.records.toList.map (·.weight b.now)

def handles (b : Bench) : List Handle := List.range b.records.size

end Bench

/-! ### Choosing -/

structure ChoiceTrial where
  bench : Bench
  chooser : Chooser

inductive ChoiceStep where
  /-- Chooses among some records, or all of them, with a draw. -/
  | choose (draw : Option Nat) (among : Option (List Handle))
  | weigh
  | happen (proxy : Handle) (event : PastEvent)

inductive ChoiceAnswer where
  | choice (proxy : Option (Record Float))
  | weights (list : List Float)
  | done

def withDraws (c : Chooser) (draws : List Nat) : Chooser :=
  match c with
  | .weighted _ => .weighted draws
  | .uniform _ => .uniform draws
  | _ => c

namespace ChoiceTrial

def step (t : ChoiceTrial) : ChoiceStep → ChoiceAnswer × ChoiceTrial
  | .choose draw among =>
    let candidates := among.getD t.bench.handles
    let (choice, chooser) := (withDraws t.chooser draw.toList).select t.bench.weight candidates
    (.choice (choice.bind fun h => t.bench.records[h]?), { t with chooser })
  | .weigh => (.weights t.bench.weights, t)
  | .happen h e => (.done, { t with bench := t.bench.happen h e })

def run (t : ChoiceTrial) : List ChoiceStep → List ChoiceAnswer
  | [] => []
  | s :: rest =>
    let (answer, next) := t.step s
    answer :: next.run rest

end ChoiceTrial

/-! ### Registering -/

structure RegistryTrial where
  bench : Bench
  registry : Registry

inductive RegistryStep where
  | add (proxy : Handle)
  | get (id : String)
  | update (proxy : Handle)
  | remove (id : String)
  | list
  | listState (state : Lifecycle)
  | survey
  | happen (proxy : Handle) (event : PastEvent)

inductive RegistryAnswer where
  | done
  | added (isNew : Bool)
  | found (proxy : Option Handle)
  | entries (list : List (String × Handle))
  | figures (snapshot : Snapshot Float)

namespace RegistryTrial

def id? (t : RegistryTrial) (h : Handle) : Option String := (t.bench.records[h]?).map (·.id)

def hasState (t : RegistryTrial) (s : Lifecycle) (h : Handle) : Bool :=
  (t.bench.records[h]?).any (·.state == s)

def step (t : RegistryTrial) : RegistryStep → RegistryAnswer × RegistryTrial
  | .add h =>
    match (t.id? h).bind (t.registry.add? · h) with
    | some registry => (.added true, { t with registry })
    | none => (.added false, t)
  | .get id => (.found (t.registry.get? id), t)
  | .update h =>
    match t.id? h with
    | some id => (.done, { t with registry := t.registry.update id h })
    | none => (.done, t)
  | .remove id => (.found (t.registry.get? id), { t with registry := t.registry.remove id })
  | .list => (.entries t.registry.entries, t)
  | .listState s => (.entries (t.registry.entries.filter (t.hasState s ·.2)), t)
  | .survey =>
    (.figures (.scan (t.registry.handles.filterMap fun h => t.bench.records[h]?)), t)
  | .happen h e => (.done, { t with bench := t.bench.happen h e })

def run (t : RegistryTrial) : List RegistryStep → List (RegistryAnswer × Nat)
  | [] => []
  | s :: rest =>
    let (answer, next) := t.step s
    (answer, next.registry.size) :: next.run rest

end RegistryTrial

end ProxyLease.Simulation
