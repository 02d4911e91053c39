import ProxyLease.Pool.Basic

/-!
# Acquiring proxies

A pass asks the sources one after the other while there is room. Each is asked for
as many endpoints as fit, within the batch size; its answer is admitted endpoint
by endpoint, up to the capacity, and endpoints that are registered already are
skipped. A failing source is passed over.
-/

namespace ProxyLease

/-- A pass under way: how many sources have answered and how many proxies are new. -/
structure Pass where
  answered : Nat
  added : Nat
  deriving DecidableEq

def Pass.start : Pass := ⟨0, 0⟩

inductive PassStep where
  | ask (source : Nat) (count : Nat)
  | finish
  deriving DecidableEq

namespace Pool

/-- How many proxies fit. -/
def room (p : Pool) : Nat := p.settings.maxPoolSize - p.census.total

/-- How many endpoints a source is asked for when `room` proxies fit. -/
def askCount (p : Pool) : Nat :=
  if p.settings.fetchBatchSize = 0 then p.room else Nat.min p.settings.fetchBatchSize p.room

/-- Whether a new proxy is queued for a probe. -/
def admitsValidation (p : Pool) : Bool :=
  match p.settings.maxAvailableForValidation with
  | none => true
  | some ceiling => p.census.count .available < ceiling

def enqueue (p : Pool) (h : Handle) : Pool := { p with queue := p.queue ++ [h] }

/-- Registers the proxy of an endpoint, unless its identity is registered. -/
def admit? (p : Pool) (e : Endpoint) : Option Pool :=
  let h := p.records.size
  (p.registry.add? e.id h).map fun registry =>
    let census := p.census.add p.now .pending
    let added := { p with
      records := p.records.push (.fresh e p.now (burstOf p.settings.maxRequestsPerSecond))
      registry
      census }
    let told := added.emit (.counted census.snapshot)
    if told.admitsValidation then told.enqueue h else told

/-- Admits endpoints in turn while there is room, and counts the new proxies. -/
def admitAll (p : Pool) (added : Nat) : List Endpoint → Nat × Pool
  | [] => (added, p)
  | e :: rest =>
    if p.settings.maxPoolSize ≤ p.census.total then (added, p)
    else
      match p.admit? e with
      | none => p.admitAll added rest
      | some q => q.admitAll (added + 1) rest

/-- The next step of a pass. -/
def passStep (p : Pool) (pass : Pass) : PassStep :=
  if pass.answered < p.sources.length ∧ 0 < p.room then .ask pass.answered p.askCount
  else .finish

def sourceName (p : Pool) (source : Nat) : String := (p.sources[source]?).getD ""

def ask (p : Pool) (source count : Nat) : Pool := p.emit (.fetch (p.sourceName source) count)

/-- Takes in the answer of the source that was asked. -/
def receive (p : Pool) (pass : Pass) (answer : Except SourceFailure (List Endpoint)) :
    Pass × Pool :=
  match answer with
  | .error failure =>
    (⟨pass.answered + 1, pass.added⟩,
      p.note .warn
        ("Failed to fetch proxies from " ++ p.sourceName pass.answered ++ ": " ++ failure.message))
  | .ok endpoints =>
    let (added, q) := p.admitAll pass.added endpoints
    (⟨pass.answered + 1, added⟩, q)

/-- Sums a pass up. -/
def finishPass (p : Pool) (pass : Pass) : Pool :=
  let total := p.census.total
  let told := p.note .info
    ("Fetched " ++ toString pass.added ++ " new proxies, pool has " ++ toString total ++ " (" ++
      toString (p.census.count .available) ++ " available)")
  if total < p.settings.minPoolSize then
    told.note .warn
      ("Proxy pool below minimum size: " ++ toString total ++ "/" ++
        toString p.settings.minPoolSize)
  else told

/-- Runs the rest of a pass over sources that answer at once; `pending` are those that
have not answered, with their answer to a count. -/
def runPass (p : Pool) (pass : Pass) :
    List (Nat → Except SourceFailure (List Endpoint)) → Nat × Pool
  | [] => (pass.added, p.finishPass pass)
  | source :: pending =>
    match p.passStep pass with
    | .finish => (pass.added, p.finishPass pass)
    | .ask position count =>
      let (next, q) := (p.ask position count).receive pass (source count)
      q.runPass next pending

/-- Counts the registered proxies anew. -/
def recount (p : Pool) : Pool :=
  { p with
    census := (p.registered.map (·.state)).foldl (fun c s => c.add p.now s)
      (p.census.reset p.now) }

end Pool
end ProxyLease
