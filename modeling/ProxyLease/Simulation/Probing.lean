import ProxyLease.Probe.Http

/-!
# Probes of peers

A prober and its targets on one clock. A probe takes the time of its exchange, and
every peer keeps the requests that reached it.
-/

namespace ProxyLease.Simulation

/-- A request as a peer sees it: its first line, then the headers that were asked for. -/
def requestHead (method : String) (target : Url) (headers : List (String × String)) : String :=
  headers.foldl (fun head h => head ++ "|" ++ h.1.toLower ++ ": " ++ h.2)
    (method ++ " " ++ target.text ++ " HTTP/1.1")

/-- A proxy, the peer that plays it, and the requests that reached the peer. -/
structure Target where
  endpoint : Endpoint
  peer : Peer
  requests : List String

/-- The target at the address of an endpoint. -/
def targetAt? (targets : Array Target) (e : Endpoint) : Option Target :=
  targets.find? (·.endpoint.id == e.id)

/-- What the next request through a client built from an endpoint comes to. -/
def exchangeAt (targets : Array Target) (link : Link) (e : Endpoint) : Exchange :=
  match targetAt? targets e with
  | none => .refused
  | some t => t.peer.exchange link e.transport t.requests.length

/-- The targets after a request through a client built from an endpoint. -/
def noteRequest (targets : Array Target) (link : Link) (e : Endpoint) (head : String) :
    Array Target :=
  targets.map fun t =>
    if t.endpoint.id == e.id && t.peer.isReached link e.transport then
      { t with requests := t.requests ++ [head] }
    else t

structure ProbeTrial where
  now : Instant
  link : Link
  prober : HttpProber
  targets : Array Target

inductive ProbeStep where
  | check (target : Nat)
  | pause (time : Duration)

structure ProbeReport where
  outcome : Option Outcome
  cached : Nat

namespace ProbeTrial

def head? (t : ProbeTrial) : Option String :=
  (requestTarget t.prober.settings.validationUrl).toOption.map fun url =>
    requestHead "GET" url t.prober.settings.headers

def check (t : ProbeTrial) (target : Target) : Outcome × ProbeTrial :=
  let (probe, prober) := t.prober.check t.now target.endpoint (exchangeAt t.targets t.link)
  let targets := match probe.client, t.head? with
    | some client, some head => noteRequest t.targets t.link client head
    | _, _ => t.targets
  (probe.outcome, { t with now := t.now + probe.took.ns, prober, targets })

def step (t : ProbeTrial) : ProbeStep → Option Outcome × ProbeTrial
  | .check i =>
    match t.targets[i]? with
    | none => (none, t)
    | some target =>
      let (outcome, next) := t.check target
      (some outcome, next)
  | .pause d => (none, { t with now := t.now + d.ns })

def run (t : ProbeTrial) : List ProbeStep → List ProbeReport × Array Target
  | [] => ([], t.targets)
  | s :: rest =>
    let (outcome, next) := t.step s
    let (reports, targets) := next.run rest
    (⟨outcome, next.prober.clients.size⟩ :: reports, targets)

end ProbeTrial
end ProxyLease.Simulation
