import ProxyLease.Probe.Http
import ProxyLease.World.Basic

/-!
# Couriers

A courier carries one request through proxies of a pool. Each attempt takes a
proxy, waits until the proxy may be sent another request, sends it and reports how
it went. A failed attempt is followed by another one with another proxy, up to the
number of retries in the settings. A request that cannot be repeated is refused
before any proxy is taken, and a pool that has no proxy ends the request.
-/

namespace ProxyLease

abbrev CourierId := Nat

inductive TransportFailure where
  | timeout
  | connect
  | other
  deriving DecidableEq

inductive CourierFailure where
  | notRepeatable
  | pool (failure : PoolFailure)
  | authentication (proxy : String)
  | transport (failure : TransportFailure) (text : String)

def CourierFailure.message : CourierFailure → String
  | .notRepeatable =>
    "Request object is not cloneable. Are you passing a streaming body?"
  | .pool failure => failure.message
  | .authentication proxy => "Proxy " ++ proxy ++ " requires authentication"
  | .transport _ text => text

/-- What a courier carries. -/
structure Parcel where
  address : Url
  /-- Whether the request can be sent more than once. -/
  repeatable : Bool

inductive CourierStage where
  | waiting (call : CallId)
  /-- Holds a proxy and waits until it may be sent a request. -/
  | pacing (proxy : Handle) (since : Instant)
  | inFlight (proxy : Handle) (since : Instant)
  | returned (result : Except CourierFailure Response)
  /-- The caller went away; the proxy held then, if any, was not reported. -/
  | abandoned (holding : Option Handle)

structure Courier where
  parcel : Parcel
  /-- Attempts that failed. -/
  failures : Nat
  stage : CourierStage

structure CourierWorld where
  world : World
  couriers : Array Courier

namespace CourierWorld

def ofWorld (world : World) : CourierWorld := ⟨world, #[]⟩

def setStage (m : CourierWorld) (i : CourierId) (stage : CourierStage) : CourierWorld :=
  { m with couriers := m.couriers.modify i fun c => { c with stage } }

def pool (m : CourierWorld) : Pool := m.world.pool

/-- What a courier does once its request for a proxy has ended. -/
def collect (m : CourierWorld) (i : CourierId) (call : CallId) : CourierWorld :=
  match m.world.calls[call]? with
  | some (.returned h) => m.setStage i (.pacing h m.world.now)
  | some (.refused failure) => m.setStage i (.returned (.error (.pool failure)))
  | some (.waiting _ _ _) => m.setStage i (.waiting call)
  | _ => m

/-- Begins an attempt: asks the pool for a proxy. -/
def attempt (m : CourierWorld) (i : CourierId) : CourierWorld :=
  let (call, world) := m.world.get none
  { m with world }.collect i call

def send (m : CourierWorld) (parcel : Parcel) : CourierId × CourierWorld :=
  let i := m.couriers.size
  let hired (stage : CourierStage) : CourierWorld :=
    { m with couriers := m.couriers.push ⟨parcel, 0, stage⟩ }
  if parcel.repeatable then (i, (hired (.abandoned none)).attempt i)
  else (i, hired (.returned (.error .notRepeatable)))

/-- A waiting courier finds that its request for a proxy has ended. -/
def resume (m : CourierWorld) (i : CourierId) : CourierWorld :=
  match m.couriers[i]? with
  | some ⟨_, _, .waiting call⟩ => m.collect i call
  | _ => m

/-- Reports a failed attempt and begins another one, unless the retries are used up. -/
def fail (m : CourierWorld) (i : CourierId) (proxy : Handle) (verdict : Verdict)
    (failure : CourierFailure) : CourierWorld :=
  match m.couriers[i]? with
  | none => m
  | some c =>
    let failures := c.failures + 1
    let warned := m.world.mapPool fun p => (p.note .warn
      ("Request failed with proxy " ++ p.proxyText proxy ++ " (attempt " ++ toString failures ++
        "): " ++ failure.message)).reportFailure proxy verdict
    let counted : CourierWorld :=
      ⟨warned, m.couriers.modify i fun c => { c with failures }⟩
    if m.pool.settings.retryCount < failures then
      counted.setStage i (.returned (.error failure))
    else counted.attempt i

/-- Ends the attempt of a courier whose request came back. -/
def arrive (m : CourierWorld) (i : CourierId) (delivery : Delivery) : CourierWorld :=
  match m.couriers[i]? with
  | some ⟨parcel, _, .inFlight h since⟩ =>
    let text := match parcel.address.target with
      | .ok url => exchangeFailure url
      | .error flaw => flaw.message
    match delivery with
    | .answered answer =>
      if answer.status = 407 then
        m.fail i h .authenticationFailed (.authentication (m.pool.proxyText h))
      else
        let elapsed := Duration.since since m.world.now
        let reported := m.world.mapPool (·.reportSuccess h elapsed)
        { m with world := reported }.setStage i (.returned (.ok answer))
    | .timedOut => m.fail i h .timeout (.transport .timeout text)
    | .refused => m.fail i h .connectionFailed (.transport .connect text)
    | .broken => m.fail i h .exception (.transport .other text)
  | _ => m

/-- Puts a paced request on its way, unless the proxy or the target has no usable address. -/
def depart (m : CourierWorld) (i : CourierId) : CourierWorld :=
  match m.couriers[i]? with
  | some ⟨parcel, _, .pacing h since⟩ =>
    let usable := ((m.pool.record? h).map fun r => r.endpoint.url.isOk).getD false
    if usable then
      match parcel.address.target with
      | .ok _ => m.setStage i (.inFlight h since)
      | .error flaw => m.fail i h .exception (.transport .other flaw.message)
    else m.fail i h .exception (.transport .other RequestFlaw.unusable.message)
  | _ => m

def abandon (m : CourierWorld) (i : CourierId) : CourierWorld :=
  match m.couriers[i]? with
  | some ⟨_, _, .waiting call⟩ =>
    { m with world := m.world.abandon call }.setStage i (.abandoned none)
  | some ⟨_, _, .pacing h _⟩ => m.setStage i (.abandoned (some h))
  | some ⟨_, _, .inFlight h _⟩ => m.setStage i (.abandoned (some h))
  | _ => m

end CourierWorld
end ProxyLease
