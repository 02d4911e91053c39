import ProxyLease.Census
import ProxyLease.Endpoint.Basic
import ProxyLease.Text.Quoted

/-!
# Records of pooled proxies

A record is what the pool keeps about one proxy: its endpoint, the time of its
discovery, its state, its statistics, and how many requests it may be sent at
once. A registry is surveyed by adding up the records in it.
-/

namespace ProxyLease

structure Record (R : Type) where
  endpoint : Endpoint
  createdAt : Instant
  state : Lifecycle
  statistics : Statistics R
  /-- Requests that may be sent without a pause. -/
  burst : Nat

/-- Requests a second, rounded up, at least one and below `2^32`. -/
def burstOf (perSecond : Float) : Nat :=
  Nat.max perSecond.ceil.toUInt32.toNat 1

namespace Record

variable {R : Type} [Scalar R]

def fresh (endpoint : Endpoint) (now : Instant) (burst : Nat) : Record R :=
  ⟨endpoint, now, .pending, .empty, burst⟩

def id (r : Record R) : String := r.endpoint.id

def age (r : Record R) (now : Instant) : Duration := .since r.createdAt now

def weight (r : Record R) (now : Instant) : R := r.statistics.weight now

def debugText (r : Record R) : String :=
  "Proxy \x7b id: " ++ Text.quoted r.id ++ ", type: " ++ r.endpoint.transport.name ++
    ", state: " ++ r.state.name ++ " \x7d"

end Record

/-- Sums over the live records of a registry. -/
structure Survey (R : Type) where
  census : Census R
  weightedMs : R
  responseMs : R
  uses : Nat
  successfulUses : Nat

namespace Survey

variable {R : Type} [Scalar R]

def empty : Survey R := ⟨.empty 0, Scalar.zero, Scalar.zero, 0, 0⟩

/-- Adds one record; an expired one is passed over. -/
def add (s : Survey R) (r : Record R) : Survey R :=
  if r.state = .expired then s
  else
    let c := s.census.add 0 r.state
    let t := r.statistics
    { census := { c with
        validations := c.validations + t.validations.total
        successfulValidations := c.successfulValidations + t.validations.successes
        failedValidations := c.failedValidations + t.validations.failures }
      weightedMs := s.weightedMs + t.latency.mean * Scalar.nat t.validations.total
      responseMs := s.responseMs + t.latency.mean
      uses := s.uses + t.uses.total
      successfulUses := s.successfulUses + t.uses.successes }

end Survey

namespace Snapshot

variable {R : Type} [Scalar R]

/-- The figures of a registry, computed from its records: requests are the uses of the
proxies, and nobody waits. -/
def scan (records : List (Record R)) : Snapshot R :=
  let s := records.foldl Survey.add Survey.empty
  let base := s.census.snapshot
  { base with
    meanValidation := Scalar.mean s.weightedMs base.validations
    meanResponse := Scalar.mean s.responseMs base.total
    requests := s.uses
    successfulRequests := s.successfulUses }

end Snapshot
end ProxyLease
