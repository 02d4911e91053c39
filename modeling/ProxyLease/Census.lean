import ProxyLease.Lifecycle
import ProxyLease.Statistics

/-!
# The census of a pool

Running totals of the pool: proxies per state, probes, response times and
requests. Counts per state move only through `add`, `remove`, `change` and
`reset`, which keep the total equal to their sum. Every effective call notes its
time; a call that changes nothing leaves the time alone.
-/

namespace ProxyLease

structure StateCounts where
  pending : Nat
  validating : Nat
  available : Nat
  inUse : Nat
  cooldown : Nat
  disabled : Nat
  expired : Nat
  deriving DecidableEq

namespace StateCounts

def empty : StateCounts := ⟨0, 0, 0, 0, 0, 0, 0⟩

def get (c : StateCounts) : Lifecycle → Nat
  | .pending => c.pending
  | .validating => c.validating
  | .available => c.available
  | .inUse => c.inUse
  | .cooldown => c.cooldown
  | .disabled => c.disabled
  | .expired => c.expired

def set (c : StateCounts) (s : Lifecycle) (n : Nat) : StateCounts :=
  match s with
  | .pending => { c with pending := n }
  | .validating => { c with validating := n }
  | .available => { c with available := n }
  | .inUse => { c with inUse := n }
  | .cooldown => { c with cooldown := n }
  | .disabled => { c with disabled := n }
  | .expired => { c with expired := n }

@[simp] theorem get_empty (s : Lifecycle) : empty.get s = 0 := by cases s <;> rfl

@[simp] theorem get_set_self (c : StateCounts) (s : Lifecycle) (n : Nat) :
    (c.set s n).get s = n := by cases s <;> rfl

theorem get_set_of_ne (c : StateCounts) {s t : Lifecycle} (n : Nat) (h : t ≠ s) :
    (c.set s n).get t = c.get t := by
  cases s <;> cases t <;> first | rfl | exact absurd rfl h

def liveSum (c : StateCounts) : Nat :=
  c.pending + c.validating + c.available + c.inUse + c.cooldown + c.disabled

end StateCounts

structure Snapshot (R : Type) where
  timestamp : Instant
  total : Nat
  counts : StateCounts
  validations : Nat
  successfulValidations : Nat
  failedValidations : Nat
  requests : Nat
  successfulRequests : Nat
  waiting : Nat
  /-- Mean probe time in milliseconds. -/
  meanValidation : R
  /-- Mean response time in milliseconds. -/
  meanResponse : R
  successRate : R

namespace Snapshot

variable {R : Type}

/-- Proxies in a state; expired ones are never counted. -/
def count (s : Snapshot R) : Lifecycle → Nat
  | .expired => 0
  | state => s.counts.get state

def stateSum (s : Snapshot R) : Nat := s.counts.liveSum

end Snapshot

structure Census (R : Type) where
  counts : StateCounts
  total : Nat
  validations : Nat
  successfulValidations : Nat
  failedValidations : Nat
  validationMs : R
  responses : Nat
  responseMs : R
  requests : Nat
  successfulRequests : Nat
  waiting : Nat
  timestamp : Instant

namespace Census

variable {R : Type} [Scalar R]

def empty (now : Instant) : Census R :=
  ⟨.empty, 0, 0, 0, 0, Scalar.zero, 0, Scalar.zero, 0, 0, 0, now⟩

def count (c : Census R) (s : Lifecycle) : Nat := c.counts.get s

/-- A proxy entered in state `s`; an expired one is not counted. -/
def add (c : Census R) (now : Instant) (s : Lifecycle) : Census R :=
  if s = .expired then c
  else
    { c with
      counts := c.counts.set s (c.counts.get s + 1)
      total := c.total + 1
      timestamp := now }

/-- A proxy left from state `s`; leaving an empty state is ignored. -/
def remove (c : Census R) (now : Instant) (s : Lifecycle) : Census R :=
  if s = .expired then c
  else if c.counts.get s = 0 then c
  else
    { c with
      counts := c.counts.set s (c.counts.get s - 1)
      total := c.total - 1
      timestamp := now }

/-- A proxy moved. Expiry removes it; a move out of expiry, or out of a state that
counts nobody, is an arrival. -/
def change (c : Census R) (now : Instant) (source target : Lifecycle) : Census R :=
  if source = target then c
  else if target = .expired then c.remove now source
  else if source = .expired then c.add now target
  else if c.counts.get source = 0 then c.add now target
  else
    let left := c.counts.set source (c.counts.get source - 1)
    { c with
      counts := left.set target (left.get target + 1)
      timestamp := now }

/-- Forgets the counts per state and keeps the other totals. -/
def reset (c : Census R) (now : Instant) : Census R :=
  { c with counts := .empty, total := 0, timestamp := now }

def recordResponse (c : Census R) (now : Instant) (ms : R) : Census R :=
  { c with
    responses := c.responses + 1
    responseMs := c.responseMs + ms
    timestamp := now }

def recordValidation (c : Census R) (now : Instant) (o : Outcome) : Census R :=
  let ms : R := o.elapsed.toMillis
  let counted :=
    if o.isSuccess then
      { c with
        validations := c.validations + 1
        successfulValidations := c.successfulValidations + 1 }
    else
      { c with
        validations := c.validations + 1
        failedValidations := c.failedValidations + 1 }
  { counted with validationMs := counted.validationMs + ms }.recordResponse now ms

def recordUseTime (c : Census R) (now : Instant) (elapsed : Duration) : Census R :=
  c.recordResponse now elapsed.toMillis

def recordRequest (c : Census R) (now : Instant) : Census R :=
  { c with requests := c.requests + 1, timestamp := now }

def recordServed (c : Census R) (now : Instant) : Census R :=
  { c with successfulRequests := c.successfulRequests + 1, timestamp := now }

def beginWait (c : Census R) (now : Instant) : Census R :=
  { c with waiting := c.waiting + 1, timestamp := now }

def endWait (c : Census R) (now : Instant) : Census R :=
  { c with waiting := c.waiting - 1, timestamp := now }

inductive Entry where
  | add (state : Lifecycle)
  | remove (state : Lifecycle)
  | change (source target : Lifecycle)
  | reset
  | validation (outcome : Outcome)
  | useTime (elapsed : Duration)
  | request
  | served
  | beginWait
  | endWait

def enter (c : Census R) (now : Instant) : Entry → Census R
  | .add s => c.add now s
  | .remove s => c.remove now s
  | .change source target => c.change now source target
  | .reset => c.reset now
  | .validation o => c.recordValidation now o
  | .useTime d => c.recordUseTime now d
  | .request => c.recordRequest now
  | .served => c.recordServed now
  | .beginWait => c.beginWait now
  | .endWait => c.endWait now

/-- The figures to be shown, with averages over nothing taken as zero. -/
def snapshot (c : Census R) : Snapshot R where
  timestamp := c.timestamp
  total := c.total
  counts := c.counts
  validations := c.validations
  successfulValidations := c.successfulValidations
  failedValidations := c.failedValidations
  requests := c.requests
  successfulRequests := c.successfulRequests
  waiting := c.waiting
  meanValidation := Scalar.mean c.validationMs c.validations
  meanResponse := Scalar.mean c.responseMs c.responses
  successRate := Scalar.mean (Scalar.nat c.successfulValidations) c.validations

end Census
end ProxyLease
