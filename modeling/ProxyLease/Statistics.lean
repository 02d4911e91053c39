import ProxyLease.Outcome
import ProxyLease.Scalar

/-!
# Reliability and latency of one proxy

Probes and uses are counted apart. Both feed the run of successes or failures,
the times of the last success and failure, and, when they were timed, one
running mean of the response times in milliseconds.
-/

namespace ProxyLease

namespace Duration

variable {R : Type} [Scalar R]

/-- Whole seconds plus the fraction of a second. -/
def toSeconds (d : Duration) : R :=
  Scalar.nat d.seconds + Scalar.nat d.subsecNanos / Scalar.nat perSecond

def toMillis (d : Duration) : R := d.toSeconds * Scalar.nat 1000

end Duration

/-- Events of one sort, by result. -/
structure Tally where
  total : Nat
  successes : Nat
  failures : Nat
  timeouts : Nat
  deriving DecidableEq

namespace Tally

def empty : Tally := ⟨0, 0, 0, 0⟩

/-- Counts one event; a timeout is a failure with that verdict. -/
def record (t : Tally) (success : Bool) (verdict : Verdict) : Tally :=
  if success then { t with total := t.total + 1, successes := t.successes + 1 }
  else
    { t with
      total := t.total + 1
      failures := t.failures + 1
      timeouts := if verdict = .timeout then t.timeouts + 1 else t.timeouts }

/-- The share of successes, zero over no events. -/
def successRate {R : Type} [Scalar R] (t : Tally) : R :=
  if t.total = 0 then Scalar.zero else Scalar.nat t.successes / Scalar.nat t.total

end Tally

/-- Response times in milliseconds: extremes, running mean and last sample. -/
structure Latency (R : Type) where
  samples : Nat
  least : R
  greatest : R
  mean : R
  last : R

namespace Latency

variable {R : Type} [Scalar R]

def empty : Latency R := ⟨0, Scalar.zero, Scalar.zero, Scalar.zero, Scalar.zero⟩

/-- Takes in one sample; the first one is every extreme and the mean at once. -/
def record (l : Latency R) (ms : R) : Latency R :=
  let samples := l.samples + 1
  if samples = 1 then ⟨samples, ms, ms, ms, ms⟩
  else
    let n : R := Scalar.nat samples
    { samples
      least := Scalar.min l.least ms
      greatest := Scalar.max l.greatest ms
      mean := (l.mean * (n - Scalar.one) + ms) / n
      last := ms }

end Latency

structure Statistics (R : Type) where
  validations : Tally
  uses : Tally
  latency : Latency R
  /-- Successes since the last failure, over probes and uses. -/
  successRun : Nat
  /-- Failures since the last success, over probes and uses. -/
  failureRun : Nat
  firstValidatedAt : Option Instant
  lastValidatedAt : Option Instant
  lastUsedAt : Option Instant
  lastSuccessAt : Option Instant
  lastFailureAt : Option Instant

namespace Statistics

variable {R : Type} [Scalar R]

def empty : Statistics R :=
  ⟨.empty, .empty, .empty, 0, 0, none, none, none, none, none⟩

/-- Extends the run of successes or of failures and notes the time. -/
def mark (s : Statistics R) (success : Bool) (at_ : Instant) : Statistics R :=
  if success then
    { s with successRun := s.successRun + 1, failureRun := 0, lastSuccessAt := some at_ }
  else
    { s with failureRun := s.failureRun + 1, successRun := 0, lastFailureAt := some at_ }

def recordValidation (s : Statistics R) (o : Outcome) : Statistics R :=
  let dated := { s with
    validations := s.validations.record o.isSuccess o.verdict
    lastValidatedAt := some o.validatedAt
    firstValidatedAt := some (s.firstValidatedAt.getD o.validatedAt) }
  let marked := dated.mark o.isSuccess o.validatedAt
  { marked with latency := marked.latency.record o.elapsed.toMillis }

/-- Takes in a consumer's use at `now`; only a timed use moves the latency. -/
def recordUse (s : Statistics R) (now : Instant) (success : Bool) (elapsed : Option Duration)
    (verdict : Verdict) : Statistics R :=
  let dated := { s with
    uses := s.uses.record success verdict
    lastUsedAt := some now }
  let marked := dated.mark success now
  match elapsed with
  | none => marked
  | some d => { marked with latency := marked.latency.record d.toMillis }

/-- Freshness of a proxy: one when it was never used, else falling with the minutes
since its last use, of which at most sixty count. -/
def freshness (s : Statistics R) (now : Instant) : R :=
  match s.lastUsedAt with
  | none => Scalar.one
  | some used =>
    let minutes : R := (Duration.since used now).toSeconds / Scalar.nat 60
    Scalar.one / (Scalar.one + Scalar.min minutes (Scalar.nat 60))

/-- The weight of a proxy in a draw at `now`: its success rate, at least one percent,
over its mean latency, at least one millisecond, times one half plus its freshness. -/
def weight (s : Statistics R) (now : Instant) : R :=
  let rate : R := Scalar.clamp s.validations.successRate (Scalar.ratio 1 100) Scalar.one
  let latency : R := Scalar.max s.latency.mean Scalar.one
  rate * (Scalar.one / latency) * (Scalar.ratio 1 2 + s.freshness now)

end Statistics
end ProxyLease
