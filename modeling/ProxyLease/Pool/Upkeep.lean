import ProxyLease.Pool.Acquisition
import ProxyLease.Pool.Report

/-!
# Probing and upkeep

A probe takes a pending proxy, drops it if it is too old, and otherwise moves it by
its outcome; a healthy one is offered to the line. Upkeep sends available proxies
whose last probe is too old, and resting ones whose rest is over, back to the
queue.
-/

namespace ProxyLease.Pool

/-- Begins the probe of a proxy: whether a request is to be sent. Only a pending proxy is
probed, and only if it is younger than its time to live. -/
def beginProbe (p : Pool) (h : Handle) : Bool × Pool :=
  match p.shiftFrom? h .pending .validating with
  | none => (false, p)
  | some (moved, move) =>
    let q := moved.publish move
    let age := ((q.record? h).map (·.age q.now)).getD .zero
    if q.settings.proxyTtl ≤ age then
      match q.shiftFrom? h .validating .expired with
      | none => (false, q)
      | some (expired, last) => (false, expired.publish last)
    else (true, q.emit (.check h))

/-- Where an outcome moves a proxy that is being validated. -/
def probeTarget (p : Pool) (h : Handle) (outcome : Outcome) : Lifecycle :=
  if outcome.isSuccess then .available
  else
    failureState (((p.record? h).map (·.statistics.failureRun)).getD 0)
      p.settings.maxConsecutiveFailures

def endProbe (p : Pool) (h : Handle) (outcome : Outcome) : Pool :=
  let counted := { p with census := p.census.recordValidation p.now outcome }
  let noted := counted.modifyRecord h fun r =>
    { r with statistics := r.statistics.recordValidation outcome }
  let target := noted.probeTarget h outcome
  match noted.shiftFrom? h .validating target with
  | none => noted.emit (.validated h outcome)
  | some (moved, move) =>
    let told := moved.emit (.validated h outcome)
    let warned :=
      if target = .disabled then
        told.note .warn
          ("Proxy " ++ told.proxyText h ++ " disabled after " ++
            toString told.settings.maxConsecutiveFailures ++ " consecutive failed validations (" ++
            outcome.verdict.phrase ++ ")")
      else told
    let published := warned.publish move
    if target = .available then (published.offer h).2 else published

def requeue (p : Pool) (h : Handle) (source : Lifecycle) : Pool :=
  match p.shiftFrom? h source .pending with
  | none => p
  | some (moved, move) => (moved.publish move).enqueue h

/-- Whether the last probe of a proxy is too old; one that never had a probe is. -/
def isStale (p : Pool) (h : Handle) : Bool :=
  match (p.record? h).bind (·.statistics.lastValidatedAt) with
  | none => true
  | some last => p.settings.validationInterval ≤ .since last p.now

/-- Whether a proxy that failed has rested long enough; one that never failed has not. -/
def isRested (p : Pool) (h : Handle) : Bool :=
  match (p.record? h).bind (·.statistics.lastFailureAt) with
  | none => false
  | some last => p.settings.cooldownDuration ≤ .since last p.now

def requeueStale (p : Pool) : Pool :=
  (p.proxiesIn .available).foldl
    (fun q h => if q.isStale h then q.requeue h .available else q) p

def requeueRested (p : Pool) : Pool :=
  (p.proxiesIn .cooldown).foldl
    (fun q h => if q.isRested h then q.requeue h .cooldown else q) p

end ProxyLease.Pool
