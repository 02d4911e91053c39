import ProxyLease.Outcome

/-!
# Checkups made of several probes

A checkup is one probe or a series of checkups. A series runs its members in order
up to the first failure; if all succeed, the outcome is that of the last one with
the times of all of them added up. A series without members fails.
-/

namespace ProxyLease

/-- A probe with a known outcome after a known time, or a series of checkups. -/
inductive Checkup where
  | single (outcome : Outcome) (delay : Duration)
  | series (members : List Checkup)

/-- What a run of a checkup came to: its outcome, or nothing when its times add up to more
than the longest duration; the time it took; how often each probe was sent; and which probes
were sent, by their places from left to right, in the order of sending. -/
structure CheckupRun where
  outcome : Option Outcome
  took : Duration
  calls : List Nat
  sent : List Nat
  deriving DecidableEq

namespace Checkup

mutual

def unsent : Checkup → List Nat
  | .single _ _ => [0]
  | .series members => unsentAll members

def unsentAll : List Checkup → List Nat
  | [] => []
  | c :: rest => unsent c ++ unsentAll rest

end

mutual

def run (start : Instant) : Checkup → CheckupRun
  | .single outcome delay => ⟨some outcome, delay, [1], [0]⟩
  | .series members => runSeries start .zero none .zero members

/-- Runs the members that are left: `total` is the sum of the times so far, `last` the
latest outcome, `elapsed` the time since `start`. -/
def runSeries (start : Instant) (total : Duration) (last : Option Outcome) (elapsed : Duration) :
    List Checkup → CheckupRun
  | [] =>
    let outcome := match last with
      | some o => o.withElapsed total
      | none => .failed (start + elapsed.ns) .exception .zero "No health checks configured"
    ⟨some outcome, elapsed, [], []⟩
  | c :: rest =>
    let first := run (start + elapsed.ns) c
    let elapsed : Duration := ⟨elapsed.ns + first.took.ns⟩
    match first.outcome with
    | none => ⟨none, elapsed, first.calls ++ unsentAll rest, first.sent⟩
    | some o =>
      match total.add? o.elapsed with
      | none => ⟨none, elapsed, first.calls ++ unsentAll rest, first.sent⟩
      | some sum =>
        if o.isSuccess then
          let others := runSeries start sum (some o) elapsed rest
          ⟨others.outcome, others.took, first.calls ++ others.calls,
            first.sent ++ others.sent.map (first.calls.length + ·)⟩
        else ⟨some o, elapsed, first.calls ++ unsentAll rest, first.sent⟩

end

end Checkup

def durationOverflow : String := "overflow when adding durations"

end ProxyLease
