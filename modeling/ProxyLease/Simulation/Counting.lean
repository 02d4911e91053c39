import ProxyLease.Simulation.Script

/-!
# A census under changes

Changes of a census come one millisecond apart, and its figures are taken after each
of them.
-/

namespace ProxyLease.Simulation

inductive CensusChange where
  | add (state : Lifecycle)
  | remove (state : Lifecycle)
  | change (source target : Lifecycle)
  | reset
  | validation (verdict : ScriptedVerdict)
  | useTime (elapsed : Duration)
  | request
  | served
  | beginWait
  | endWait

/-- The entry that a change makes; an outcome is dated by the time of the change. -/
def CensusChange.entry (now : Instant) : CensusChange → Census.Entry
  | .add s => .add s
  | .remove s => .remove s
  | .change source target => .change source target
  | .reset => .reset
  | .validation v => .validation (v.outcome now)
  | .useTime d => .useTime d
  | .request => .request
  | .served => .served
  | .beginWait => .beginWait
  | .endWait => .endWait

/-- The figures after each change; the first one comes a millisecond after `now`. -/
def figuresTrail (now : Instant) (c : Census Float) : List CensusChange → List (Snapshot Float)
  | [] => []
  | e :: rest =>
    let later := now + Duration.perMilli
    let next := c.enter later (e.entry later)
    next.snapshot :: figuresTrail later next rest

end ProxyLease.Simulation
