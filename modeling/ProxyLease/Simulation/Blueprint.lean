import ProxyLease.Simulation.Scenario

/-!
# Blueprints of pools

A blueprint names the parts of a pool. Unless the pool brings its own probe, its
validation address has to be one. A rehearsal builds the pool, starts it and stops
it again.
-/

namespace ProxyLease.Simulation

structure Blueprint where
  settings : Settings
  ownProbe : Bool
  sources : List Source

/-- What a rehearsal came to: the pool as it was built, the failure of its start if there
was one, and the worlds before and after its stop. -/
structure Rehearsal where
  built : World
  failure : Option PoolFailure
  started : World
  stopped : World

namespace Blueprint

def build (b : Blueprint) : Except PoolFailure Pool :=
  let pool := Pool.create b.settings (b.sources.map (·.name)) b.settings.strategy.chooser 0 #[]
    .empty
  if b.ownProbe then .ok pool
  else
    match Url.parse b.settings.validationUrl with
    | .error cause => .error (.invalidUrl cause)
    | .ok _ => .ok pool

def rehearse (b : Blueprint) : Except PoolFailure Rehearsal := do
  let pool ← b.build
  let stage := Stage.ofPool pool (b.sources.map .ofSource) ⟨[], [], []⟩
  let (failure, started) := match stage.start with
    | .error failure => (some failure, stage)
    | .ok s => (none, s)
  return ⟨stage.world, failure, started.world, started.stop.world⟩

end Blueprint
end ProxyLease.Simulation
