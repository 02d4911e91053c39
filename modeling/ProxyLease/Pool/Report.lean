import ProxyLease.Pool.Handout

/-!
# Reports of consumers

A consumer reports how its use of a proxy went. A proxy in use becomes available
after a success and is offered to the line; after a failure it rests or is
disabled. A pool that hands proxies out only once keeps the statistics and nothing
else.
-/

namespace ProxyLease

/-- Where a proxy goes after this many failures in a row. -/
def failureState (run max : Nat) : Lifecycle := if max ≤ run then .disabled else .cooldown

namespace Pool

def recordUse (p : Pool) (h : Handle) (success : Bool) (elapsed : Option Duration)
    (verdict : Verdict) : Pool :=
  p.modifyRecord h fun r =>
    { r with statistics := r.statistics.recordUse p.now success elapsed verdict }

def reportSuccess (p : Pool) (h : Handle) (elapsed : Duration) : Pool :=
  let told := p.emit (.used h true (some elapsed))
  let timed := { told with census := told.census.recordUseTime told.now elapsed }
  let noted := timed.recordUse h true (some elapsed) .success
  if noted.settings.removeAfterGet then noted
  else
    match noted.shiftFrom? h .inUse .available with
    | none => noted
    | some (moved, move) => ((moved.publish move).offer h).2

def reportFailure (p : Pool) (h : Handle) (verdict : Verdict) : Pool :=
  let noted := (p.emit (.used h false none)).recordUse h false none verdict
  if noted.settings.removeAfterGet then noted
  else
    let max := noted.settings.maxConsecutiveFailures
    let run := ((noted.record? h).map (·.statistics.failureRun)).getD 0
    let target := failureState run max
    match noted.shiftFrom? h .inUse target with
    | none => noted
    | some (moved, move) =>
      let warned :=
        if target = .disabled then
          moved.note .warn
            ("Proxy " ++ moved.proxyText h ++ " disabled after " ++ toString max ++
              " consecutive failures")
        else moved
      warned.publish move

end Pool
end ProxyLease
