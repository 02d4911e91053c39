import ProxyLease.World.Basic

/-!
# Steps of a world

A step is one stretch of one task, or the passing of time. `Enabled` says when a
step can happen and `perform` what it does; together they leave the order of tasks,
the outcomes of probes and the answers of sources open. A world is reachable when a
list of enabled steps leads to it.
-/

namespace ProxyLease

inductive Action where
  | advance (time : Duration)
  | start
  | stop
  | finishStop (stop : StopId)
  | setConcurrency (workers : Nat)
  | take (worker : WorkerId)
  | conclude (worker : WorkerId) (outcome : Outcome)
  /-- A dismissed worker ends while it is idle. -/
  | leave (worker : WorkerId)
  | tick (loop : LoopId)
  /-- A cancelled loop ends, whatever it waits for. -/
  | quit (loop : LoopId)
  | fetch
  | supplyPass (pass : PassId) (answer : Except SourceFailure (List Endpoint))
  | supplyLoop (loop : LoopId) (answer : Except SourceFailure (List Endpoint))
  | tryGet
  | get (timeout : Option Duration)
  /-- A waiting request finds something in its inbox. -/
  | resume (call : CallId)
  | expire (call : CallId)
  | cancel (call : CallId)
  | abandon (call : CallId)
  | reportSuccess (proxy : Handle) (elapsed : Duration)
  | reportFailure (proxy : Handle) (verdict : Verdict)

namespace World

def Enabled (w : World) : Action → Bool
  | .finishStop i =>
    match w.stops[i]? with
    | some s => !s.returned && w.canReturn s
    | none => false
  | .take i => w.workers[i]? == some ⟨false, .idle⟩ && w.pool.queue != []
  | .conclude i outcome =>
    match w.workerStage i with
    | .probing _ => outcome.validatedAt ≤ w.now
    | _ => false
  | .leave i => w.workers[i]? == some ⟨true, .idle⟩
  | .tick i =>
    match w.loops[i]? with
    | some l => !l.cancelled && l.stage == .sleeping && l.nextTick ≤ w.now
    | none => false
  | .quit i =>
    match w.loops[i]? with
    | some l => l.cancelled && l.stage != .finished
    | none => false
  | .supplyPass i _ =>
    match w.passes[i]? with
    | some (.asking _) => true
    | _ => false
  | .supplyLoop i _ =>
    match w.loops[i]? with
    | some ⟨_, _, cancelled, .asking _⟩ => !cancelled
    | _ => false
  | .resume i =>
    match w.calls[i]? with
    | some (.waiting ticket _ _) => w.pool.inbox ticket != .waiting
    | _ => false
  | .expire i =>
    match w.calls[i]? with
    | some (.waiting _ _ deadline) => deadline ≤ w.now
    | _ => false
  | .cancel i | .abandon i =>
    match w.calls[i]? with
    | some (.waiting _ _ _) => true
    | _ => false
  | .reportSuccess h _ | .reportFailure h _ => h < w.pool.records.size
  | .advance _ | .start | .stop | .setConcurrency _ | .fetch | .tryGet | .get _ => true

def perform (w : World) : Action → World
  | .advance d => w.advance d
  | .start => w.start.2
  | .stop => w.stop.2
  | .finishStop i => w.finishStop i
  | .setConcurrency n => (w.setConcurrency n).toOption.getD w
  | .take i => w.take i
  | .conclude i outcome => w.conclude i outcome
  | .leave i => w.setWorkerStage i .finished
  | .tick i => w.tick i
  | .quit i => w.setLoopStage i .finished
  | .fetch => w.beginPass.2
  | .supplyPass i answer => w.supplyPass i answer
  | .supplyLoop i answer => w.supplyLoop i answer
  | .tryGet => w.tryGet.2
  | .get timeout => (w.get timeout).2
  | .resume i => w.endCall i .answered
  | .expire i =>
    match w.calls[i]? with
    | some (.waiting _ wait _) => w.endCall i (.timedOut wait)
    | _ => w
  | .cancel i => w.endCall i .cancelled
  | .abandon i => w.abandon i
  | .reportSuccess h elapsed => w.mapPool (·.reportSuccess h elapsed)
  | .reportFailure h verdict => w.mapPool (·.reportFailure h verdict)

def run? (w : World) : List Action → Option World
  | [] => some w
  | a :: rest => if w.Enabled a then (w.perform a).run? rest else none

def Reaches (w v : World) : Prop := ∃ actions, w.run? actions = some v

theorem Reaches.refl (w : World) : w.Reaches w := ⟨[], rfl⟩

theorem run?_append (w : World) (a b : List Action) :
    w.run? (a ++ b) = (w.run? a).bind (·.run? b) := by
  induction a generalizing w with
  | nil => rfl
  | cons x rest ih =>
    by_cases h : w.Enabled x = true
    · simp [run?, h, ih]
    · simp [run?, h]

theorem Reaches.trans {u v w : World} (huv : u.Reaches v) (hvw : v.Reaches w) : u.Reaches w := by
  obtain ⟨a, ha⟩ := huv
  obtain ⟨b, hb⟩ := hvw
  exact ⟨a ++ b, by rw [run?_append, ha]; exact hb⟩

end World
end ProxyLease
