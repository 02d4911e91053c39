import ProxyLease.Pool.Upkeep

/-!
# A pool and its tasks

Around a pool run tasks: workers that probe, loops that acquire and keep up, passes
of acquisition that callers asked for, requests that wait in line, and stops that
wait for everything to end. A task runs until it has to wait; this module says what
each stretch between two waits does. Tasks are named by their position and stay
when they have ended.
-/

namespace ProxyLease

abbrev WorkerId := Nat
abbrev LoopId := Nat
abbrev PassId := Nat
abbrev StopId := Nat
abbrev CallId := Nat

inductive WorkerStage where
  | idle
  | probing (proxy : Handle)
  | finished
  deriving DecidableEq

/-- A task that probes one proxy after the other. -/
structure Worker where
  cancelled : Bool
  stage : WorkerStage
  deriving DecidableEq

/-- What a loop does on every tick. -/
inductive Chore where
  | acquire
  | revalidate
  | coolDown
  deriving DecidableEq

/-- A pass that waits for the answer of the source it asked. -/
structure Asking where
  pass : Pass
  source : Nat
  count : Nat
  deriving DecidableEq

inductive LoopStage where
  | sleeping
  | asking (state : Asking)
  | finished
  deriving DecidableEq

/-- A task that does its chore on every tick. -/
structure ChoreLoop where
  chore : Chore
  nextTick : Instant
  cancelled : Bool
  stage : LoopStage
  deriving DecidableEq

/-- A pass that a caller asked for. -/
inductive PassCall where
  | asking (state : Asking)
  | finished (added : Nat)
  deriving DecidableEq

inductive Call where
  | waiting (ticket : Ticket) (wait : Duration) (deadline : Instant)
  | returned (proxy : Handle)
  | refused (failure : PoolFailure)
  | empty
  /-- The caller went away while it waited. -/
  | abandoned (ticket : Ticket)
  deriving DecidableEq

/-- A stop that waits for the tasks of the run it ended. -/
structure StopCall where
  workers : List WorkerId
  loops : List LoopId
  returned : Bool
  deriving DecidableEq

structure World where
  pool : Pool
  workers : Array Worker
  /-- Workers of the current run that are wanted, in the order of their creation. -/
  active : List WorkerId
  /-- Workers that were dismissed and may still be probing. -/
  retired : List WorkerId
  loops : Array ChoreLoop
  currentLoops : List LoopId
  passes : Array PassCall
  calls : Array Call
  stops : Array StopCall

namespace World

/-- A pool that was never started. -/
def ofPool (pool : Pool) : World :=
  ⟨pool, #[], [], [], #[], [], #[], #[], #[]⟩

def now (w : World) : Instant := w.pool.now

def mapPool (w : World) (f : Pool → Pool) : World := { w with pool := f w.pool }

def advance (w : World) (d : Duration) : World :=
  w.mapPool fun p => { p with now := p.now + d.ns }

/-! ### Workers -/

def workerStage (w : World) (i : WorkerId) : WorkerStage :=
  ((w.workers[i]?).map (·.stage)).getD .finished

def setWorkerStage (w : World) (i : WorkerId) (stage : WorkerStage) : World :=
  { w with workers := w.workers.modify i fun v => { v with stage } }

def cancelWorkers (w : World) (list : List WorkerId) : World :=
  { w with
    workers := list.foldl (fun ws i => ws.modify i fun v => { v with cancelled := true }) w.workers }

def isWorkerDone (w : World) (i : WorkerId) : Bool := w.workerStage i == .finished

def hire (w : World) (n : Nat) : World :=
  { w with
    workers := w.workers ++ (Array.replicate n ⟨false, .idle⟩)
    active := w.active ++ (List.range n).map (w.workers.size + ·) }

/-- Dismisses all workers but the first `n`, the latest first. -/
def dismiss (w : World) (n : Nat) : World :=
  let gone := (w.active.drop n).reverse
  { w.cancelWorkers gone with
    active := w.active.take n
    retired := w.retired ++ gone }

def resize (w : World) : World :=
  if w.pool.running then
    let target := w.pool.concurrency
    let kept := { w with retired := w.retired.filter (!w.isWorkerDone ·) }
    (kept.hire (target - kept.active.length)).dismiss target
  else w

/-- Asks for another number of workers; zero is refused. -/
def setConcurrency (w : World) (n : Nat) : Except PoolFailure World :=
  if n = 0 then .error (.invalidConcurrency n)
  else .ok (w.mapPool fun p => { p with concurrency := n }).resize

/-- Workers that have not ended. -/
def activeWorkers (w : World) : Nat :=
  ((w.active ++ w.retired).filter (!w.isWorkerDone ·)).length

/-- An idle worker takes the first proxy of the queue and begins its probe. -/
def take (w : World) (i : WorkerId) : World :=
  match w.pool.queue with
  | [] => w
  | h :: rest =>
    let (probing, pool) := { w.pool with queue := rest }.beginProbe h
    let next := { w with pool }
    if probing then next.setWorkerStage i (.probing h) else next

/-- The probe of a worker ends; a worker that was dismissed ends with it. -/
def conclude (w : World) (i : WorkerId) (outcome : Outcome) : World :=
  match w.workers[i]? with
  | some ⟨cancelled, .probing h⟩ =>
    (w.mapPool (·.endProbe h outcome)).setWorkerStage i (if cancelled then .finished else .idle)
  | _ => w

/-! ### Passes -/

/-- Goes on with a pass up to the next question to a source, or to its end. -/
def proceed (p : Pool) (pass : Pass) : Option Asking × Pool :=
  match p.passStep pass with
  | .ask source count => (some ⟨pass, source, count⟩, p.ask source count)
  | .finish => (none, p.finishPass pass)

def answered (p : Pool) (state : Asking) (answer : Except SourceFailure (List Endpoint)) :
    Pass × Option Asking × Pool :=
  let (pass, q) := p.receive state.pass answer
  (pass, proceed q pass)

def beginPass (w : World) : PassId × World :=
  let (state, pool) := proceed w.pool .start
  let call := match state with
    | some asking => PassCall.asking asking
    | none => .finished 0
  (w.passes.size, { w with pool, passes := w.passes.push call })

def supplyPass (w : World) (i : PassId) (answer : Except SourceFailure (List Endpoint)) : World :=
  match w.passes[i]? with
  | some (.asking state) =>
    let (pass, next, pool) := answered w.pool state answer
    let call := match next with
      | some asking => PassCall.asking asking
      | none => .finished pass.added
    { w with pool, passes := w.passes.setIfInBounds i call }
  | _ => w

/-! ### Loops -/

/-- The shortest time between two ticks. -/
def shortestPeriod : Duration := .ofMillis 1

/-- A tick that comes later than this moves all later ones. -/
def tickSlack : Duration := .ofMillis 5

def period (s : Settings) : Chore → Duration
  | .acquire => ⟨Nat.max s.fetchInterval.ns shortestPeriod.ns⟩
  | .revalidate => ⟨Nat.max s.validationInterval.ns shortestPeriod.ns⟩
  | .coolDown => ⟨Nat.max s.cooldownDuration.ns shortestPeriod.ns⟩

/-- A new loop: upkeep ticks at once, acquisition after its period. -/
def newLoop (s : Settings) (now : Instant) (chore : Chore) : ChoreLoop :=
  let first := if chore = .acquire then now + (period s chore).ns else now
  ⟨chore, first, false, .sleeping⟩

def setLoopStage (w : World) (i : LoopId) (stage : LoopStage) : World :=
  { w with loops := w.loops.modify i fun l => { l with stage } }

def isLoopDone (w : World) (i : LoopId) : Bool :=
  ((w.loops[i]?).map fun l => l.stage == .finished).getD true

/-- The tick after the one that was due at `due` and came at `now`. -/
def nextTick (due now : Instant) (period : Duration) : Instant :=
  if due + tickSlack.ns < now then now + period.ns else due + period.ns

/-- A sleeping loop begins its chore. -/
def tick (w : World) (i : LoopId) : World :=
  match w.loops[i]? with
  | none => w
  | some l =>
    let next := nextTick l.nextTick w.now (period w.pool.settings l.chore)
    let ticked := { w with loops := w.loops.modify i fun l => { l with nextTick := next } }
    match l.chore with
    | .revalidate => ticked.mapPool (·.requeueStale)
    | .coolDown => ticked.mapPool (·.requeueRested)
    | .acquire =>
      let (state, pool) := proceed ticked.pool .start
      let began := { ticked with pool }
      match state with
      | some asking => began.setLoopStage i (.asking asking)
      | none => began

def supplyLoop (w : World) (i : LoopId) (answer : Except SourceFailure (List Endpoint)) : World :=
  match w.loops[i]? with
  | some ⟨_, _, _, .asking state⟩ =>
    let (_, next, pool) := answered w.pool state answer
    let stage := match next with
      | some asking => LoopStage.asking asking
      | none => .sleeping
    { w with pool }.setLoopStage i stage
  | _ => w

/-! ### Start and stop -/

inductive Started where
  | failed (failure : PoolFailure)
  | already
  /-- The pool runs, and the start waits for its first pass. -/
  | fetching (pass : PassId)
  deriving DecidableEq

/-- Starts the pool up to its first pass. -/
def start (w : World) : Started × World :=
  if w.pool.sources = [] then (.failed .noSource, w)
  else if w.pool.running then (.already, w)
  else
    let counted := w.mapPool fun p => { p with running := true }.recount
    let chores := [Chore.acquire, .revalidate, .coolDown]
    let looping := { counted with
      loops := counted.loops ++ (chores.map (newLoop counted.pool.settings counted.now)).toArray
      currentLoops := (List.range 3).map (counted.loops.size + ·) }
    let staffed := looping.resize
    let told := staffed.mapPool fun p => p.note .info
      ("Proxy pool started with " ++ toString p.sources.length ++ " sources and " ++
        toString p.concurrency ++ " validation workers")
    let (pass, began) := told.beginPass
    (.fetching pass, began)

/-- Ends the run: tells all its tasks to end and hangs up on everybody in line. -/
def stop (w : World) : Option StopId × World :=
  if w.pool.running then
    let cancelled := { w.cancelWorkers w.active with
      loops := w.currentLoops.foldl
        (fun ls i => ls.modify i fun l => { l with cancelled := true }) w.loops }
    let ended := cancelled.mapPool fun p => { p with running := false }.hangUpAll
    (some w.stops.size, { ended with
      active := []
      retired := []
      currentLoops := []
      stops := w.stops.push ⟨w.active ++ w.retired, w.currentLoops, false⟩ })
  else (none, w)

/-- Whether the tasks a stop waits for have all ended. -/
def canReturn (w : World) (s : StopCall) : Bool :=
  s.workers.all w.isWorkerDone && s.loops.all w.isLoopDone

def finishStop (w : World) (i : StopId) : World :=
  { w.mapPool fun p => p.note .info "Proxy pool stopped" with
    stops := w.stops.modify i fun s => { s with returned := true } }

/-! ### Requests -/

def tryGet (w : World) : Option Handle × World :=
  let (found, pool) := w.pool.tryGet
  let call := match found with
    | some h => Call.returned h
    | none => .empty
  (found, { w with pool, calls := w.calls.push call })

def Call.ofResult : Except PoolFailure Handle → Call
  | .ok h => .returned h
  | .error failure => .refused failure

def get (w : World) (timeout : Option Duration) : CallId × World :=
  let (begun, pool) := w.pool.beginGet timeout
  let call := match begun with
    | .done result => Call.ofResult result
    | .queued ticket wait => .waiting ticket wait (w.now + wait.ns)
  (w.calls.size, { w with pool, calls := w.calls.push call })

def endCall (w : World) (i : CallId) (cause : WaitEnd) : World :=
  match w.calls[i]? with
  | some (.waiting ticket _ _) =>
    let (result, pool) := w.pool.endGet ticket cause
    { w with pool, calls := w.calls.setIfInBounds i (Call.ofResult result) }
  | _ => w

def abandon (w : World) (i : CallId) : World :=
  match w.calls[i]? with
  | some (.waiting ticket _ _) =>
    { w with
      pool := w.pool.leaveLine ticket
      calls := w.calls.setIfInBounds i (.abandoned ticket) }
  | _ => w

end World
end ProxyLease
