import ProxyLease.Courier.Basic
import ProxyLease.Simulation.Script

/-!
# A world on a stage

The stage plays a world against scripts under one virtual clock. Tasks that can run
do so until every one waits; only then does time move, and only to the next instant
at which something is due. Loops run before workers, idle workers stand in a line
and take turns, probes that end at one instant end in the order of their start, and
requests are resumed last.
-/

namespace ProxyLease.Simulation

structure ProbeUnderWay where
  worker : WorkerId
  due : Instant
  verdict : ScriptedVerdict

/-- Whose pass asked a source. -/
inductive Asker where
  | caller (pass : PassId)
  | loop (loop : LoopId)
  deriving DecidableEq

/-- A question that a source has not answered yet. -/
structure Question where
  asker : Asker
  due : Instant

/-- How a request ends when its time is up, and whether it can be cancelled. -/
inductive WaitStyle where
  | plain
  /-- No proxy in time is no failure. -/
  | orNone
  | cancellable
  deriving DecidableEq

structure Waiter where
  label : String
  call : CallId
  style : WaitStyle

structure EndedRequest where
  label : String
  result : Except PoolFailure (Option Handle)
  time : Instant

structure Stage where
  world : World
  sources : Array ScriptedSource
  checks : CheckScript
  /-- Idle workers; the first one takes the next proxy. -/
  idle : List WorkerId
  probes : List ProbeUnderWay
  questions : List Question
  waiters : List Waiter
  /-- Labels whose requests are cancelled, also those still to come. -/
  cancelled : List String
  /-- The record each identity stands for in reports and picks. -/
  known : List (String × Handle)
  ended : List EndedRequest

namespace Stage

def now (s : Stage) : Instant := s.world.now

def pool (s : Stage) : Pool := s.world.pool

def mapWorld (s : Stage) (f : World → World) : Stage := { s with world := f s.world }

def setNow (s : Stage) (now : Instant) : Stage :=
  s.mapWorld fun w => w.mapPool fun p => { p with now }

/-! ### Known records -/

/-- Makes a record the one its identity stands for. -/
def learn (s : Stage) (h : Handle) : Stage :=
  match s.pool.record? h with
  | none => s
  | some r =>
    let known := (r.id, h) :: s.known.filter (·.1 ≠ r.id)
    { s with known }.mapWorld fun w => w.mapPool fun p =>
      { p with chooser := p.chooser.mapDirectory fun _ => known }

/-- Learns the registered identities that are not known yet. -/
def learnNew (s : Stage) : Stage :=
  s.pool.registry.entries.foldl
    (fun q e => if (q.known.lookup e.1).isSome then q else q.learn e.2) s

/-! ### Sources -/

def askerState (s : Stage) : Asker → Option Asking
  | .caller i =>
    match s.world.passes[i]? with
    | some (.asking state) => some state
    | _ => none
  | .loop i =>
    match s.world.loops[i]? with
    | some ⟨_, _, _, .asking state⟩ => some state
    | _ => none

def supply (s : Stage) (asker : Asker) (state : Asking) : Stage :=
  let answer := match s.sources[state.source]? with
    | some source => source.answer state.count
    | none => .ok []
  s.mapWorld fun w => match asker with
    | .caller i => w.supplyPass i answer
    | .loop i => w.supplyLoop i answer

/-- Lets sources without a delay answer; one with a delay leaves a question open. Every
round takes one source, so `rounds` may be the number of sources. -/
def feed (asker : Asker) : Nat → Stage → Stage
  | 0, s => s
  | rounds + 1, s =>
    match s.askerState asker with
    | none => s
    | some state =>
      let delay := ((s.sources[state.source]?).map (·.delay)).getD .zero
      if delay = .zero then feed asker rounds (s.supply asker state)
      else { s with questions := s.questions ++ [⟨asker, s.now + delay.ns⟩] }

def feedAll (s : Stage) (asker : Asker) : Stage := feed asker (s.sources.size + 1) s

/-- A question that is due is answered. -/
def answer (s : Stage) (q : Question) : Stage :=
  match s.askerState q.asker with
  | none => s
  | some state => (s.supply q.asker state).feedAll q.asker

/-! ### Loops -/

/-- Runs a loop while its tick is due. Late ticks of one loop lie at least the shortest
period apart and at most the slack behind, so six rounds are enough. -/
def runLoop (i : LoopId) : Nat → Stage → Stage
  | 0, s => s
  | rounds + 1, s =>
    match s.world.loops[i]? with
    | none => s
    | some l =>
      if l.stage = .finished then s
      else if l.cancelled then
        { s with questions := s.questions.filter (·.asker ≠ Asker.loop i) }.mapWorld
          (·.setLoopStage i .finished)
      else if l.stage = .sleeping ∧ l.nextTick ≤ s.now then
        runLoop i rounds ((s.mapWorld (·.tick i)).feedAll (.loop i))
      else s

def runLoops (s : Stage) : Stage :=
  (List.range s.world.loops.size).foldl (fun q i => runLoop i 6 q) s

/-! ### Workers -/

/-- Sends dismissed idle workers away and lets new ones join the line. -/
def staff (s : Stage) : Stage :=
  let step (q : Stage) (i : WorkerId) : Stage :=
    match q.world.workers[i]? with
    | some ⟨true, .idle⟩ =>
      { q with idle := q.idle.filter (· ≠ i) }.mapWorld (·.setWorkerStage i .finished)
    | some ⟨false, .idle⟩ => if i ∈ q.idle then q else { q with idle := q.idle ++ [i] }
    | _ => q
  (List.range s.world.workers.size).foldl step s

/-- A probe ends, and its worker joins the line unless it was dismissed. -/
def conclude (s : Stage) (worker : WorkerId) (verdict : ScriptedVerdict) : Stage :=
  let done := s.mapWorld (·.conclude worker (verdict.outcome s.now))
  if done.world.workerStage worker = .idle then { done with idle := done.idle ++ [worker] }
  else done

/-- The worker at the head of the line takes the next proxy. A probe without delay ends
at once. -/
def takeNext (s : Stage) (worker : WorkerId) (line : List WorkerId) : Stage :=
  let taken := { s with idle := line }.mapWorld (·.take worker)
  match taken.world.workerStage worker with
  | .probing h =>
    let (verdict, checks) := taken.checks.next (((taken.pool.record? h).map (·.id)).getD "")
    let begun := { taken with checks }
    if verdict.delay = .zero then begun.conclude worker verdict
    else { begun with probes := begun.probes ++ [⟨worker, s.now + verdict.delay.ns, verdict⟩] }
  | _ => { taken with idle := taken.idle ++ [worker] }

/-- Lets idle workers empty the queue; every round takes one proxy from it. -/
def drain : Nat → Stage → Stage
  | 0, s => s
  | rounds + 1, s =>
    match s.pool.queue, s.idle with
    | _ :: _, worker :: line => drain rounds (s.takeNext worker line)
    | _, _ => s

def runWorkers (s : Stage) : Stage :=
  let staffed := s.staff
  drain staffed.pool.queue.length staffed

/-! ### Requests -/

def shownResult (style : WaitStyle) : Except PoolFailure Handle → Except PoolFailure (Option Handle)
  | .ok h => .ok (some h)
  | .error (.timedOut wait) => if style = .orNone then .ok none else .error (.timedOut wait)
  | .error failure => .error failure

def noteEnd (s : Stage) (v : Waiter) (result : Except PoolFailure Handle) : Stage :=
  let noted := { s with
    ended := s.ended ++ [⟨v.label, shownResult v.style result, s.now⟩] }
  match result with
  | .ok h => noted.learn h
  | .error _ => noted

/-- Ends a request that can end now, or leaves it among the waiters. -/
def endRequest (s : Stage) (v : Waiter) : Stage :=
  let ending (cause : WaitEnd) : Stage := s.mapWorld (·.endCall v.call cause)
  let concluded (q : Stage) : Stage :=
    match q.world.calls[v.call]? with
    | some (.returned h) => q.noteEnd v (.ok h)
    | some (.refused failure) => q.noteEnd v (.error failure)
    | _ => { q with waiters := q.waiters ++ [v] }
  match s.world.calls[v.call]? with
  | some (.waiting ticket wait deadline) =>
    if s.pool.inbox ticket ≠ .waiting then concluded (ending .answered)
    else if v.style = .cancellable ∧ v.label ∈ s.cancelled then concluded (ending .cancelled)
    else if deadline ≤ s.now then concluded (ending (.timedOut wait))
    else { s with waiters := s.waiters ++ [v] }
  | _ => concluded s

def endRequests (s : Stage) : Stage :=
  s.waiters.foldl endRequest { s with waiters := [] }

/-! ### Time -/

/-- Lets every task run until it waits. -/
def settle (s : Stage) : Stage := s.runLoops.runWorkers.endRequests

def deadline? (s : Stage) (call : CallId) : Option Instant :=
  match s.world.calls[call]? with
  | some (.waiting _ _ deadline) => some deadline
  | _ => none

def tick? (l : ChoreLoop) : Option Instant :=
  if l.stage = .sleeping ∧ ¬l.cancelled then some l.nextTick else none

def nextDue (s : Stage) : Option Instant :=
  let instants := s.probes.map (·.due) ++ s.questions.map (·.due) ++
    s.world.loops.toList.filterMap tick? ++
    (List.range s.world.calls.size).filterMap s.deadline?
  instants.min?

/-- Moves time to an instant and lets everything happen that is due then. -/
def fire (s : Stage) (time : Instant) : Stage :=
  let moved := s.setNow time
  let isDue (due : Instant) : Bool := due ≤ time
  let asked := { moved with questions := moved.questions.filter (!isDue ·.due) }
  let answered := (moved.questions.filter (isDue ·.due)).foldl answer asked
  let due := answered.probes.filter (isDue ·.due)
  let probing := { answered with probes := answered.probes.filter (!isDue ·.due) }
  let concluded := due.foldl
    (fun q u => (q.conclude u.worker u.verdict).runWorkers) probing
  concluded.settle

/-- Lets time pass from `now` up to `target`, or until `enough` holds. -/
def passTime (enough : Stage → Bool) (target now : Instant) (s : Stage) : Stage :=
  if enough s then s
  else
    match s.nextDue with
    | none => s.setNow target
    | some due =>
      if h : now < due ∧ due ≤ target then
        have : target - due < target - now := Nat.sub_lt_sub_left (Nat.lt_of_lt_of_le h.1 h.2) h.1
        passTime enough target due (s.fire due)
      else s.setNow target
termination_by target - now

def advanceTo (s : Stage) (target : Instant) : Stage :=
  passTime (fun _ => false) target s.now s

/-- Lets time pass until the pass of a caller has ended; every round ends with an answer of
a source. -/
def awaitPass (pass : PassId) : Nat → Stage → Stage
  | 0, s => s
  | rounds + 1, s =>
    match s.questions.find? (·.asker = Asker.caller pass) with
    | none => s
    | some q => awaitPass pass rounds (s.advanceTo q.due)

/-- Runs the pass of a caller to its end; other tasks run only while a source delays. -/
def finishPass (s : Stage) (pass : PassId) : Stage :=
  let fed := s.feedAll (.caller pass)
  if (fed.askerState (.caller pass)).isSome then awaitPass pass (fed.sources.size + 1) fed.settle
  else fed

/-- Runs a stop to its end: waits for the probes under way. -/
def finishStop (s : Stage) (stop : StopId) : Stage :=
  let ended := s.settle
  let last := (ended.probes.map (·.due)).foldl Nat.max ended.now
  (ended.advanceTo last).mapWorld (·.finishStop stop)

end Stage
end ProxyLease.Simulation
