import ProxyLease.Proofs.Lease.Delivery
import ProxyLease.Proofs.Pool.Intake
import ProxyLease.Proofs.Queue
import ProxyLease.Proofs.World.Run

/-!
# What a stop leaves behind

Between runs nobody stands in line and no task begins anything. Whoever waited when the pool
was stopped hears of it, or finds the proxy that was sent before. A stop returns when all
tasks of its run have ended. What goes on by itself between runs are probes that a stop
still waits for, and no others.
-/

namespace ProxyLease

namespace Pool

variable {h : Handle}

theorem available_of_takeWithin : ∀ {tries : Nat} {p : Pool},
    (p.takeWithin tries).1 = some h → p.state? h = some .available
  | 0, p, hh => by cases hh
  | tries + 1, p, hh => by
    have hchosen (k : Handle) : p.choose.2.state? k = p.state? k := rfl
    rw [takeWithin] at hh
    split at hh
    · cases hh
    · next k q hq =>
      rw [hq] at hchosen
      split at hh
      · next claimed move hclaim =>
        cases hh
        rw [← hchosen]
        by_contra hs
        rw [claim?_eq_none hs] at hclaim
        cases hclaim
      · rw [← hchosen]
        exact available_of_takeWithin hh

theorem beginGet_closed {p : Pool} (hclosed : p.running = false) (timeout : Option Duration) :
    (∃ h q, p.state? h = some .available ∧ p.beginGet timeout = (.done (.ok h), q)) ∨
    (∃ q, timeout.getD p.settings.defaultGetTimeout = .zero ∧
      p.beginGet timeout = (.done (.error (.timedOut .zero)), q)) ∨
    ∃ q, p.beginGet timeout = (.done (.error .stopped), q) := by
  cases htaken : p.requested.takeAvailable with
  | mk found q =>
    cases found with
    | some h =>
      refine .inl ⟨h, q, ?_, by rw [beginGet, htaken]⟩
      exact available_of_takeWithin (p := p.requested) (congrArg Prod.fst htaken)
    | none =>
      have hq : q.settings = p.settings := by
        rcases takeWithin_changes (c := .upkeep) (p.requested.chooser.foreignPicks + 1) p.requested
          with ⟨-, hc⟩ | ⟨h, r, hfound, -⟩
        · rw [← show p.requested.takeAvailable.2 = q from congrArg Prod.snd htaken]
          exact hc.calm.settings
        · rw [← takeAvailable, htaken] at hfound
          cases hfound
      by_cases hzero : timeout.getD q.settings.defaultGetTimeout = .zero
      · refine .inr (.inl ⟨q, hq ▸ hzero, ?_⟩)
        rw [beginGet, htaken]
        dsimp only
        rw [if_pos hzero, hzero]
      · have hstopped : q.running = false := by
          by_contra hruns
          have hqueued : p.beginGet timeout = (.queued q.joinLine.1 (timeout.getD
              q.settings.defaultGetTimeout), q.joinLine.2.dispatchAvailable) := by
            rw [beginGet, htaken]
            dsimp only
            rw [if_neg hzero, if_pos (by simpa using hruns)]
          rw [(World.beginGet_queued hqueued).1] at hclosed
          cases hclosed
        refine .inr (.inr ⟨q, ?_⟩)
        rw [beginGet, htaken]
        dsimp only
        rw [if_neg hzero, if_neg (by simp [hstopped])]

end Pool

namespace Action

/-- Steps of callers that may move a proxy or bring a new one. -/
def isService : Action → Bool
  | .tryGet | .get _ | .supplyPass _ _ | .reportSuccess _ _ | .reportFailure _ _ => true
  | _ => false

/-- Steps of workers and loops that may move a proxy or bring a new one. -/
def isChore : Action → Bool
  | .take _ | .conclude _ _ | .tick _ | .supplyLoop _ _ => true
  | _ => false

end Action

namespace World

variable {settings : Settings} {sources : List String} {chooser : Chooser} {now : Instant}
  {content : List (Record Float)} {u v w : World} {a : Action} {call : Call} {i : CallId}
  {inbox : Inbox} {t : Ticket} {wait : Duration} {deadline : Instant} {k : StopId}
  {workers loops : Nat}

/-! ### Every run -/

/-- Who waits has a ticket of the pool. -/
def Ticketed (w : World) : Prop :=
  ∀ (i : CallId) t wait deadline, w.calls[i]? = some (.waiting t wait deadline) →
    t < w.pool.inboxes.size

theorem ofResult_ne_waiting (result : Except PoolFailure Handle) :
    Call.ofResult result ≠ Call.waiting t wait deadline := by
  cases result <;> simp [Call.ofResult]

theorem perform_ticketed (w : World) (a : Action) (hw : w.Ticketed) : (w.perform a).Ticketed := by
  intro i t wait deadline hi
  have hsize := (perform_onward w a).size
  have hold : w.calls[i]? = some (.waiting t wait deadline) → t < (w.perform a).pool.inboxes.size :=
    fun hi => Nat.lt_of_lt_of_le (hw i t wait deadline hi) hsize
  have hstep := perform_calls w a
  generalize (w.perform a).calls = calls at hstep hi
  cases hstep with
  | still => exact hold hi
  | reply _ hcall =>
    rw [Array.getElem?_push] at hi
    split_ifs at hi
    · exact absurd (Option.some.inj hi) (hcall t wait deadline)
    · exact hold hi
  | join timeout _ _ _ ht =>
    rw [Array.getElem?_push] at hi
    split_ifs at hi
    · cases hi
      exact ht
    · exact hold hi
  | finish hj =>
    rw [getElem?_set_call hj] at hi
    split_ifs at hi
    · exact absurd (Option.some.inj hi) (ofResult_ne_waiting _)
    · exact hold hi
  | leave hj =>
    rw [getElem?_set_call hj] at hi
    split_ifs at hi
    · cases hi
    · exact hold hi

/-- What holds of the line and the tasks in every run. -/
structure Governed (w : World) : Prop where
  addsUp : w.pool.census.AddsUp
  attended : w.pool.Attended
  ticketed : w.Ticketed
  tethered : w.Tethered
  staffed : w.Staffed

theorem perform_governed (he : w.Enabled a = true) (hw : w.Governed) : (w.perform a).Governed where
  addsUp := perform_addsUp w a hw.addsUp
  attended := (perform_onward w a).attended hw.attended
  ticketed := perform_ticketed w a hw.ticketed
  tethered := perform_tethered he hw.tethered
  staffed := perform_staffed he hw.addsUp hw.staffed

theorem governed_of_reaches (hw : (opening settings sources chooser now content).Reaches w) :
    w.Governed := by
  apply hw.keep (P := Governed) fun _ _ he => perform_governed he
  refine ⟨rfl, ⟨?_, fun _ => rfl⟩, ?_, ⟨?_, ?_, fun _ => ⟨rfl, rfl, rfl⟩⟩, ?_⟩
  · intro t ht
    cases ht
  · intro i t wait deadline hi
    cases hi
  · intro i hi
    cases hi
  · intro j hj
    cases hj
  · intro i hi
    exact absurd rfl hi

/-! ### Between runs nobody waits -/

/-- Nobody stands in the line of a pool that does not run, and a request does not join it: it
takes a proxy that is available, or it is refused for having no time or because the pool is
stopped. -/
theorem nobody_waits_between_runs
    (hw : (opening settings sources chooser now content).Reaches w)
    (hclosed : w.pool.running = false) :
    w.pool.line = [] ∧ (∀ t, w.pool.inbox t ≠ .waiting) ∧
    ∀ timeout, (w.get timeout).2.pool.line = [] ∧
      ((∃ h, w.pool.state? h = some .available ∧
        (w.get timeout).2.calls = w.calls.push (.returned h)) ∨
      (timeout.getD w.pool.settings.defaultGetTimeout = .zero ∧
        (w.get timeout).2.calls = w.calls.push (.refused (.timedOut .zero))) ∨
      (w.get timeout).2.calls = w.calls.push (.refused .stopped)) := by
  have hgoverned := governed_of_reaches hw
  have hempty := hgoverned.attended.closed hclosed
  refine ⟨hempty, fun t ht => ?_, fun timeout => ⟨?_, ?_⟩⟩
  · have hstands := hgoverned.attended.standing t ht
    rw [hempty] at hstands
    cases hstands
  · apply ((perform_onward w (.get timeout)).attended hgoverned.attended).closed
    exact (running_perform w (a := .get timeout) (by simp) (by simp)).trans hclosed
  · have hcalls {result : Except PoolFailure Handle} {q : Pool}
        (hbegun : w.pool.beginGet timeout = (.done result, q)) :
        (w.get timeout).2.calls = w.calls.push (Call.ofResult result) := by
      rw [get, hbegun]
    rcases Pool.beginGet_closed hclosed timeout with ⟨h, q, hs, hbegun⟩ | ⟨q, hzero, hbegun⟩ |
      ⟨q, hbegun⟩
    · exact .inl ⟨h, hs, hcalls hbegun⟩
    · exact .inr (.inl ⟨hzero, hcalls hbegun⟩)
    · exact .inr (.inr (hcalls hbegun))

/-! ### Who waited hears of the stop -/

/-- Where a request stands that waits for nothing more than to be resumed: it is ready, its
caller went away, or it has ended with what it found, unless it was late or cancelled. -/
inductive Told (inbox : Inbox) (t : Ticket) (wait : Duration) (deadline now : Instant) :
    Call → Prop
  | ready : Told inbox t wait deadline now (.waiting t wait deadline)
  | gone : Told inbox t wait deadline now (.abandoned t)
  | ended (cause : WaitEnd) (hdue : ∀ d, cause = .timedOut d → d = wait ∧ deadline ≤ now) :
      Told inbox t wait deadline now (Call.ofResult (Pool.waitResult inbox cause))

namespace Told

variable {now' : Instant} {t' : Ticket} {wait' : Duration} {deadline' : Instant}

theorem later (hc : Told inbox t wait deadline now call) (hnow : now ≤ now') :
    Told inbox t wait deadline now' call := by
  cases hc with
  | ready => exact .ready
  | gone => exact .gone
  | ended cause hdue =>
    apply Told.ended
    intro d hd
    exact ⟨(hdue d hd).1, Nat.le_trans (hdue d hd).2 hnow⟩

theorem eq_of_waiting (hc : Told inbox t wait deadline now (.waiting t' wait' deadline')) :
    t' = t ∧ wait' = wait ∧ deadline' = deadline := by
  generalize hcall : Call.waiting t' wait' deadline' = call at hc
  cases hc with
  | ready =>
    cases hcall
    exact ⟨rfl, rfl, rfl⟩
  | gone => cases hcall
  | ended cause => exact absurd hcall.symm (ofResult_ne_waiting _)

end Told

theorem due_of_waitEnd {d : Duration} (he : w.Enabled a = true)
    (hi : w.calls[i]? = some (.waiting t wait deadline))
    (ha : a.waitEnd? wait = some (i, .timedOut d)) : d = wait ∧ deadline ≤ w.now := by
  cases a with
  | expire j =>
    cases ha
    exact ⟨rfl, by simpa [Enabled, hi] using he⟩
  | _ => cases ha

theorem perform_told (he : w.Enabled a = true) (ht : w.pool.inbox t = inbox)
    (hi : w.calls[i]? = some call) (hc : Told inbox t wait deadline w.now call) :
    ∃ call', (w.perform a).calls[i]? = some call' ∧
      Told inbox t wait deadline (w.perform a).now call' := by
  have hnow : w.now ≤ (w.perform a).now := (perform_onward w a).now
  have hlt : i < w.calls.size := (Array.getElem?_eq_some_iff.mp hi).1
  have hpushed (c : Call) : (w.calls.push c)[i]? = some call := by
    rw [Array.getElem?_push_lt hlt, ← Array.getElem?_eq_getElem hlt, hi]
  have hstep := perform_calls w a
  generalize (w.perform a).calls = calls at hstep
  cases hstep with
  | still => exact ⟨call, hi, hc.later hnow⟩
  | reply | join => exact ⟨call, hpushed _, hc.later hnow⟩
  | @finish _ j t' wait' deadline' cause hj ha =>
    rw [getElem?_set_call hj]
    split_ifs with hij
    · subst hij
      cases Option.some.inj (hi.symm.trans hj)
      obtain ⟨rfl, rfl, rfl⟩ := hc.eq_of_waiting
      refine ⟨_, rfl, ?_⟩
      rw [ht]
      apply Told.ended
      rintro d rfl
      obtain ⟨hd, hdue⟩ := due_of_waitEnd he hi ha
      exact ⟨hd, Nat.le_trans hdue hnow⟩
    · exact ⟨call, hi, hc.later hnow⟩
  | @leave j t' wait' deadline' hj =>
    rw [getElem?_set_call hj]
    split_ifs with hij
    · subst hij
      cases Option.some.inj (hi.symm.trans hj)
      obtain ⟨rfl, -, -⟩ := hc.eq_of_waiting
      exact ⟨_, rfl, .gone⟩
    · exact ⟨call, hi, hc.later hnow⟩

theorem onward_of_reaches (hv : w.Reaches v) : Pool.Onward w.pool v.pool :=
  hv.keep (P := fun v => Pool.Onward w.pool v.pool)
    (fun u a _ hu => hu.trans (perform_onward u a)) (.refl w.pool)

theorem told_of_reaches (ht : w.pool.inbox t ≠ .waiting) (hsize : t < w.pool.inboxes.size)
    (hi : w.calls[i]? = some (.waiting t wait deadline)) (hv : w.Reaches v) :
    v.pool.inbox t = w.pool.inbox t ∧
      ∃ call, v.calls[i]? = some call ∧ Told (w.pool.inbox t) t wait deadline v.now call := by
  refine ⟨(onward_of_reaches hv).settled t hsize ht, ?_⟩
  refine hv.keep_reached (P := fun v => ∃ call, v.calls[i]? = some call ∧
    Told (w.pool.inbox t) t wait deadline v.now call) ?_ ⟨_, hi, .ready⟩
  rintro x a hx he ⟨call, hcall, htold⟩
  exact perform_told he ((onward_of_reaches hx).settled t hsize ht) hcall htold

theorem pool_stop (hruns : w.pool.running = true) :
    w.stop.2.pool = { w.pool with running := false }.hangUpAll := by
  rw [stop, if_pos hruns]
  rfl

/-- A stop leaves what was delivered where it is and hangs up on everybody else. -/
theorem stop_hangs_up (hw : w.pool.Attended) (hruns : w.pool.running = true) (t : Ticket) :
    w.stop.2.calls = w.calls ∧ w.stop.2.pool.inboxes.size = w.pool.inboxes.size ∧
      w.stop.2.pool.inbox t ≠ .waiting ∧
      ∀ cause, Pool.waitResult (w.stop.2.pool.inbox t) cause =
        Pool.waitResult (w.pool.inbox t) cause := by
  have hpool := pool_stop hruns
  have hcalls : w.stop.2.calls = w.calls := by
    rw [stop, if_pos hruns]
    rfl
  obtain ⟨inboxes, he, hsize, hinboxes⟩ :=
    Pool.hangUp_fold w.pool.line { w.pool with running := false, line := [] }
  refine ⟨hcalls, ?_, ?_, ?_⟩
  · rw [hpool, Pool.hangUpAll, he]
    exact hsize
  · rw [hpool]
    exact hw.hangUpAll t
  · intro cause
    rw [hpool, Pool.hangUpAll, he]
    rcases hinboxes t with hsame | ⟨hwaited, hhungUp⟩
    · rw [hsame]
      rfl
    · rw [hhungUp, show w.pool.inbox t = .waiting from hwaited]
      cases cause <;> rfl

/-- Who waits when the pool is stopped can resume from then on and comes to an end of its
own: it returns the proxy that had been sent to it, and otherwise it is refused, because the
pool is stopped or because it is late or cancelled. -/
theorem stop_answers_who_waits
    (hw : (opening settings sources chooser now content).Reaches w)
    (hruns : w.pool.running = true) (hi : w.calls[i]? = some (.waiting t wait deadline))
    (hv : w.stop.2.Reaches v) :
    ∃ call, v.calls[i]? = some call ∧
      ((call = .waiting t wait deadline ∧ v.Enabled (.resume i) = true) ∨ call = .abandoned t ∨
      (∃ h, w.pool.inbox t = .delivered h ∧ call = .returned h) ∨
      (∀ h, w.pool.inbox t ≠ .delivered h) ∧ (call = .refused .stopped ∨
        call = .refused (.timedOut wait) ∧ deadline ≤ v.now ∨ call = .refused .cancelled)) := by
  have hgoverned := governed_of_reaches hw
  obtain ⟨hcalls, hsize, hquiet, hresult⟩ := stop_hangs_up hgoverned.attended hruns t
  have hticket : t < w.stop.2.pool.inboxes.size := hsize ▸ hgoverned.ticketed i t wait deadline hi
  obtain ⟨hkept, call, hcall, htold⟩ := told_of_reaches hquiet hticket (hcalls ▸ hi) hv
  refine ⟨call, hcall, ?_⟩
  cases htold with
  | ready => exact .inl ⟨rfl, by simpa [Enabled, hcall, hkept] using hquiet⟩
  | gone => exact .inr (.inl rfl)
  | ended cause hdue =>
    right
    right
    rw [hresult]
    cases w.pool.inbox t with
    | delivered h => exact .inl ⟨h, rfl, rfl⟩
    | waiting | hungUp | closed =>
      refine .inr ⟨by simp, ?_⟩
      cases cause with
      | answered => exact .inl rfl
      | timedOut d =>
        obtain ⟨rfl, hlate⟩ := hdue d rfl
        exact .inr (.inl ⟨rfl, hlate⟩)
      | cancelled => exact .inr (.inr rfl)

/-! ### A stop waits for its run -/

theorem manned_of_run {actions : List Action} (hruns : u.pool.running = true)
    (hu : u.Manned workers loops) (hrun : u.run? actions = some w)
    (hm : u.Meanwhile (fun _ a => a ≠ .stop) actions) :
    w.pool.running = true ∧ w.Manned workers loops := by
  refine Meanwhile.keep (Q := fun w => w.pool.running = true ∧ w.Manned workers loops) ?_ hrun hm
    ⟨hruns, hu⟩
  rintro x a he hstop ⟨hx, hmanned⟩
  exact ⟨perform_running hstop hx, perform_manned he hstop hx hmanned⟩

/-- A stop waits for some tasks, unless they have ended. -/
structure Awaits (k : StopId) (ofWorkers : WorkerId → Prop) (ofLoops : LoopId → Prop)
    (w : World) : Prop where
  hired : ∀ i, ofWorkers i → i < w.workers.size
  begun : ∀ j, ofLoops j → j < w.loops.size
  waits : ∃ s, w.stops[k]? = some s ∧
    (∀ i, ofWorkers i → w.workerStage i = .finished ∨ s.returned = false ∧ i ∈ s.workers) ∧
    ∀ j, ofLoops j → w.isLoopDone j = true ∨ s.returned = false ∧ j ∈ s.loops

variable {ofWorkers : WorkerId → Prop} {ofLoops : LoopId → Prop}

theorem perform_awaits (he : w.Enabled a = true) (hw : w.Awaits k ofWorkers ofLoops) :
    (w.perform a).Awaits k ofWorkers ofLoops := by
  obtain ⟨hired, begun, s, hs, hworkers, hloops⟩ := hw
  have hlasting := perform_lasting he
  refine ⟨fun i hi => Nat.lt_of_lt_of_le (hired i hi) hlasting.workersSize,
    fun j hj => Nat.lt_of_lt_of_le (begun j hj) hlasting.loopsSize, ?_⟩
  rcases perform_stops he hs with hsame | ⟨hreturn, hreturned⟩
  · refine ⟨s, hsame, fun i hi => ?_, fun j hj => ?_⟩
    · exact (hworkers i hi).imp_left (hlasting.finished i (hired i hi))
    · exact (hloops j hj).imp_left (hlasting.done j (begun j hj))
  · rw [canReturn, Bool.and_eq_true, List.all_eq_true, List.all_eq_true] at hreturn
    refine ⟨_, hreturned, fun i hi => ?_, fun j hj => ?_⟩
    · left
      apply hlasting.finished i (hired i hi)
      rcases hworkers i hi with hfinished | ⟨-, hmem⟩
      · exact hfinished
      · exact beq_iff_eq.mp (hreturn.1 i hmem)
    · left
      apply hlasting.done j (begun j hj)
      rcases hloops j hj with hdone | ⟨-, hmem⟩
      · exact hdone
      · exact hreturn.2 j hmem

theorem stop_awaits (hruns : w.pool.running = true) (hw : w.Manned workers loops) :
    w.stop.2.Awaits w.stops.size (fun i => workers ≤ i ∧ i < w.workers.size)
      fun j => loops ≤ j ∧ j < w.loops.size := by
  rcases stop_cases w with ⟨-, hclosed⟩ | hc
  · exact absurd hclosed (by simp [hruns])
  · refine ⟨fun i hi => ?_, fun j hj => ?_, _, by rw [hc.stops, Array.getElem?_push_size], ?_, ?_⟩
    · rw [hc.workers, size_cancelWorkers]
      exact hi.2
    · rw [hc.loops, size_foldl_modify]
      exact hj.2
    · rintro i ⟨hge, hlt⟩
      rcases hw.workers i hge hlt with hactive | hretired | hfinished
      · exact .inr ⟨rfl, List.mem_append_left _ hactive⟩
      · exact .inr ⟨rfl, List.mem_append_right _ hretired⟩
      · left
        rw [workerStage, hc.workers]
        exact (workerStage_cancel w _ i).trans hfinished
    · rintro j ⟨hge, hlt⟩
      exact .inr ⟨rfl, hw.loops j hge hlt⟩

/-- When the stop that ends a run returns, all workers and loops that began in the run have
ended, those that were dismissed in the meantime included, and they stay so. -/
theorem stop_returns_after_its_run {actions : List Action} {s : StopCall}
    (hstart : u.start.2.pool.running = true) (hrun : u.start.2.run? actions = some w)
    (hm : u.start.2.Meanwhile (fun _ a => a ≠ .stop) actions) (hv : w.stop.2.Reaches v)
    (hs : v.stops[w.stops.size]? = some s) (hreturned : s.returned = true) :
    (∀ i, u.workers.size ≤ i → i < w.workers.size → v.workerStage i = .finished) ∧
      ∀ j, u.loops.size ≤ j → j < w.loops.size → v.isLoopDone j = true := by
  obtain ⟨hruns, hmanned⟩ := manned_of_run hstart (start_manned u) hrun hm
  obtain ⟨-, -, s', hs', hworkers, hloops⟩ := hv.keep (fun _ _ he => perform_awaits he)
    (stop_awaits hruns hmanned)
  cases Option.some.inj (hs.symm.trans hs')
  have hopen : s.returned ≠ false := by
    simp [hreturned]
  refine ⟨fun i hge hlt => ?_, fun j hge hlt => ?_⟩
  · exact (hworkers i ⟨hge, hlt⟩).resolve_right fun h => hopen h.1
  · exact (hloops j ⟨hge, hlt⟩).resolve_right fun h => hopen h.1

/-! ### Between runs nothing happens by itself -/

theorem idle_between_runs (hw : w.Tethered) (hclosed : w.pool.running = false)
    (he : w.Enabled a = true) :
    (∀ i, a ≠ .take i) ∧ (∀ j, a ≠ .tick j) ∧ ∀ j answer, a ≠ .supplyLoop j answer := by
  obtain ⟨hactive, -, hcurrent⟩ := hw.ended hclosed
  have hcancelled (j : LoopId) : (w.loops[j]?).map (·.cancelled) ≠ some false := by
    intro hj
    have hmem := hw.loops j hj
    rw [hcurrent] at hmem
    cases hmem
  refine ⟨?_, ?_, ?_⟩
  · rintro i rfl
    have hidle : w.workers[i]? = some ⟨false, .idle⟩ := by
      simp only [Enabled, Bool.and_eq_true, beq_iff_eq] at he
      exact he.1
    have hmem := hw.workers i (by rw [hidle]; rfl)
    rw [hactive] at hmem
    cases hmem
  · rintro j rfl
    have hj := hcancelled j
    cases hl : w.loops[j]? with
    | none => simp [Enabled, hl] at he
    | some l =>
      simp only [Enabled, hl, Bool.and_eq_true, Bool.not_eq_true'] at he
      exact hj (by rw [hl]; exact congrArg some he.1.1)
  · rintro j answer rfl
    have hj := hcancelled j
    simp only [Enabled] at he
    split at he
    · next cancelled state hl =>
      exact hj (by rw [hl]; simpa using he)
    · cases he

/-- No proxy moves and none arrives. -/
def SameProxies (w v : World) : Prop :=
  v.pool.records = w.pool.records ∧ v.pool.registry = w.pool.registry

theorem start_sameProxies (w : World) : SameProxies w w.start.2 := by
  unfold start
  split_ifs
  · exact ⟨rfl, rfl⟩
  · exact ⟨rfl, rfl⟩
  · extract_lets counted chores looping staffed told
    have hstaffed : staffed.pool = looping.pool := congrArg Desk.pool (desk_resize looping)
    have htold : SameProxies w told := by
      constructor
      · exact congrArg (·.records) hstaffed
      · exact congrArg (·.registry) hstaffed
    obtain ⟨trace, he⟩ := Pool.proceed_frame told.pool .start
    have hbegun : told.beginPass.2.pool = { told.pool with trace } := he
    rw [SameProxies, hbegun]
    exact htold

theorem stop_sameProxies (w : World) : SameProxies w w.stop.2 := by
  by_cases hruns : w.pool.running = true
  · obtain ⟨inboxes, he, -⟩ :=
      Pool.hangUp_fold w.pool.line { w.pool with running := false, line := [] }
    rw [SameProxies, pool_stop hruns, Pool.hangUpAll, he]
    exact ⟨rfl, rfl⟩
  · rw [stop, if_neg hruns]
    exact ⟨rfl, rfl⟩

theorem endCall_sameProxies (w : World) (i : CallId) (cause : WaitEnd) :
    SameProxies w (w.endCall i cause) := by
  unfold endCall
  split
  · rw [SameProxies]
    dsimp only [Pool.endGet]
    rw [Pool.leaveLine_eq]
    exact ⟨rfl, rfl⟩
  · exact ⟨rfl, rfl⟩

theorem perform_sameProxies (w : World) (hservice : a.isService = false)
    (hchore : a.isChore = false) : SameProxies w (w.perform a) := by
  cases a with
  | take | conclude | tick | supplyLoop => cases hchore
  | tryGet | get | supplyPass | reportSuccess | reportFailure => cases hservice
  | start => exact start_sameProxies w
  | stop => exact stop_sameProxies w
  | setConcurrency n =>
    rw [perform, setConcurrency]
    split_ifs
    · exact ⟨rfl, rfl⟩
    · constructor
      · exact congrArg (·.pool.records) (desk_resize _)
      · exact congrArg (·.pool.registry) (desk_resize _)
  | fetch =>
    obtain ⟨trace, he⟩ := Pool.proceed_frame w.pool .start
    have hbegun : (w.perform .fetch).pool = { w.pool with trace } := he
    rw [SameProxies, hbegun]
    exact ⟨rfl, rfl⟩
  | resume i | cancel i => exact endCall_sameProxies w i _
  | expire i =>
    rw [perform]
    split
    · exact endCall_sameProxies w i _
    · exact ⟨rfl, rfl⟩
  | abandon i =>
    rw [perform, abandon]
    split
    · rw [SameProxies, Pool.leaveLine_eq]
      exact ⟨rfl, rfl⟩
    · exact ⟨rfl, rfl⟩
  | advance | finishStop | leave | quit => exact ⟨rfl, rfl⟩

/-- Between runs no probe begins, and proxies move and arrive only when a caller wants it, or
when a probe ends that a stop still waits for. -/
theorem nothing_begins_between_runs
    (hw : (opening settings sources chooser now content).Reaches w)
    (hclosed : w.pool.running = false) (he : w.Enabled a = true) :
    (∀ i h, (w.perform a).workerStage i = .probing h → w.workerStage i = .probing h) ∧
    (SameProxies w (w.perform a) ∨ a.isService = true ∨
      ∃ i o s, a = .conclude i o ∧ s ∈ w.stops ∧ s.returned = false ∧ i ∈ s.workers) := by
  have hgoverned := governed_of_reaches hw
  obtain ⟨htake, htick, hsupply⟩ := idle_between_runs hgoverned.tethered hclosed he
  obtain ⟨hactive, hretired, -⟩ := hgoverned.tethered.ended hclosed
  refine ⟨fun i h hi => ?_, ?_⟩
  · rcases probing_of_perform he hgoverned.addsUp hi with hbusy | ⟨rfl, -⟩
    · exact hbusy
    · exact absurd rfl (htake i)
  · by_cases hservice : a.isService = true
    · exact .inr (.inl hservice)
    by_cases hchore : a.isChore = true
    · cases a with
      | take i => exact absurd rfl (htake i)
      | tick j => exact absurd rfl (htick j)
      | supplyLoop j answer => exact absurd rfl (hsupply j answer)
      | conclude i o =>
        obtain ⟨h, -, -, hprobing, -⟩ := conclude_of_enabled he
        have hemployed := hgoverned.staffed i (by simp [hprobing])
        rw [Employed, hactive, hretired] at hemployed
        simp only [List.not_mem_nil, false_or] at hemployed
        obtain ⟨s, hs, hopen, hmem⟩ := hemployed
        exact .inr (.inr ⟨i, o, s, rfl, hs, hopen, hmem⟩)
      | _ => cases hchore
    · left
      apply perform_sameProxies w
      · exact Bool.eq_false_iff.mpr hservice
      · exact Bool.eq_false_iff.mpr hchore

/-- The exception: a run ends while a proxy is probed, and so does the next one, whose stop
returns first; then the probe ends. -/
theorem probe_ends_after_later_stop :
    ∃ w, (opening { Settings.standard with validationConcurrency := 1 } ["s"] (.roundRobin 0)
        0 []).run?
      [.start, .supplyPass 0 (.ok [.plain "a" 1 .http]), .take 0, .stop, .start,
        .supplyPass 1 (.ok []), .stop, .leave 1, .quit 3, .quit 4, .quit 5, .finishStop 1] = some w ∧
      w.pool.running = false ∧ w.stops.toList.map (·.returned) = [false, true] ∧
      w.Enabled (.conclude 0 (.success 0 .zero 200)) = true ∧
      w.pool.state? 0 = some .validating ∧
      (w.perform (.conclude 0 (.success 0 .zero 200))).pool.state? 0 = some .available := by
  have hrun : ((opening { Settings.standard with validationConcurrency := 1 } ["s"]
        (.roundRobin 0) 0 []).run?
      [.start, .supplyPass 0 (.ok [.plain "a" 1 .http]), .take 0, .stop, .start,
        .supplyPass 1 (.ok []), .stop, .leave 1, .quit 3, .quit 4, .quit 5, .finishStop 1]).map
      (fun w => decide (w.pool.running = false ∧ w.stops.toList.map (·.returned) = [false, true] ∧
        w.Enabled (.conclude 0 (.success 0 .zero 200)) = true ∧
        w.pool.state? 0 = some .validating ∧
        (w.perform (.conclude 0 (.success 0 .zero 200))).pool.state? 0 = some .available)) =
      some true := by
    decide +kernel
  obtain ⟨w, hw, hfacts⟩ := Option.map_eq_some_iff.mp hrun
  exact ⟨w, hw, of_decide_eq_true hfacts⟩

end World
end ProxyLease
