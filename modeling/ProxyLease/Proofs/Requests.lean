import ProxyLease.Proofs.Lease.Holding
import ProxyLease.Proofs.World.Opening
import ProxyLease.Proofs.World.Standing

/-!
# Accounts of requests

A request is counted when it begins, whoever answers it in the end. A proxy that is claimed
for a request is counted when it is claimed, whether the caller has it at once, finds it in
the inbox later, or goes away and never does. Who waits is counted until the wait ends, in
whatever way. The three figures are moved by different parties, and yet they balance with
what became of the calls.
-/

namespace ProxyLease

/-! ### What became of a call -/

namespace Call

def isWaiting : Call → Bool
  | .waiting _ _ _ => true
  | _ => false

def isReturned : Call → Bool
  | .returned _ => true
  | _ => false

/-- The call returned nothing, or an error. -/
def isTurnedAway : Call → Bool
  | .empty | .refused _ => true
  | _ => false

def isAbandoned : Call → Bool
  | .abandoned _ => true
  | _ => false

end Call

namespace Pool

variable {p q : Pool} {c : Call} {t : Ticket}

def hasDelivered (p : Pool) (t : Ticket) : Bool :=
  match p.inbox t with
  | .delivered _ => true
  | _ => false

/-- Whether a proxy was sent to the channel of a call, which has not picked it up. -/
def isSent (p : Pool) (c : Call) : Bool := (c.ticket?.map p.hasDelivered).getD false

/-- Whether a claimed proxy reached a call or the channel of one. -/
def isServed (p : Pool) (c : Call) : Bool := c.isReturned || p.isSent c

theorem hasDelivered_iff : p.hasDelivered t = true ↔ ∃ h, p.inbox t = .delivered h := by
  unfold hasDelivered
  cases p.inbox t <;> simp

theorem hasDelivered_congr (hdelivered : ∀ h, q.inbox t = .delivered h ↔ p.inbox t = .delivered h) :
    q.hasDelivered t = p.hasDelivered t := by
  rw [Bool.eq_iff_iff, hasDelivered_iff, hasDelivered_iff]
  simp only [hdelivered]

theorem isServed_of_ticket (hc : c.ticket? = some t) : p.isServed c = p.hasDelivered t := by
  have hreturned : c.isReturned = false := by cases c <;> simp_all [Call.ticket?, Call.isReturned]
  simp [isServed, isSent, hc, hreturned]

/-- What became of the inboxes matters to calls with a ticket only. -/
theorem isServed_congr (hticket : ∀ t, c.ticket? = some t → q.hasDelivered t = p.hasDelivered t) :
    q.isServed c = p.isServed c := by
  cases hc : c.ticket? with
  | none => simp [isServed, isSent, hc]
  | some t => rw [isServed_of_ticket hc, isServed_of_ticket hc, hticket t hc]

end Pool

/-! ### Counting calls -/

section Counting

variable {calls : Array Call} {i : CallId} {c : Call}

theorem countP_set_call (P : Call → Bool) (hi : calls[i]? = some c) (c' : Call) :
    (calls.setIfInBounds i c').countP P + (if P c then 1 else 0) =
      calls.countP P + if P c' then 1 else 0 := by
  obtain ⟨hlt, hc⟩ := Array.getElem?_eq_some_iff.mp hi
  have hle := Array.boole_getElem_le_countP (p := P) hlt
  rw [hc] at hle
  rw [Array.setIfInBounds, dif_pos hlt, Array.countP_set hlt, hc]
  omega

theorem countP_kinds (calls : Array Call) :
    calls.size = calls.countP Call.isReturned + calls.countP Call.isTurnedAway +
      calls.countP Call.isAbandoned + calls.countP Call.isWaiting := by
  simp only [← Array.countP_toList, ← Array.length_toList]
  induction calls.toList with
  | nil => rfl
  | cons c rest ih =>
    simp only [List.length_cons, List.countP_cons]
    cases c <;> simp [Call.isReturned, Call.isTurnedAway, Call.isAbandoned, Call.isWaiting] <;> omega

/-- A proxy is with the call that returned it, or in its channel, but not both. -/
theorem countP_isServed (p : Pool) (calls : Array Call) :
    calls.countP p.isServed = calls.countP Call.isReturned + calls.countP p.isSent := by
  simp only [← Array.countP_toList]
  induction calls.toList with
  | nil => rfl
  | cons c rest ih =>
    have hone : c.isReturned = true → p.isSent c = false := by
      cases c <;> simp [Call.isReturned, Pool.isSent, Call.ticket?]
    simp only [List.countP_cons, ih, Pool.isServed]
    by_cases hreturned : c.isReturned = true
    · simp [hreturned, hone hreturned, Nat.add_right_comm]
    · simp [hreturned, Nat.add_assoc]

theorem countP_isServed_add_one {p q : Pool} (hi : calls[i]? = some c) (hp : p.isServed c = false)
    (hq : q.isServed c = true)
    (hsame : ∀ (j : CallId) c', j ≠ i → calls[j]? = some c' → q.isServed c' = p.isServed c') :
    calls.countP q.isServed = calls.countP p.isServed + 1 := by
  -- With the call itself out of the way, the two counts agree.
  have hp0 := countP_set_call p.isServed hi .empty
  have hq0 := countP_set_call q.isServed hi .empty
  have hrest : (calls.setIfInBounds i .empty).countP q.isServed =
      (calls.setIfInBounds i .empty).countP p.isServed := by
    refine Array.countP_congr fun c' hc' => ?_
    obtain ⟨j, hj⟩ := Array.mem_iff_getElem?.mp hc'
    rw [getElem?_set_call hi] at hj
    split_ifs at hj with hji
    · cases hj
      exact Iff.rfl
    · rw [hsame j c' hji hj]
  have hempty (r : Pool) : r.isServed .empty = false := rfl
  simp only [hp, hq, hempty, hrest] at hp0 hq0
  simp at hp0 hq0
  omega

end Counting

/-! ### Figures -/

namespace Pool

variable {c : Concern} {p q : Pool} {h : Handle} {s t : Lifecycle}

theorem dealings_transfer (hs : p.state? h = some s) (hst : s ≠ t) :
    (p.transfer h s t).census.dealings = p.census.dealings := by
  obtain ⟨id, hid⟩ := exists_id_of_state hs
  rw [transfer_eq hs hid hst]
  exact Census.dealings_change _ _ _ _

theorem dealings_beginProbe (p : Pool) (h : Handle) :
    (p.beginProbe h).2.census.dealings = p.census.dealings := by
  rcases beginProbe_cases p h with ⟨_, he⟩ | ⟨hs, _, he⟩ | ⟨hs, _, he⟩
  · rw [he]
  · have hv : (p.transfer h .pending .validating).state? h = some .validating := by
      rw [state?_transfer hs (by decide), if_pos rfl]
    rw [he, dealings_transfer hv (by decide), dealings_transfer hs (by decide)]
  · rw [he]
    exact dealings_transfer hs (by decide)

/-- Nothing but a request is counted as one, and nothing but a claim as a success. -/
theorem Change.dealings (hc : Change c p q) (hne : c ≠ .request) :
    q.census.dealings = p.census.dealings := by
  cases hc with
  | remark | restat | choose | trim | elapse | staff => rfl
  | tally census _ _ hdealings => exact hdealings
  | ask hrequest => exact absurd hrequest hne
  | requeue h hs hr =>
    rw [requeue_eq hs hr.ne]
    exact dealings_transfer hs hr.ne
  | begin => exact dealings_beginProbe _ _
  | fail h hs hr => exact dealings_transfer hs hr.ne
  | register e ha =>
    obtain ⟨registry, queue, _, rfl⟩ := admit?_eq_some ha
    exact Census.dealings_add _ _ _
  | launch => exact Census.dealings_foldl_add _ _ _
  | close =>
    obtain ⟨inboxes, he, _, _⟩ := hangUp_fold p.line { p with running := false, line := [] }
    rw [hangUpAll, he]

theorem Changes.dealings (hc : Changes c p q) (hne : c ≠ .request) :
    q.census.dealings = p.census.dealings :=
  hc.keep (P := fun q => q.census.dealings = p.census.dealings)
    (fun hstep hq => (hstep.dealings hne).trans hq) rfl

theorem dealings_handOut (hs : p.state? h = some .available) :
    (p.handOut h).census.dealings =
      (p.census.requests, p.census.successfulRequests + 1, p.census.waiting) := by
  have hclaimed : p.claimedCensus.dealings = p.census.dealings := by
    unfold claimedCensus
    split
    · exact Census.dealings_remove _ _ _
    · exact Census.dealings_change _ _ _ _
  simp only [Census.dealings, Prod.mk.injEq] at hclaimed
  obtain ⟨hrequests, hserved, hwaiting⟩ := hclaimed
  obtain ⟨id, hid⟩ := exists_id_of_state hs
  rw [handOut_eq hs hid]
  simp only [Census.dealings, Census.recordServed, hrequests, hserved, hwaiting]

end Pool

/-! ### Balance -/

namespace Desk

variable {c : Concern} {d e : Desk} {q : Pool} {made : Nat} {h : Handle} {i : CallId} {t : Ticket}
  {wait : Duration} {deadline : Instant}

/-- The figures of a pool that counted some requests balance with its calls. -/
structure Balanced (made : Nat) (d : Desk) : Prop where
  seated : d.Seated
  requests : d.pool.census.requests = made
  served : d.pool.census.successfulRequests = d.calls.countP d.pool.isServed
  waiting : d.pool.census.waiting = d.calls.countP Call.isWaiting

namespace Balanced

theorem still (hb : Balanced made d) (hseated : (⟨q, d.calls⟩ : Desk).Seated)
    (hdealings : q.census.dealings = d.pool.census.dealings)
    (hdelivered : ∀ t h, q.inbox t = .delivered h ↔ d.pool.inbox t = .delivered h) :
    Balanced made ⟨q, d.calls⟩ := by
  simp only [Census.dealings, Prod.mk.injEq] at hdealings
  obtain ⟨hrequests, hserved, hwaiting⟩ := hdealings
  have hsame : d.calls.countP q.isServed = d.calls.countP d.pool.isServed := by
    refine Array.countP_congr fun call _ => ?_
    rw [Pool.isServed_congr fun t _ => Pool.hasDelivered_congr (hdelivered t)]
  exact ⟨hseated, hrequests.trans hb.requests, (hserved.trans hb.served).trans hsame.symm,
    hwaiting.trans hb.waiting⟩

theorem changes (hb : Balanced made d) (hc : Pool.Changes c d.pool q) (hne : c ≠ .request) :
    Balanced made ⟨q, d.calls⟩ :=
  hb.still (hb.seated.calm hc.calm) (hc.dealings hne) fun _ _ => hc.calm.delivered

theorem transfer (hb : Balanced made d) {s s' : Lifecycle} (hs : d.pool.state? h = some s)
    (hss : s ≠ s') : Balanced made ⟨d.pool.transfer h s s', d.calls⟩ := by
  have hdealings := Pool.dealings_transfer hs hss
  obtain ⟨records, registry, census, trace, he⟩ := Pool.transfer_frame d.pool h s s'
  rw [he] at hdealings ⊢
  exact hb.still (hb.seated.of_inboxes rfl) hdealings fun _ _ => Iff.rfl

theorem deliver (hb : Balanced made d) {others : List Ticket} (ht : d.pool.inbox t = .waiting)
    (hs : d.pool.state? h = some .available) :
    Balanced made ⟨d.pool.deliver t others h, d.calls⟩ := by
  have hsent : ({ d.pool with line := others }.setInbox t (.delivered h)).state? h =
      some .available := hs
  have hdealings : (d.pool.deliver t others h).census.dealings = (d.pool.census.requests,
      d.pool.census.successfulRequests + 1, d.pool.census.waiting) := Pool.dealings_handOut hsent
  simp only [Census.dealings, Prod.mk.injEq] at hdealings
  obtain ⟨hrequests, hserved, hwaiting⟩ := hdealings
  have hinbox := Pool.inbox_deliver ht others h
  obtain ⟨i, hi⟩ := hb.seated.expected t ht
  obtain ⟨call, hcall, hticket⟩ := Option.bind_eq_some_iff.mp hi
  have hone : d.calls.countP (d.pool.deliver t others h).isServed =
      d.calls.countP d.pool.isServed + 1 := by
    refine countP_isServed_add_one hcall ?_ ?_ fun j call' hji hj => ?_
    · rw [Pool.isServed_of_ticket hticket, Pool.hasDelivered, ht]
    · rw [Pool.isServed_of_ticket hticket, Pool.hasDelivered_iff]
      exact ⟨h, by rw [hinbox, if_pos rfl]⟩
    · refine Pool.isServed_congr fun u hu => Pool.hasDelivered_congr fun k => ?_
      have hut : u ≠ t := by
        rintro rfl
        exact hji (hb.seated.single j i u (by rw [seat?, hj]; exact hu) hi)
      rw [hinbox, if_neg hut]
  exact ⟨hb.seated.deliver ht others h, hrequests.trans hb.requests,
    (hserved.trans (congrArg (· + 1) hb.served)).trans hone.symm, hwaiting.trans hb.waiting⟩

theorem offered (hb : Balanced made d) (hs : d.pool.state? h = some .available) :
    Balanced made ⟨(d.pool.offer h).2, d.calls⟩ := by
  rcases Pool.offer_cases d.pool h with ⟨_, ho⟩ | ⟨hn, _⟩ | ⟨t, others, hl, _, ho⟩
  · rw [ho]
    exact hb.still (hb.seated.of_inboxes rfl) rfl fun _ _ => Iff.rfl
  · exact absurd hs hn
  · rw [ho]
    exact hb.deliver (Pool.waiting_of_dropWhile hl) hs

theorem free (hb : Balanced made d) {s : Lifecycle} (hs : d.pool.state? h = some s)
    (hne : s ≠ .available) : Balanced made ⟨d.pool.free h s, d.calls⟩ := by
  have havailable : (d.pool.transfer h s .available).state? h = some .available := by
    rw [Pool.state?_transfer hs hne, if_pos rfl]
  exact (hb.transfer hs hne).offered havailable

theorem services (hb : Balanced made d) (hq : Pool.Services c d.pool q) (hne : c ≠ .request) :
    Balanced made ⟨q, d.calls⟩ := by
  refine hq.keep (P := fun p => Balanced made ⟨p, d.calls⟩) (fun hstep hp => ?_) hb
  cases hstep with
  | change hc => exact hp.changes hc.changes hne
  | deliver h hl hs => exact hp.deliver (Pool.waiting_of_dropWhile hl) hs

theorem take (hb : Balanced made d) (hs : d.pool.state? h = some .available) :
    Balanced made ⟨d.pool.handOut h, d.calls.push (.returned h)⟩ := by
  have hdealings := Pool.dealings_handOut hs
  simp only [Census.dealings, Prod.mk.injEq] at hdealings
  obtain ⟨hrequests, hserved, hwaiting⟩ := hdealings
  have hinboxes : (d.pool.handOut h).inboxes = d.pool.inboxes := by
    obtain ⟨records, registry, census, trace, he⟩ := Pool.handOut_frame d.pool h
    rw [he]
  have hsame : d.calls.countP (d.pool.handOut h).isServed = d.calls.countP d.pool.isServed := by
    refine Array.countP_congr fun call _ => ?_
    rw [Pool.isServed_congr fun u _ => Pool.hasDelivered_congr fun k => ?_]
    rw [Pool.inbox, Pool.inbox, hinboxes]
  refine ⟨hb.seated.push rfl hinboxes, hrequests.trans hb.requests, ?_, ?_⟩
  · rw [hserved, hb.served, Array.countP_push, hsame]
    rfl
  · rw [hwaiting, hb.waiting, Array.countP_push]
    rfl

theorem turnAway (hb : Balanced made d) {call : Call}
    (hc : call = .empty ∨ ∃ failure, call = .refused failure) :
    Balanced made ⟨d.pool, d.calls.push call⟩ := by
  have hcall : call.ticket? = none ∧ d.pool.isServed call = false ∧ call.isWaiting = false := by
    rcases hc with rfl | ⟨failure, rfl⟩ <;> exact ⟨rfl, rfl, rfl⟩
  refine ⟨hb.seated.push hcall.1 rfl, hb.requests, ?_, ?_⟩
  · simp [hcall, hb.served]
  · simp [hcall, hb.waiting]

theorem join (hb : Balanced made d) (wait : Duration) (deadline : Instant) :
    Balanced made
      ⟨d.pool.joinLine.2, d.calls.push (.waiting d.pool.inboxes.size wait deadline)⟩ := by
  have hinbox := Pool.inbox_joinLine d.pool
  have hsame : d.calls.countP d.pool.joinLine.2.isServed = d.calls.countP d.pool.isServed := by
    refine Array.countP_congr fun call hcall => ?_
    obtain ⟨j, hj⟩ := Array.mem_iff_getElem?.mp hcall
    rw [Pool.isServed_congr fun u hu => Pool.hasDelivered_congr fun k => ?_]
    have hu : u < d.pool.inboxes.size := hb.seated.known j u (by rw [seat?, hj]; exact hu)
    rw [hinbox, if_neg (Nat.ne_of_lt hu)]
  have hnew : d.pool.joinLine.2.isServed (.waiting d.pool.inboxes.size wait deadline) = false := by
    rw [Pool.isServed_of_ticket rfl, Pool.hasDelivered, hinbox, if_pos rfl]
  refine ⟨hb.seated.join wait deadline, hb.requests, ?_, ?_⟩
  · rw [Array.countP_push, hsame, hnew]
    exact hb.served
  · rw [Array.countP_push]
    exact congrArg (· + 1) hb.waiting

/-- Whoever ends a wait and however it ends, the call is not counted any more among those that
wait, and its proxy stays counted. -/
theorem leave (hb : Balanced made d) {call : Call}
    (hi : d.calls[i]? = some (.waiting t wait deadline))
    (hseated : (⟨d.pool.leaveLine t, d.calls.setIfInBounds i call⟩ : Desk).Seated)
    (hcall : d.pool.isServed call = d.pool.hasDelivered t) (hends : call.isWaiting = false) :
    Balanced made ⟨d.pool.leaveLine t, d.calls.setIfInBounds i call⟩ := by
  have hserved := countP_set_call d.pool.isServed hi call
  have hwaiting := countP_set_call Call.isWaiting hi call
  have hsame (call : Call) : (d.pool.leaveLine t).isServed call = d.pool.isServed call :=
    Pool.isServed_congr fun u _ =>
      Pool.hasDelivered_congr fun k => Pool.delivered_leaveLine d.pool t u
  rw [Pool.isServed_of_ticket (c := .waiting t wait deadline) rfl, hcall] at hserved
  rw [hends, show Call.isWaiting (.waiting t wait deadline) = true from rfl] at hwaiting
  refine ⟨hseated, ?_, ?_, ?_⟩
  · rw [Pool.leaveLine_eq]
    exact hb.requests
  · rw [show (d.pool.leaveLine t).isServed = d.pool.isServed from funext hsame, Pool.leaveLine_eq]
    exact hb.served.trans (Nat.add_right_cancel hserved).symm
  · rw [Pool.leaveLine_eq]
    simp only [Census.endWait, hb.waiting]
    simp at hwaiting
    omega

theorem settle (hb : Balanced made d) (hi : d.calls[i]? = some (.waiting t wait deadline))
    (cause : WaitEnd) : Balanced made ⟨d.pool.leaveLine t,
      d.calls.setIfInBounds i (World.Call.ofResult (Pool.waitResult (d.pool.inbox t) cause))⟩ := by
  refine hb.leave hi (hb.seated.settle hi ?_) ?_ ?_
  · cases Pool.waitResult (d.pool.inbox t) cause <;> rfl
  · by_cases hsent : ∃ k, d.pool.inbox t = .delivered k
    · rw [Pool.hasDelivered_iff.mpr hsent]
      obtain ⟨k, hk⟩ := hsent
      rw [hk, Pool.waitResult_delivered]
      rfl
    · rw [Bool.eq_false_iff.mpr (mt Pool.hasDelivered_iff.mp hsent)]
      obtain ⟨failure, hfailure⟩ := Pool.waitResult_eq_error (fun k hk => hsent ⟨k, hk⟩) cause
      rw [hfailure]
      rfl
  · cases Pool.waitResult (d.pool.inbox t) cause <;> rfl

theorem abandon (hb : Balanced made d) (hi : d.calls[i]? = some (.waiting t wait deadline)) :
    Balanced made ⟨d.pool.leaveLine t, d.calls.setIfInBounds i (.abandoned t)⟩ :=
  hb.leave hi (hb.seated.abandon hi) (Pool.isServed_of_ticket rfl) rfl

theorem act (hb : Balanced made d) (ha : Act c d e) (hne : c ≠ .request) : Balanced made e := by
  cases ha with
  | rest => exact hb
  | free h hs => exact hb.free hs (by decide)
  | take h hs => exact hb.take hs
  | turnAway hc => exact hb.turnAway hc
  | join wait deadline hq hc => exact (hb.join wait deadline).services hq hne
  | settle hi cause => exact hb.settle hi cause

theorem stretch (hb : Balanced made d) (hs : Stretch c d e) (hne : c ≠ .request) :
    Balanced made e := by
  obtain ⟨p, hc, ha⟩ := hs
  exact (hb.changes hc hne).act ha hne

theorem reported (hb : Balanced made d) (hr : Pool.Reported h d.pool q) :
    Balanced made ⟨q, d.calls⟩ := by
  obtain ⟨r, hc, _, ⟨_, hreturn⟩ | ⟨_, rfl⟩⟩ := hr
  · have hnoted := hb.changes hc nofun
    cases hreturn with
    | free _ hs => exact hnoted.free hs (by decide)
    | punish ht _ hs => exact hnoted.transfer hs (by rcases ht with rfl | rfl <;> decide)
  · exact hb.changes hc nofun

end Balanced
end Desk

namespace World

variable {w : World}

theorem size_perform_calls (w : World) (a : Action) :
    (w.perform a).calls.size = w.calls.size + if a.isRequest then 1 else 0 := by
  have hstep := perform_calls w a
  generalize (w.perform a).calls = calls at hstep
  cases hstep with
  | still ha => simp [ha]
  | reply ha => simp [ha]
  | join => simp [Action.isRequest]
  | finish _ ha => cases a <;> simp [Action.waitEnd?, Action.isRequest] at ha ⊢
  | leave => simp [Action.isRequest]

theorem perform_balanced (a : Action) (hb : w.desk.Balanced w.calls.size) :
    (w.perform a).desk.Balanced (w.perform a).calls.size := by
  by_cases ha : a.isRequest = true
  · have hasked : Desk.Balanced (w.calls.size + 1) ⟨w.pool.requested, w.calls⟩ :=
      ⟨hb.seated.of_inboxes rfl, congrArg (· + 1) hb.requests, hb.served, hb.waiting⟩
    rw [size_perform_calls, if_pos ha]
    cases a with
    | tryGet => exact hasked.stretch (tryGet_asked (c := .upkeep) w) nofun
    | get timeout => exact hasked.stretch (get_asked (c := .upkeep) w timeout) nofun
    | _ => cases ha
  · rw [size_perform_calls, if_neg ha, Nat.add_zero]
    rcases perform_cases w a with hs | ⟨h, _, hr, hcalls⟩ | ⟨i, t, wait, deadline, hi, hd⟩
    · exact hb.stretch hs fun hc => ha (isRequest_of_concern hc)
    · rw [desk, hcalls]
      exact hb.reported hr
    · rw [hd]
      exact hb.abandon hi

variable {settings : Settings} {sources : List String} {chooser : Chooser} {now : Instant}
  {content : List (Record Float)}

theorem balanced_of_reaches (hw : (opening settings sources chooser now content).Reaches w) :
    w.desk.Balanced w.calls.size := by
  refine hw.keep (P := fun w => w.desk.Balanced w.calls.size) (fun w a _ => perform_balanced a) ?_
  refine ⟨⟨?_, ?_, ?_⟩, rfl, rfl, rfl⟩
  · intro i t hi
    cases hi
  · intro i j t hi
    cases hi
  · intro t ht
    cases ht

end World

/-- In every run the requests that were made are the calls that returned a proxy, those that
were turned away, those that were left by their callers, and those that wait. The successes are
the proxies that were returned, and those that were sent to a caller who has not resumed yet or
went away before. -/
theorem requests_balance {settings : Settings} {sources : List String} {chooser : Chooser}
    {now : Instant} {content : List (Record Float)} {w : World}
    (hw : (World.opening settings sources chooser now content).Reaches w) :
    w.pool.census.requests =
      w.calls.countP Call.isReturned + w.calls.countP Call.isTurnedAway +
        w.calls.countP Call.isAbandoned + w.pool.census.waiting ∧
    w.pool.census.waiting = w.calls.countP Call.isWaiting ∧
    w.pool.census.successfulRequests =
      w.calls.countP Call.isReturned + w.calls.countP w.pool.isSent := by
  have hb := World.balanced_of_reaches hw
  have hwaiting : w.pool.census.waiting = w.calls.countP Call.isWaiting := hb.waiting
  refine ⟨?_, hwaiting, ?_⟩
  · rw [hwaiting, ← countP_kinds]
    exact hb.requests
  · rw [← countP_isServed]
    exact hb.served

/-- One request finds nothing, one is served at once, two time out or are cancelled, one is
served and left, one is served and not resumed yet, and one waits. -/
theorem requests_balance_of_seven :
    ∃ w, (World.opening .standard ["s"] (.roundRobin 0) 0 []).run?
        [.tryGet, .start, .supplyPass 0 (.ok [.plain "a" 1 .http, .plain "b" 1 .http,
            .plain "c" 1 .http]), .take 0, .take 1, .take 2,
          .get none, .get none, .get (some (.ofSeconds 1)), .get none,
          .conclude 0 (.success 0 .zero 200), .abandon 1, .conclude 1 (.success 0 .zero 200),
          .advance (.ofSeconds 1), .expire 3, .cancel 4,
          .conclude 2 (.success 1000000000 .zero 200), .tryGet, .get none] = some w ∧
      w.pool.census.requests = 1 + 3 + 1 + 2 ∧ w.pool.census.waiting = 2 ∧
      w.pool.census.successfulRequests = 1 + 2 := by
  let actions : List Action :=
    [.tryGet, .start, .supplyPass 0 (.ok [.plain "a" 1 .http, .plain "b" 1 .http,
        .plain "c" 1 .http]), .take 0, .take 1, .take 2,
      .get none, .get none, .get (some (.ofSeconds 1)), .get none,
      .conclude 0 (.success 0 .zero 200), .abandon 1, .conclude 1 (.success 0 .zero 200),
      .advance (.ofSeconds 1), .expire 3, .cancel 4,
      .conclude 2 (.success 1000000000 .zero 200), .tryGet, .get none]
  have hrun : ((World.opening .standard ["s"] (.roundRobin 0) 0 []).run? actions).map
      (fun w => decide (w.calls.countP Call.isReturned = 1 ∧ w.calls.countP Call.isTurnedAway = 3 ∧
        w.calls.countP Call.isAbandoned = 1 ∧ w.calls.countP Call.isWaiting = 2 ∧
        w.calls.countP w.pool.isSent = 2)) = some true := by
    decide +kernel
  obtain ⟨w, hw, hfacts⟩ := Option.map_eq_some_iff.mp hrun
  obtain ⟨hreturned, hturned, habandoned, hwaits, hsent⟩ := of_decide_eq_true hfacts
  obtain ⟨hrequests, hwaiting, hserved⟩ := requests_balance ⟨actions, hw⟩
  rw [hwaits] at hwaiting
  rw [hreturned, hturned, habandoned, hwaiting] at hrequests
  rw [hreturned, hsent] at hserved
  exact ⟨w, hw, hrequests, hwaiting, hserved⟩

end ProxyLease
