import ProxyLease.Proofs.World.Stretch

/-!
# Standing in line

Who waits stands in line, so hanging up on the line reaches everybody who waits. Nobody
stands in the line of a pool that does not run. What an inbox holds once its owner does not
wait any more stays in it.
-/

namespace ProxyLease

namespace Pool

variable {c : Concern} {p q r : Pool} {h : Handle} {t : Ticket}

/-- Whether a pool runs, and how many workers it wants. -/
def regime (p : Pool) : Bool × Nat := (p.running, p.concurrency)

/-- Most changes leave the clock, the inboxes and the regime alone and at most trim the
line. The others belong to the upkeep of the pool as a whole. -/
theorem Change.at_desk (hc : Change c p q) :
    (q.now = p.now ∧ q.regime = p.regime ∧ q.inboxes = p.inboxes ∧
      (q.line = p.line ∨ q.line = p.trimmed.line)) ∨
    c = .upkeep ∧ ((∃ d : Duration, q = { p with now := p.now + d.ns }) ∨
      (∃ n, q = { p with concurrency := n }) ∨ q = { p with running := true }.recount ∨
      q = { p with running := false }.hangUpAll) := by
  cases hc with
  | remark | restat | tally | ask | choose => exact .inl ⟨rfl, rfl, rfl, .inl rfl⟩
  | trim => exact .inl ⟨rfl, rfl, rfl, .inr rfl⟩
  | requeue h hs hr =>
    rw [requeue_eq hs hr.ne]
    obtain ⟨records, registry, census, trace, he⟩ := transfer_frame p h _ .pending
    rw [he]
    exact .inl ⟨rfl, rfl, rfl, .inl rfl⟩
  | @begin h rest =>
    left
    rcases beginProbe_cases { p with queue := rest } h with ⟨_, hb⟩ | ⟨_, _, hb⟩ | ⟨_, _, hb⟩
    · rw [hb]
      exact ⟨rfl, rfl, rfl, .inl rfl⟩
    · obtain ⟨_, _, _, _, hfirst⟩ :=
        transfer_frame { p with queue := rest } h .pending .validating
      rw [hb, hfirst]
      obtain ⟨_, _, _, _, hlast⟩ := transfer_frame _ h .validating .expired
      rw [hlast]
      exact ⟨rfl, rfl, rfl, .inl rfl⟩
    · obtain ⟨_, _, _, _, hfirst⟩ :=
        transfer_frame { p with queue := rest } h .pending .validating
      rw [hb, hfirst]
      exact ⟨rfl, rfl, rfl, .inl rfl⟩
  | fail h _ _ _ =>
    obtain ⟨records, registry, census, trace, he⟩ := transfer_frame p h .validating _
    rw [he]
    exact .inl ⟨rfl, rfl, rfl, .inl rfl⟩
  | register e ha _ =>
    obtain ⟨registry, queue, _, rfl⟩ := admit?_eq_some ha
    exact .inl ⟨rfl, rfl, rfl, .inl rfl⟩
  | elapse d hupkeep => exact .inr ⟨hupkeep, .inl ⟨d, rfl⟩⟩
  | staff n hupkeep => exact .inr ⟨hupkeep, .inr (.inl ⟨n, rfl⟩)⟩
  | launch hupkeep => exact .inr ⟨hupkeep, .inr (.inr (.inl rfl))⟩
  | close hupkeep => exact .inr ⟨hupkeep, .inr (.inr (.inr rfl))⟩

/-! ### The regime -/

theorem running_of_regime (h : q.regime = p.regime) : q.running = p.running := congrArg Prod.fst h

theorem concurrency_of_regime (h : q.regime = p.regime) : q.concurrency = p.concurrency :=
  congrArg Prod.snd h

theorem Changes.regime (hc : Changes c p q) (hne : c ≠ .upkeep) : q.regime = p.regime := by
  refine hc.keep (P := fun q => q.regime = p.regime) (fun hstep hq => ?_) rfl
  rcases hstep.at_desk with ⟨_, hregime, _⟩ | ⟨hupkeep, _⟩
  · exact hregime.trans hq
  · exact absurd hupkeep hne

theorem Changes.running (hc : Changes c p q) (hne : c ≠ .upkeep) : q.running = p.running :=
  running_of_regime (hc.regime hne)

theorem regime_deliver (p : Pool) (t : Ticket) (others : List Ticket) (h : Handle) :
    (p.deliver t others h).regime = p.regime := by
  obtain ⟨records, registry, census, trace, he⟩ := deliver_frame p t others h
  rw [he]
  rfl

theorem Services.regime (hs : Services c p q) (hne : c ≠ .upkeep) : q.regime = p.regime := by
  refine hs.keep (P := fun q => q.regime = p.regime) (fun hstep hq => ?_) rfl
  cases hstep with
  | change hc => exact (hc.changes.regime hne).trans hq
  | deliver h hl hs => exact (regime_deliver _ _ _ h).trans hq

theorem regime_transfer (p : Pool) (h : Handle) (s s' : Lifecycle) :
    (p.transfer h s s').regime = p.regime := by
  obtain ⟨records, registry, census, trace, he⟩ := transfer_frame p h s s'
  rw [he]
  rfl

theorem regime_free (p : Pool) (h : Handle) (s : Lifecycle) :
    (p.free h s).regime = p.regime := by
  rw [free]
  rcases offer_cases (p.transfer h s .available) h with ⟨_, ho⟩ | ⟨_, ho⟩ | ⟨t, others, _, _, ho⟩
  · rw [ho]
    exact regime_transfer p h s .available
  · rw [ho]
    exact regime_transfer p h s .available
  · rw [ho]
    exact (regime_deliver _ t others h).trans (regime_transfer p h s .available)

theorem regime_requeue (p : Pool) (h : Handle) (s : Lifecycle) :
    (p.requeue h s).regime = p.regime := by
  by_cases hs : p.state? h = some s ∧ s ≠ .pending
  · rw [requeue_eq hs.1 hs.2]
    exact regime_transfer p h s .pending
  · by_cases hstate : p.state? h = some s
    · have hsame : s = .pending := by
        by_contra hne
        exact hs ⟨hstate, hne⟩
      simp [requeue, shiftFrom?, shift?, hstate, hsame]
    · rw [requeue, shiftFrom?_eq_none hstate]

theorem regime_requeueStale (p : Pool) : p.requeueStale.regime = p.regime := by
  refine List.foldlRecOn (motive := fun q : Pool => q.regime = p.regime) _ _ rfl ?_
  intro q hq h _
  split
  · exact (regime_requeue q h .available).trans hq
  · exact hq

theorem regime_requeueRested (p : Pool) : p.requeueRested.regime = p.regime := by
  refine List.foldlRecOn (motive := fun q : Pool => q.regime = p.regime) _ _ rfl ?_
  intro q hq h _
  split
  · exact (regime_requeue q h .cooldown).trans hq
  · exact hq

theorem Reported.regime (hr : Reported h p q) : q.regime = p.regime := by
  obtain ⟨r, hc, _, ⟨_, hreturn⟩ | ⟨_, rfl⟩⟩ := hr
  · refine Eq.trans ?_ (hc.regime (by simp))
    cases hreturn with
    | free => exact regime_free r h .inUse
    | punish => exact regime_transfer r h .inUse _
  · exact hc.regime (by simp)

end Pool

theorem Act.regime {c : Concern} {d e : Desk} (ha : Act c d e) (hne : c ≠ .upkeep) :
    e.pool.regime = d.pool.regime := by
  cases ha with
  | rest | turnAway => rfl
  | free h hs => exact Pool.regime_free d.pool h .validating
  | take h hs =>
    obtain ⟨records, registry, census, trace, he⟩ := Pool.handOut_frame d.pool h
    rw [he]
    rfl
  | join wait deadline hq hc => exact (hq.regime hne).trans rfl
  | settle =>
    rw [Pool.leaveLine_eq]
    rfl

theorem Stretch.regime {c : Concern} {d e : Desk} (hs : Stretch c d e) (hne : c ≠ .upkeep) :
    e.pool.regime = d.pool.regime := by
  obtain ⟨p, hc, ha⟩ := hs
  exact (ha.regime hne).trans (hc.regime hne)

namespace World

theorem regime_perform (w : World) {a : Action} (hstart : a ≠ .start) (hstop : a ≠ .stop)
    (hset : ∀ n, a ≠ .setConcurrency n) : (w.perform a).pool.regime = w.pool.regime := by
  have hne : Concern.acquisition ≠ .upkeep := by decide
  cases a with
  | start => exact absurd rfl hstart
  | stop => exact absurd rfl hstop
  | setConcurrency n => exact absurd rfl (hset n)
  | take i =>
    cases hq : w.pool.queue with
    | nil => simp only [perform, take, hq]
    | cons h rest =>
      refine (take_stretch w i).regime ?_
      simp [concern, hq]
  | conclude i o =>
    by_cases hi : ∃ cancelled h, w.workers[i]? = some ⟨cancelled, .probing h⟩
    · obtain ⟨cancelled, h, hi⟩ := hi
      refine (conclude_stretch w i o).regime ?_
      simp [concern, hi]
    · rw [perform, conclude_idle i o fun cancelled h he => hi ⟨cancelled, h, he⟩]
  | tick i =>
    unfold perform tick
    dsimp only
    split
    · rfl
    · split
      · exact Pool.regime_requeueStale _
      · exact Pool.regime_requeueRested _
      · split <;> exact (Pool.proceed_changes _ _).regime hne
  | fetch => exact (Pool.proceed_changes _ _).regime hne
  | supplyPass i answer => exact (supplyPass_changes w i answer).1.regime hne
  | supplyLoop i answer => exact (supplyLoop_changes w i answer).1.regime hne
  | tryGet => exact (tryGet_asked w).regime hne
  | get timeout => exact (get_asked w timeout).regime hne
  | resume i | cancel i => exact (endCall_stretch w i _).regime hne
  | expire i =>
    unfold perform
    dsimp only
    split
    · exact (endCall_stretch w i _).regime hne
    · rfl
  | abandon i =>
    rcases abandon_cases w i with hd | ⟨t, _, _, _, hd⟩
    · exact congrArg (·.pool.regime) hd
    · refine (congrArg (·.pool.regime) hd).trans ?_
      rw [Pool.leaveLine_eq]
      rfl
  | reportSuccess h elapsed => exact (Pool.reportSuccess_reported w.pool h elapsed).regime
  | reportFailure h verdict => exact (Pool.reportFailure_reported w.pool h verdict).regime
  | _ => rfl

theorem running_perform (w : World) {a : Action} (hstart : a ≠ .start) (hstop : a ≠ .stop) :
    (w.perform a).pool.running = w.pool.running := by
  by_cases hset : ∃ n, a = .setConcurrency n
  · obtain ⟨n, rfl⟩ := hset
    rw [perform, setConcurrency]
    split_ifs
    · rfl
    · exact congrArg (·.pool.running) (desk_resize _)
  · exact Pool.running_of_regime (regime_perform w hstart hstop fun n ha => hset ⟨n, ha⟩)

end World

/-! ### Who waits stands in line -/

namespace Pool

variable {c : Concern} {p q r : Pool} {h : Handle} {t : Ticket}

/-- Who waits stands in line, and nobody does in a pool that does not run. -/
structure Attended (p : Pool) : Prop where
  standing : ∀ t, p.inbox t = .waiting → t ∈ p.line
  closed : p.running = false → p.line = []

/-- Time goes on, what an inbox holds stays in it, and who waits stands in line. -/
structure Onward (p q : Pool) : Prop where
  now : p.now ≤ q.now
  size : p.inboxes.size ≤ q.inboxes.size
  settled : ∀ t < p.inboxes.size, p.inbox t ≠ .waiting → q.inbox t = p.inbox t
  attended : p.Attended → q.Attended

namespace Onward

theorem refl (p : Pool) : Onward p p := ⟨Nat.le_refl _, Nat.le_refl _, fun _ _ _ => rfl, id⟩

theorem trans (hpq : Onward p q) (hqr : Onward q r) : Onward p r where
  now := Nat.le_trans hpq.now hqr.now
  size := Nat.le_trans hpq.size hqr.size
  settled t ht hw := by
    have hq := hpq.settled t ht hw
    rw [hqr.settled t (Nat.lt_of_lt_of_le ht hpq.size) (by rwa [hq]), hq]
  attended hp := hqr.attended (hpq.attended hp)

theorem of_eq (hnow : q.now = p.now) (hinboxes : q.inboxes = p.inboxes) (hline : q.line = p.line)
    (hrunning : q.running = p.running) : Onward p q where
  now := Nat.le_of_eq hnow.symm
  size := by rw [hinboxes]
  settled t _ _ := by rw [inbox, hinboxes, inbox]
  attended hp := by
    refine ⟨fun t ht => ?_, fun hr => ?_⟩
    · rw [hline]
      apply hp.standing
      rwa [inbox, ← hinboxes]
    · rw [hline]
      exact hp.closed (hrunning ▸ hr)

end Onward

theorem mem_trimmed (ht : t ∈ p.line) (hw : p.inbox t = .waiting) : t ∈ p.trimmed.line := by
  have hwaits : p.isWaiting t = true := isWaiting_iff.mpr hw
  rw [← List.takeWhile_append_dropWhile (p := (!p.isWaiting ·)) (l := p.line)] at ht
  rcases List.mem_append.mp ht with hgone | hkept
  · have hgone := List.mem_takeWhile_imp hgone
    simp [hwaits] at hgone
  · exact hkept

theorem inbox_hangUp_ne_waiting (list : List Ticket) (p : Pool) (ht : t ∈ list) :
    (list.foldl (fun q t => if q.isWaiting t then q.setInbox t .hungUp else q) p).inbox t ≠
      .waiting := by
  induction list generalizing p with
  | nil => cases ht
  | cons u rest ih =>
    rw [List.foldl_cons]
    rcases List.mem_cons.mp ht with rfl | hrest
    · -- Once the inbox is marked, the rest of the line does not matter to it.
      have hmarked : (if p.isWaiting t then p.setInbox t .hungUp else p).inbox t ≠ .waiting := by
        split_ifs with hw
        · have hsize : t < p.inboxes.size :=
            lt_size_of_inbox (by simp [isWaiting_iff.mp hw])
          rw [inbox_setInbox .hungUp hsize, if_pos rfl]
          simp
        · exact fun hn => hw (isWaiting_iff.mpr hn)
      obtain ⟨inboxes, he, _, hi⟩ :=
        hangUp_fold rest (if p.isWaiting t then p.setInbox t .hungUp else p)
      rw [he]
      rcases hi t with hsame | ⟨hw, _⟩
      · rw [hsame]
        exact hmarked
      · exact absurd hw hmarked
    · exact ih _ hrest

theorem hangUpAll_frame (p : Pool) :
    p.hangUpAll.regime = p.regime ∧ p.hangUpAll.line = [] ∧ p.hangUpAll.now = p.now := by
  obtain ⟨inboxes, he, _, _⟩ := hangUp_fold p.line { p with line := [] }
  rw [Pool.hangUpAll, he]
  exact ⟨rfl, rfl, rfl⟩

theorem Attended.hangUpAll (ha : p.Attended) (t : Ticket) :
    ({ p with running := false }.hangUpAll).inbox t ≠ .waiting := by
  by_cases ht : t ∈ p.line
  · exact inbox_hangUp_ne_waiting p.line { p with running := false, line := [] } ht
  · obtain ⟨inboxes, he, _, hi⟩ := hangUp_fold p.line { p with running := false, line := [] }
    rw [Pool.hangUpAll, he]
    rcases hi t with hsame | ⟨hw, _⟩
    · rw [hsame]
      exact fun hw => ht (ha.standing t hw)
    · exact absurd (ha.standing t hw) ht

theorem Attended.trimmed (ha : p.Attended) (hinboxes : q.inboxes = p.inboxes)
    (hline : q.line = p.trimmed.line) (hrunning : q.running = p.running) : q.Attended where
  standing t ht := by
    rw [inbox, hinboxes] at ht
    rw [hline]
    exact mem_trimmed (ha.standing t ht) ht
  closed hr := by
    rw [hline, Pool.trimmed, ha.closed (hrunning ▸ hr)]
    rfl

theorem Change.onward (hc : Change c p q) : Onward p q := by
  have hsize := Nat.le_of_eq hc.calm.size.symm
  have hsettled (t : Ticket) (_ : t < p.inboxes.size) (hw : p.inbox t ≠ .waiting) :
      q.inbox t = p.inbox t := (hc.calm.inbox t).resolve_right fun hh => hw hh.1
  rcases hc.at_desk with ⟨hnow, hregime, hinboxes, hline | hline⟩ |
    ⟨_, ⟨d, rfl⟩ | ⟨n, rfl⟩ | rfl | rfl⟩
  · exact .of_eq hnow hinboxes hline (running_of_regime hregime)
  · refine ⟨Nat.le_of_eq hnow.symm, hsize, hsettled, fun ha => ?_⟩
    exact ha.trimmed hinboxes hline (running_of_regime hregime)
  · exact ⟨Nat.le_add_right _ _, hsize, hsettled, fun ha => ⟨ha.standing, ha.closed⟩⟩
  · exact .of_eq rfl rfl rfl rfl
  · refine ⟨Nat.le_refl _, hsize, hsettled, fun ha => ⟨ha.standing, fun hclosed => ?_⟩⟩
    cases hclosed
  · obtain ⟨-, hline, hnow⟩ := hangUpAll_frame { p with running := false }
    refine ⟨Nat.le_of_eq hnow.symm, hsize, hsettled, fun ha => ⟨fun t ht => ?_, fun _ => hline⟩⟩
    exact absurd ht (ha.hangUpAll t)

theorem Changes.onward (hc : Changes c p q) : Onward p q :=
  hc.keep (P := Onward p) (fun hstep hq => hq.trans hstep.onward) (.refl p)

theorem deliver_onward {others : List Ticket} (hl : p.line.dropWhile (!p.isWaiting ·) = t :: others)
    (h : Handle) : Onward p (p.deliver t others h) := by
  have ht := waiting_of_dropWhile hl
  have hinbox := inbox_deliver ht others h
  obtain ⟨records, registry, census, trace, he⟩ := deliver_frame p t others h
  refine ⟨by rw [he], by rw [he]; exact Nat.le_of_eq Array.size_setIfInBounds.symm,
    fun u _ hu => ?_, fun ha => ⟨fun u hu => ?_, fun hr => ?_⟩⟩
  · rw [hinbox, if_neg]
    rintro rfl
    exact hu ht
  · rw [hinbox] at hu
    split_ifs at hu with hut
    have hkept : u ∈ t :: others := hl ▸ mem_trimmed (ha.standing u hu) hu
    rw [he]
    exact (List.mem_cons.mp hkept).resolve_left hut
  · rw [running_of_regime (regime_deliver p t others h)] at hr
    rw [ha.closed hr] at hl
    cases hl

theorem Services.onward (hs : Services c p q) : Onward p q := by
  refine hs.keep (P := Onward p) (fun hstep hq => hq.trans ?_) (.refl p)
  cases hstep with
  | change hc => exact hc.onward
  | deliver h hl hs => exact deliver_onward hl h

theorem transfer_onward (p : Pool) (h : Handle) (s s' : Lifecycle) :
    Onward p (p.transfer h s s') := by
  obtain ⟨records, registry, census, trace, he⟩ := transfer_frame p h s s'
  rw [he]
  exact .of_eq rfl rfl rfl rfl

theorem free_onward (p : Pool) (h : Handle) (s : Lifecycle) : Onward p (p.free h s) :=
  (transfer_onward p h s .available).trans (offer_services (c := .upkeep) _ h).onward

theorem Reported.onward (hr : Reported h p q) : Onward p q := by
  obtain ⟨r, hc, _, ⟨_, hreturn⟩ | ⟨_, rfl⟩⟩ := hr
  · refine hc.onward.trans ?_
    cases hreturn with
    | free => exact free_onward r h .inUse
    | punish => exact transfer_onward r h .inUse _
  · exact hc.onward

theorem leaveLine_onward (p : Pool) (t : Ticket) : Onward p (p.leaveLine t) := by
  refine ⟨by rw [leaveLine_eq], Nat.le_of_eq (size_leaveLine p t).symm,
    fun u _ hu => ?_, fun ha => ⟨fun u hu => ?_, fun hr => ?_⟩⟩
  · rw [inbox_leaveLine, if_neg]
    rintro ⟨rfl, ht⟩
    exact hu ht
  · have hstands := ha.standing u ((waiting_leaveLine p t u).mp hu).1
    rw [leaveLine_eq]
    exact hstands
  · rw [leaveLine_eq] at hr ⊢
    exact ha.closed hr

/-- Only in a pool that runs may somebody be new in line. -/
theorem joinLine_onward (hruns : p.running = true) : Onward p p.joinLine.2 := by
  refine ⟨Nat.le_refl _, Nat.le_of_lt (by simp [joinLine]), fun t ht _ => ?_,
    fun ha => ⟨fun u hu => ?_, fun hr => ?_⟩⟩
  · rw [inbox_joinLine, if_neg (Nat.ne_of_lt ht)]
  · rw [inbox_joinLine] at hu
    rw [joinLine]
    split_ifs at hu with hnew
    · exact List.mem_append_right _ (List.mem_singleton.mpr hnew)
    · exact List.mem_append_left _
        (List.mem_filter.mpr ⟨ha.standing u hu, isWaiting_iff.mpr hu⟩)
  · exact absurd hr (by simp [joinLine, hruns])

end Pool

variable {c : Concern} {d e : Desk}

theorem Act.onward (ha : Act c d e)
    (hjoin : ∀ t wait deadline, e.calls[d.calls.size]? = some (.waiting t wait deadline) →
      c ≠ .upkeep ∧ e.pool.running = true) : Pool.Onward d.pool e.pool := by
  cases ha with
  | rest | turnAway => exact .refl _
  | free h hs => exact Pool.free_onward d.pool h .validating
  | take h hs =>
    obtain ⟨records, registry, census, trace, he⟩ := Pool.handOut_frame d.pool h
    rw [he]
    exact .of_eq rfl rfl rfl rfl
  | join wait deadline hq hc =>
    obtain ⟨hne, hruns⟩ := hjoin _ wait deadline Array.getElem?_push_size
    have hjoined : d.pool.running = true :=
      (Pool.running_of_regime (hq.regime hne)).symm.trans hruns
    exact (Pool.joinLine_onward hjoined).trans hq.onward
  | settle => exact Pool.leaveLine_onward d.pool _

namespace World

variable {w v : World}

theorem beginGet_queued {p q : Pool} {timeout : Option Duration} {t : Ticket} {wait : Duration}
    (hq : p.beginGet timeout = (.queued t wait, q)) : p.running = true ∧ t < q.inboxes.size := by
  have hne : Concern.acquisition ≠ .upkeep := by decide
  have htaken : p.requested.takeAvailable.2.running = p.running := by
    rcases Pool.takeWithin_changes (c := .acquisition) (p.requested.chooser.foreignPicks + 1)
      p.requested with ⟨_, hc⟩ | ⟨h, r, _, hc, _, he⟩
    · exact hc.running hne
    · obtain ⟨_, _, _, _, hframe⟩ := Pool.handOut_frame r h
      rw [Pool.takeAvailable, he, hframe]
      exact hc.running hne
  unfold Pool.beginGet at hq
  split at hq
  · cases hq
  · next r hr =>
    rw [hr] at htaken
    dsimp only at hq
    split_ifs at hq with _ hruns
    · cases hq
    · cases hq
      have hserved := (Pool.dispatchAvailable_services (c := .upkeep) r.joinLine.2).onward.size
      refine ⟨htaken.symm.trans hruns, Nat.lt_of_lt_of_le ?_ hserved⟩
      simp [Pool.joinLine]
    · cases hq

end World

/-! ### Requests -/

/-- How a step ends the wait of a request, if it is such a step. -/
def Action.waitEnd? (wait : Duration) : Action → Option (CallId × WaitEnd)
  | .resume i => some (i, .answered)
  | .expire i => some (i, .timedOut wait)
  | .cancel i => some (i, .cancelled)
  | _ => none

namespace World

variable {w v : World} {a : Action} {i : CallId} {t : Ticket} {wait : Duration}
  {deadline : Instant}

/-- What a step does to the requests: one begins, and waits only if the pool runs; one ends
its wait with what its inbox holds; or the caller of one goes away. -/
inductive CallStep (w : World) : Action → Array Call → Prop
  | still {a : Action} (ha : a.isRequest = false) : CallStep w a w.calls
  | reply {a : Action} (ha : a.isRequest = true) {call : Call}
      (hcall : ∀ t wait deadline, call ≠ .waiting t wait deadline) :
      CallStep w a (w.calls.push call)
  | join (timeout : Option Duration) {t : Ticket} (wait : Duration) (deadline : Instant)
      (hruns : w.pool.running = true) (ht : t < (w.get timeout).2.pool.inboxes.size) :
      CallStep w (.get timeout) (w.calls.push (.waiting t wait deadline))
  | finish {a : Action} {i : CallId} {t : Ticket} {wait : Duration} {deadline : Instant}
      {cause : WaitEnd} (hi : w.calls[i]? = some (.waiting t wait deadline))
      (ha : a.waitEnd? wait = some (i, cause)) :
      CallStep w a (w.calls.setIfInBounds i
        (Call.ofResult (Pool.waitResult (w.pool.inbox t) cause)))
  | leave {i : CallId} {t : Ticket} {wait : Duration} {deadline : Instant}
      (hi : w.calls[i]? = some (.waiting t wait deadline)) :
      CallStep w (.abandon i) (w.calls.setIfInBounds i (.abandoned t))

theorem endCall_calls {cause : WaitEnd} (hquiet : a.isRequest = false)
    (ha : ∀ t wait deadline, w.calls[i]? = some (.waiting t wait deadline) →
      a.waitEnd? wait = some (i, cause)) : CallStep w a (w.endCall i cause).calls := by
  unfold endCall
  split
  · next t wait deadline hi => exact .finish hi (ha t wait deadline hi)
  · exact .still hquiet

theorem get_calls (w : World) (timeout : Option Duration) :
    CallStep w (.get timeout) (w.get timeout).2.calls := by
  cases hbegun : w.pool.beginGet timeout with
  | mk begun q =>
    have hq : (w.get timeout).2.pool = q := by
      unfold get
      rw [hbegun]
    unfold get
    rw [hbegun]
    cases begun with
    | done result =>
      apply CallStep.reply rfl
      intro t wait deadline
      cases result <;> simp [Call.ofResult]
    | queued t wait =>
      obtain ⟨hruns, ht⟩ := beginGet_queued hbegun
      exact .join timeout wait _ hruns (hq ▸ ht)

theorem perform_calls (w : World) (a : Action) : CallStep w a (w.perform a).calls := by
  have hstill {calls : Array Call} (ha : a.isRequest = false) (hcalls : calls = w.calls) :
      CallStep w a calls := by
    rw [hcalls]
    exact .still ha
  cases a with
  | start =>
    apply hstill rfl
    obtain ⟨s, v, hs⟩ : ∃ s v, w.start = (s, v) := ⟨_, _, rfl⟩
    by_cases hf : ∃ pass, s = .fetching pass
    · obtain ⟨pass, rfl⟩ := hf
      rw [perform, hs, (start_changes hs).2]
    · rw [perform, hs, start_idle hs fun pass hpass => hf ⟨pass, hpass⟩]
  | stop =>
    apply hstill rfl
    rw [perform, stop]
    split <;> rfl
  | setConcurrency n =>
    apply hstill rfl
    rw [perform, setConcurrency]
    split_ifs
    · rfl
    · exact congrArg Desk.calls (desk_resize _)
  | take i =>
    apply hstill rfl
    rw [perform, take]
    split
    · rfl
    · dsimp only
      split <;> rfl
  | conclude i o =>
    apply hstill rfl
    rw [perform, conclude]
    split <;> rfl
  | tick i =>
    apply hstill rfl
    rw [perform, tick]
    split
    · rfl
    · dsimp only
      split
      · rfl
      · rfl
      · split <;> rfl
  | supplyPass i answer => exact hstill rfl (supplyPass_changes w i answer).2
  | supplyLoop i answer => exact hstill rfl (supplyLoop_changes w i answer).2
  | tryGet =>
    apply CallStep.reply rfl
    intro t wait deadline
    split <;> simp
  | get timeout => exact get_calls w timeout
  | resume i | cancel i => exact endCall_calls rfl fun _ _ _ _ => rfl
  | expire i =>
    rw [perform]
    split
    · next t wait deadline hi =>
      apply endCall_calls rfl
      intro t' wait' deadline' hi'
      rw [hi] at hi'
      cases hi'
      rfl
    · exact .still rfl
  | abandon i =>
    rw [perform, abandon]
    split
    · next hi => exact .leave hi
    · exact .still rfl
  | _ => exact hstill rfl rfl

theorem running_of_joined
    (hcall : (w.perform a).calls[w.calls.size]? = some (.waiting t wait deadline)) :
    (∃ timeout, a = .get timeout) ∧ w.pool.running = true := by
  have hstep := perform_calls w a
  generalize (w.perform a).calls = calls at hstep hcall
  cases hstep with
  | still => simp at hcall
  | reply _ hcall' =>
    rw [Array.getElem?_push_size, Option.some.injEq] at hcall
    exact absurd hcall (hcall' t wait deadline)
  | join timeout _ _ hruns => exact ⟨⟨timeout, rfl⟩, hruns⟩
  | finish | leave => simp at hcall

theorem perform_onward (w : World) (a : Action) : Pool.Onward w.pool (w.perform a).pool := by
  by_cases hget : ∃ timeout, a = .get timeout
  · obtain ⟨timeout, rfl⟩ := hget
    obtain ⟨p, hc, hact⟩ := stretch_of_asked (get_asked w timeout)
    apply hc.onward.trans
    apply hact.onward
    intro t wait deadline hcall
    refine ⟨by decide, ?_⟩
    have hruns := (running_of_joined (a := .get timeout) hcall).2
    exact (running_perform w (a := .get timeout) (by simp) (by simp)).trans hruns
  · rcases perform_cases w a with ⟨p, hc, hact⟩ | ⟨h, _, hr, _⟩ | ⟨i, t, _, _, _, hd⟩
    · apply hc.onward.trans
      apply hact.onward
      intro t wait deadline hcall
      exact absurd (running_of_joined hcall).1 hget
    · exact hr.onward
    · rw [show (w.perform a).pool = w.pool.leaveLine t from congrArg Desk.pool hd]
      exact Pool.leaveLine_onward w.pool t

end World

end ProxyLease
