import ProxyLease.Proofs.Census
import ProxyLease.Proofs.Lifecycle
import ProxyLease.Proofs.Pool.Inbox
import ProxyLease.Proofs.Pool.Service

/-!
# Beats

A beat is what one stroke does to the states of the proxies, to the queue and to the
trace. There are few kinds of them: nothing moves, a proxy moves and the move is
published with the figures after it, a proxy is sent back to the queue, a new one is
registered, or the first one is taken out of the queue and its probe begins. Whatever a
pool does is a sequence of beats, so a law about states, queue and trace needs to be
checked for each kind only.
-/

namespace ProxyLease

theorem Route.mem_next {s t : Lifecycle} (r : Route s t) : t ∈ s.next := by
  cases r <;> decide

namespace Pool

variable {c : Concern} {p q r : Pool} {h k : Handle} {s t : Lifecycle}

/-- A proxy moves and no other does, its statistics stay as they are, and the move is
published with the figures after it. -/
structure Published (h : Handle) (s t : Lifecycle) (p q : Pool) : Prop where
  next : t ∈ s.next
  source : p.state? h = some s
  states : ∀ k, q.state? k = if k = h then some t else p.state? k
  statistics : ∀ k, q.statistics? k = p.statistics? k
  told : ∃ f : Snapshot Float, f.stateSum = f.total ∧
    q.trace = (p.trace.push (.moved h s t)).push (.counted f)

namespace Published

theorem target (hm : Published h s t p q) : q.state? h = some t := by
  rw [hm.states, if_pos rfl]

theorem other (hm : Published h s t p q) (hk : k ≠ h) : q.state? k = p.state? k := by
  rw [hm.states, if_neg hk]

end Published

/-- What the beginning of a probe comes to once the proxy is taken out of the queue, and
whether a request is sent. -/
inductive Begun (h : Handle) (p q : Pool) : Bool → Prop
  /-- The proxy does not wait for a probe. -/
  | skip (hqueue : p.queue = h :: q.queue) (hs : p.state? h ≠ some .pending)
      (hstate : ∀ k, q.state? k = p.state? k) (htrace : q.trace = p.trace)
      (hstat : ∀ k, q.statistics? k = p.statistics? k) : Begun h p q false
  /-- The proxy turns out to be too old. -/
  | expire {r : Pool} (hqueue : p.queue = h :: q.queue)
      (hfirst : Published h .pending .validating p r)
      (hlast : Published h .validating .expired r q) : Begun h p q false
  | check {r : Pool} (hqueue : p.queue = h :: q.queue)
      (hyoung : p.ageOf h < p.settings.proxyTtl) (hm : Published h .pending .validating p r)
      (hstate : ∀ k, q.state? k = r.state? k) (htrace : q.trace = r.trace.push (.check h))
      (hstat : ∀ k, q.statistics? k = r.statistics? k) : Begun h p q true

namespace Begun

variable {sent : Bool}

theorem queue (hb : Begun h p q sent) : p.queue = h :: q.queue := by
  cases hb with
  | skip hqueue | expire hqueue | check hqueue => exact hqueue

theorem other (hb : Begun h p q sent) (hk : k ≠ h) : q.state? k = p.state? k := by
  cases hb with
  | skip hqueue hs hstate => exact hstate k
  | expire hqueue hfirst hlast => rw [hlast.other hk, hfirst.other hk]
  | check hqueue hyoung hm hstate => rw [hstate, hm.other hk]

theorem unknown_iff (hb : Begun h p q sent) : q.state? k = none ↔ p.state? k = none := by
  by_cases hk : k = h
  · subst hk
    cases hb with
    | skip hqueue hs hstate => rw [hstate]
    | expire hqueue hfirst hlast => simp [hlast.target, hfirst.source]
    | check hqueue hyoung hm hstate => simp [hstate, hm.target, hm.source]
  · rw [hb.other hk]

theorem target (hb : Begun h p q sent) : q.state? h ≠ some .pending := by
  cases hb with
  | skip hqueue hs hstate => rwa [hstate]
  | expire hqueue hfirst hlast => rw [hlast.target]; nofun
  | check hqueue hyoung hm hstate => rw [hstate, hm.target]; nofun

end Begun

/-- What one stroke in a stretch about some concern does to states, queue and trace. -/
inductive Beat (c : Concern) (p q : Pool) : Prop
  /-- Nothing moves, and at most a remark is made. Statistics change only for the proxy that
  a verdict or a report is about. -/
  | still (hstate : ∀ k, q.state? k = p.state? k) (hqueue : q.queue = p.queue)
      (htrace : q.trace = p.trace ∨ ∃ e : Event, e.isRemark = true ∧ q.trace = p.trace.push e)
      (hstat : ∀ k, c ≠ .verdict k → c ≠ .use k → q.statistics? k = p.statistics? k)
  /-- A proxy moves that waits for a probe neither before nor after. -/
  | move (h : Handle) {s t : Lifecycle} (hm : Published h s t p q) (hqueue : q.queue = p.queue)
      (hs : s ≠ .pending) (ht : t ≠ .pending) (hc : s = .validating → c = .verdict h)
  /-- A proxy goes back to the queue, from cooldown only once it has rested. -/
  | requeue (h : Handle) {s : Lifecycle} (hc : c = .upkeep) (hm : Published h s .pending p q)
      (hqueue : q.queue = p.queue ++ [h]) (hrested : s = .cooldown → p.isRested h = true)
  | register (hc : c = .acquisition)
      (hstate : ∀ k, q.state? k = if k = p.records.size then some .pending else p.state? k)
      (hqueue : q.queue = if p.admitsValidation then p.queue ++ [p.records.size] else p.queue)
      (htrace : ∃ f : Snapshot Float, f.stateSum = f.total ∧ q.trace = p.trace.push (.counted f))
      (hstat : ∀ k s, p.statistics? k = some s → q.statistics? k = some s)
  | begin (h : Handle) {sent : Bool} (hc : c = .probe h) (hb : Begun h p q sent)

def Beats (c : Concern) : Pool → Pool → Prop := Relation.ReflTransGen (Beat c)

theorem Beats.refl (p : Pool) : Beats c p p := Relation.ReflTransGen.refl

theorem Beats.trans (hpq : Beats c p q) (hqr : Beats c q r) : Beats c p r :=
  Relation.ReflTransGen.trans hpq hqr

theorem Beat.beats (hb : Beat c p q) : Beats c p q := Relation.ReflTransGen.single hb

theorem Beats.keep {P : Pool → Prop} (step : ∀ {p q}, Beat c p q → P p → P q)
    (hb : Beats c p q) (hp : P p) : P q := by
  induction hb with
  | refl => exact hp
  | tail _ hstep ih => exact step hstep ih

theorem Beat.statistics (hb : Beat c p q) (hverdict : c ≠ .verdict k) (huse : c ≠ .use k)
    {s : Statistics Float} (hs : p.statistics? k = some s) : q.statistics? k = some s := by
  cases hb with
  | still hstate hqueue htrace hstat => rw [hstat k hverdict huse, hs]
  | move h hm | requeue h hc hm => rw [hm.statistics, hs]
  | register hc hstate hqueue htrace hstat => exact hstat k s hs
  | begin h hc hb =>
    cases hb with
    | skip hqueue hn hstate htrace hstat => rw [hstat, hs]
    | expire hqueue hfirst hlast => rw [hlast.statistics, hfirst.statistics, hs]
    | check hqueue hyoung hm hstate htrace hstat => rw [hstat, hm.statistics, hs]

/-! ### The trace -/

theorem Published.news (hm : Published h s t p q) : ∃ f : Snapshot Float,
    q.trace.toList = p.trace.toList ++ [.moved h s t, .counted f] := by
  obtain ⟨f, _, htrace⟩ := hm.told
  exact ⟨f, by rw [htrace]; simp⟩

/-- The beginning of a probe adds to the trace, and a request is sent only for a proxy
that is young enough. -/
theorem Begun.news {sent : Bool} (hb : Begun h p q sent) : ∃ news,
    q.trace.toList = p.trace.toList ++ news ∧ ∀ k, .check k ∈ news → k = h ∧
      ∃ r, p.record? h = some r ∧ r.age p.now < p.settings.proxyTtl := by
  cases hb with
  | skip hqueue hs hstate htrace => exact ⟨[], by simp [htrace], by simp⟩
  | expire hqueue hfirst hlast =>
    obtain ⟨f, hfirst⟩ := hfirst.news
    obtain ⟨g, hlast⟩ := hlast.news
    exact ⟨_, by rw [hlast, hfirst, List.append_assoc], by simp⟩
  | check hqueue hyoung hm hstate htrace =>
    obtain ⟨f, hnews⟩ := hm.news
    refine ⟨[.moved h .pending .validating, .counted f, .check h], by simp [htrace, hnews], ?_⟩
    intro k hk
    obtain ⟨r, hr, _⟩ := exists_record_of_state hm.source
    rw [ageOf, hr] at hyoung
    exact ⟨by simpa using hk, r, hr, hyoung⟩

theorem Beat.news (hb : Beat c p q) : ∃ news, q.trace.toList = p.trace.toList ++ news ∧
    ∀ h, .check h ∈ news → c = .probe h := by
  cases hb with
  | still hstate hqueue htrace =>
    rcases htrace with htrace | ⟨e, he, htrace⟩
    · exact ⟨[], by simp [htrace], by simp⟩
    · refine ⟨[e], by simp [htrace], fun h hh => ?_⟩
      rw [← List.mem_singleton.mp hh] at he
      cases he
  | move h hm | requeue h hc hm =>
    obtain ⟨f, hnews⟩ := hm.news
    exact ⟨_, hnews, by simp⟩
  | register hc hstate hqueue htrace =>
    obtain ⟨f, _, htrace⟩ := htrace
    exact ⟨[.counted f], by simp [htrace], by simp⟩
  | begin h hc hb =>
    obtain ⟨news, hnews, hchecks⟩ := hb.news
    refine ⟨news, hnews, fun k hk => ?_⟩
    rw [(hchecks k hk).1]
    exact hc

theorem Beats.news (hb : Beats c p q) : ∃ news, q.trace.toList = p.trace.toList ++ news ∧
    ∀ h, .check h ∈ news → c = .probe h := by
  induction hb with
  | refl => exact ⟨[], by simp, by simp⟩
  | tail _ hstep ih =>
    obtain ⟨earlier, hearlier, hchecks⟩ := ih
    obtain ⟨later, hlater, hcheck⟩ := hstep.news
    refine ⟨earlier ++ later, by rw [hlater, hearlier, List.append_assoc], ?_⟩
    intro h hh
    rcases List.mem_append.mp hh with hh | hh
    · exact hchecks h hh
    · exact hcheck h hh

/-! ### Strokes -/

theorem published_transfer (he : p.census.AddsUp) (hs : p.state? h = some s)
    (hnext : t ∈ s.next) : Published h s t p (p.transfer h s t) := by
  have hst := Lifecycle.ne_of_mem_next hnext
  obtain ⟨id, hid⟩ := exists_id_of_state hs
  refine ⟨hnext, hs, fun k => state?_transfer hs hst, fun k => statistics?_transfer hs hst, ?_⟩
  exact ⟨(p.census.change p.now s t).snapshot, he.change p.now s t, by
    rw [transfer_eq hs hid hst]⟩

theorem addsUp_transfer (he : p.census.AddsUp) (hs : p.state? h = some s) (hst : s ≠ t) :
    (p.transfer h s t).census.AddsUp := by
  obtain ⟨id, hid⟩ := exists_id_of_state hs
  rw [transfer_eq hs hid hst]
  exact he.change p.now s t

theorem queue_transfer (p : Pool) (h : Handle) (s t : Lifecycle) :
    (p.transfer h s t).queue = p.queue := by
  obtain ⟨records, registry, census, trace, he⟩ := transfer_frame p h s t
  rw [he]

theorem addsUp_claimedCensus (he : p.census.AddsUp) : p.claimedCensus.AddsUp := by
  unfold claimedCensus
  split_ifs
  · exact he.remove p.now .available
  · exact he.change p.now .available .inUse

theorem published_handOut (he : p.census.AddsUp) (hs : p.state? h = some .available) :
    Published h .available .inUse p (p.handOut h) := by
  obtain ⟨id, hid⟩ := exists_id_of_state hs
  refine ⟨by decide, hs, fun k => state?_handOut hs, fun k => statistics?_handOut hs, ?_⟩
  exact ⟨p.claimedCensus.snapshot, addsUp_claimedCensus he, by rw [handOut_eq hs hid]⟩

theorem addsUp_handOut (he : p.census.AddsUp) (hs : p.state? h = some .available) :
    (p.handOut h).census.AddsUp := by
  obtain ⟨id, hid⟩ := exists_id_of_state hs
  rw [handOut_eq hs hid]
  exact addsUp_claimedCensus he

theorem queue_handOut (p : Pool) (h : Handle) : (p.handOut h).queue = p.queue := by
  obtain ⟨records, registry, census, trace, he⟩ := handOut_frame p h
  rw [he]

/-! ### Changes -/

/-- Some beats lead from one pool to another whose counts add up. -/
def Beaten (c : Concern) (p q : Pool) : Prop := Beats c p q ∧ q.census.AddsUp

theorem beaten_still (he : p.census.AddsUp) (hrecords : q.records = p.records)
    (hqueue : q.queue = p.queue) (htrace : q.trace = p.trace)
    (hcounts : q.census.counts = p.census.counts) (htotal : q.census.total = p.census.total) :
    Beaten c p q := by
  have hrecord (k : Handle) : q.record? k = p.record? k := by rw [record?, record?, hrecords]
  have hstill : Beat c p q := by
    refine .still (fun k => ?_) hqueue (.inl htrace) fun k _ _ => ?_
    · rw [state?, state?, hrecord]
    · rw [statistics?, statistics?, hrecord]
  refine ⟨hstill.beats, ?_⟩
  rw [Census.AddsUp, hcounts, htotal]
  exact he

theorem restat_beaten (he : p.census.AddsUp) (f : Statistics Float → Statistics Float)
    (hc : c = .verdict h ∨ c = .use h) : Beaten c p (p.restat h f) := by
  have hstill : Beat c p (p.restat h f) := by
    refine .still (fun k => state?_restat f) rfl (.inl rfl) fun k hverdict huse => ?_
    refine statistics?_restat f ?_
    rintro rfl
    exact hc.elim hverdict huse
  exact ⟨hstill.beats, he⟩

theorem beginProbe_begun (he : p.census.AddsUp) {rest : List Handle} (hq : p.queue = h :: rest) :
    Begun h p ({ p with queue := rest }.beginProbe h).2
        ({ p with queue := rest }.beginProbe h).1 ∧
      ({ p with queue := rest }.beginProbe h).2.census.AddsUp := by
  have hne : Lifecycle.pending ≠ .validating := by decide
  -- The probe begins in the pool without the head of its queue, which is told apart from
  -- the pool before by its queue only.
  generalize hd : ({ p with queue := rest } : Pool) = d
  have hstate (k : Handle) : d.state? k = p.state? k := by rw [← hd]; rfl
  have hstat (k : Handle) : d.statistics? k = p.statistics? k := by rw [← hd]; rfl
  have htrace : d.trace = p.trace := by rw [← hd]
  have hqueue : p.queue = h :: d.queue := by rw [← hd, hq]
  have hage : d.ageOf h = p.ageOf h := by rw [← hd]; rfl
  have hsettings : d.settings = p.settings := by rw [← hd]
  replace he : d.census.AddsUp := by rw [← hd]; exact he
  have hpublished {q : Pool} (hm : Published h .pending .validating d q) :
      Published h .pending .validating p q := by
    refine ⟨hm.next, by rw [← hstate, hm.source], fun k => ?_, fun k => ?_, ?_⟩
    · rw [hm.states, hstate]
    · rw [hm.statistics, hstat]
    · rw [← htrace]
      exact hm.told
  rcases beginProbe_cases d h with ⟨hs, hb⟩ | ⟨hs, _, hb⟩ | ⟨hs, hyoung, hb⟩
  · rw [hb]
    exact ⟨.skip hqueue (by rw [← hstate]; exact hs) hstate htrace hstat, he⟩
  · have hm := published_transfer he hs (t := .validating) (by decide)
    have hv := addsUp_transfer he hs hne
    have hlast := published_transfer hv hm.target (t := .expired) (by decide)
    rw [hb]
    refine ⟨.expire ?_ (hpublished hm) hlast, addsUp_transfer hv hm.target (by decide)⟩
    rw [queue_transfer, queue_transfer]
    exact hqueue
  · have hm := published_transfer he hs (t := .validating) (by decide)
    rw [hage, hsettings] at hyoung
    rw [hb]
    refine ⟨.check ?_ hyoung (hpublished hm) (fun _ => rfl) rfl fun _ => rfl,
      addsUp_transfer he hs hne⟩
    rw [hqueue, ← queue_transfer d h .pending .validating]
    rfl

/-- Moves between states in which nobody waits for a probe are beats. -/
theorem transfer_beaten (he : p.census.AddsUp) (hs : p.state? h = some s) (hnext : t ∈ s.next)
    (hsource : s ≠ .pending) (htarget : t ≠ .pending) (hc : s = .validating → c = .verdict h) :
    Beaten c p (p.transfer h s t) := by
  have hm := published_transfer he hs hnext
  have hmove := Beat.move h hm (queue_transfer p h s t) hsource htarget hc
  exact ⟨hmove.beats, addsUp_transfer he hs (Lifecycle.ne_of_mem_next hnext)⟩

theorem queue_register {e : Endpoint} (ha : p.admit? e = some q) :
    q.queue = if p.admitsValidation then p.queue ++ [p.records.size] else p.queue := by
  obtain ⟨registry, hr, rfl⟩ := Option.map_eq_some_iff.mp ha
  dsimp only
  have hadmits : ∀ records trace, ({ p with
      records, registry, census := p.census.add p.now .pending, trace } : Pool).admitsValidation =
        p.admitsValidation := fun _ _ => rfl
  rw [emit, hadmits]
  split <;> rfl

theorem register_beaten {e : Endpoint} (he : p.census.AddsUp) (ha : p.admit? e = some q)
    (hc : c = .acquisition) : Beaten c p q := by
  have hsum := he.add p.now .pending
  obtain ⟨registry, queue, hr, hq⟩ := admit?_eq_some ha
  have hcensus : q.census = p.census.add p.now .pending := by rw [hq]
  have htold : ∃ f : Snapshot Float, f.stateSum = f.total ∧
      q.trace = p.trace.push (.counted f) :=
    ⟨(p.census.add p.now .pending).snapshot, hsum, by rw [hq]⟩
  have hbeat : Beat c p q := .register hc (fun k => state?_register ha) (queue_register ha) htold
    fun k s => statistics?_register ha
  refine ⟨hbeat.beats, ?_⟩
  rw [hcensus]
  exact hsum

theorem requeue_beaten (he : p.census.AddsUp) (hs : p.state? h = some s)
    (hr : Route s .pending) (hrested : s = .cooldown → p.isRested h = true) (hc : c = .upkeep) :
    Beaten c p (p.requeue h s) := by
  have hm := published_transfer he hs hr.mem_next
  have hsum := addsUp_transfer he hs hr.ne
  rw [requeue_eq hs hr.ne]
  have hback : Published h s .pending p ((p.transfer h s .pending).enqueue h) :=
    ⟨hm.next, hm.source, hm.states, hm.statistics, hm.told⟩
  refine ⟨(Beat.requeue h hc hback ?_ hrested).beats, hsum⟩
  rw [enqueue, queue_transfer]

theorem recount_beaten (p : Pool) :
    Beaten c p { p with running := true }.recount := by
  have hstill : Beat c p { p with running := true }.recount :=
    .still (fun _ => rfl) rfl (.inl rfl) fun _ _ _ => rfl
  exact ⟨hstill.beats, Census.AddsUp.foldl_add p.now _ (Census.AddsUp.reset p.census p.now)⟩

theorem Change.beaten (hc : Change c p q) (he : p.census.AddsUp) : Beaten c p q := by
  cases hc with
  | remark e hr =>
    have hremark : Beat c p (p.emit e) :=
      .still (fun _ => rfl) rfl (.inr ⟨e, hr, rfl⟩) fun _ _ _ => rfl
    exact ⟨hremark.beats, he⟩
  | restat h f hc => exact restat_beaten he f hc
  | tally census hcounts htotal => exact beaten_still he rfl rfl rfl hcounts htotal
  | requeue h hs hr hrested hc => exact requeue_beaten he hs hr hrested hc
  | begin hq hc =>
    obtain ⟨hb, hsum⟩ := beginProbe_begun he hq
    exact ⟨(Beat.begin _ hc hb).beats, hsum⟩
  | fail h hs hr hc =>
    exact transfer_beaten he hs hr.mem_next nofun (by cases hr <;> decide) fun _ => hc
  | ask => exact beaten_still he rfl rfl rfl rfl rfl
  | choose => exact beaten_still he rfl rfl rfl rfl rfl
  | trim => exact beaten_still he rfl rfl rfl rfl rfl
  | register e ha hc => exact register_beaten he ha hc
  | elapse d => exact beaten_still he rfl rfl rfl rfl rfl
  | staff n => exact beaten_still he rfl rfl rfl rfl rfl
  | launch => exact recount_beaten p
  | close =>
    obtain ⟨inboxes, hh, _, _⟩ := hangUp_fold p.line { p with running := false, line := [] }
    rw [hangUpAll, hh]
    exact beaten_still he rfl rfl rfl rfl rfl

theorem Beaten.trans (hpq : Beaten c p q) (hqr : q.census.AddsUp → Beaten c q r) :
    Beaten c p r :=
  ⟨hpq.1.trans (hqr hpq.2).1, (hqr hpq.2).2⟩

theorem Changes.beaten (hc : Changes c p q) (he : p.census.AddsUp) : Beaten c p q := by
  induction hc with
  | refl => exact ⟨.refl p, he⟩
  | tail _ hstep ih => exact ih.trans hstep.beaten

/-! ### Services -/

theorem handOut_beaten (he : p.census.AddsUp) (hs : p.state? h = some .available) :
    Beaten c p (p.handOut h) := by
  have hmove : Beat c p (p.handOut h) :=
    .move h (published_handOut he hs) (queue_handOut p h) nofun nofun nofun
  exact ⟨hmove.beats, addsUp_handOut he hs⟩

theorem deliver_beaten {t : Ticket} {others : List Ticket} (he : p.census.AddsUp)
    (hs : p.state? h = some .available) : Beaten c p (p.deliver t others h) := by
  have hsent : Beaten c p ({ p with line := others }.setInbox t (.delivered h)) :=
    beaten_still he rfl rfl rfl rfl rfl
  exact hsent.trans fun he => handOut_beaten he hs

theorem Services.beaten (hc : Services c p q) (he : p.census.AddsUp) : Beaten c p q := by
  induction hc with
  | refl => exact ⟨.refl p, he⟩
  | tail _ hstep ih =>
    cases hstep with
    | change hc => exact ih.trans hc.beaten
    | deliver h hl hs => exact ih.trans fun he => deliver_beaten he hs

theorem free_beaten (he : p.census.AddsUp) (hs : p.state? h = some s)
    (hnext : .available ∈ s.next) (hc : s = .validating → c = .verdict h) :
    Beaten c p (p.free h s) := by
  have hsource : s ≠ .pending := by
    rintro rfl
    exact absurd hnext (by decide)
  have hfirst := transfer_beaten he hs hnext hsource nofun hc
  rcases free_cases hs (Lifecycle.ne_of_mem_next hnext) with ⟨_, hf⟩ | ⟨t, others, _, ha, hf⟩
  · rw [hf]
    exact hfirst.trans (Change.trim _).beaten
  · rw [hf]
    exact hfirst.trans fun he => deliver_beaten he ha

theorem Reported.beaten (hr : Reported h p q) (he : p.census.AddsUp) :
    Beaten (.use h) p q := by
  obtain ⟨r, hc, _, ⟨_, hreturn⟩ | ⟨_, rfl⟩⟩ := hr
  · refine (hc.beaten he).trans fun he => ?_
    cases hreturn with
    | free hm hs => exact free_beaten he hs (by decide) nofun
    | punish ht hm hs =>
      rcases ht with rfl | rfl
      · exact transfer_beaten he hs (by decide) nofun nofun nofun
      · exact transfer_beaten he hs (by decide) nofun nofun nofun
  · exact hc.beaten he

theorem leaveLine_beaten (he : p.census.AddsUp) (t : Ticket) : Beaten c p (p.leaveLine t) := by
  rw [leaveLine_eq]
  exact beaten_still he rfl rfl rfl rfl rfl

end Pool
end ProxyLease
