import ProxyLease.Proofs.Pool.Verdict
import ProxyLease.Proofs.Queue

/-!
# The fate of a proxy

Only a few things can happen to one proxy at an instant, and each of them depends on its own
record alone. A law about single records that these keep, and time too, is kept by whatever
a pool does.
-/

namespace ProxyLease

/-- The record after a verdict: new statistics, and the state that they lead to. -/
def Record.judged (r : Record Float) (settings : Settings) (statistics : Statistics Float)
    (good : Bool) : Record Float :=
  { r with
    state := if good then .available
      else failureState statistics.failureRun settings.maxConsecutiveFailures
    statistics }

/-- What is left open about a run: whether reports may come late, when probes may begin, and with
which outcomes they may end. -/
structure Terms where
  late : Prop
  begins : Handle → Instant → Prop
  ends : Handle → Outcome → Prop

def Terms.free : Terms := ⟨True, fun _ _ => True, fun _ _ => True⟩

/-- What can happen to a proxy at an instant. A use that is noted without taking the proxy back
is either of a proxy that was handed out for good, or late. -/
inductive Fate (terms : Terms) (settings : Settings) (h : Handle) (now : Instant)
    (r : Record Float) : Record Float → Prop
  | probe (hs : r.state = .pending) (hyoung : r.age now < settings.proxyTtl)
      (hbegins : terms.begins h now) : Fate terms settings h now r { r with state := .validating }
  | expire (hs : r.state = .pending) (hold : settings.proxyTtl ≤ r.age now) :
      Fate terms settings h now r { r with state := .expired }
  | judge (o : Outcome) (ho : o.validatedAt ≤ now) (hends : terms.ends h o)
      (hs : r.state = .validating) :
      Fate terms settings h now r
        (r.judged settings (r.statistics.recordValidation o) o.isSuccess)
  | handOut (hs : r.state = .available) :
      Fate terms settings h now r { r with state := .inUse }
  | giveBack (good : Bool) (elapsed : Option Duration) (verdict : Verdict)
      (hs : r.state = .inUse) (hmode : settings.removeAfterGet = false) :
      Fate terms settings h now r
        (r.judged settings (r.statistics.recordUse now good elapsed verdict) good)
  | note (good : Bool) (elapsed : Option Duration) (verdict : Verdict)
      (hlate : terms.late ∨ settings.removeAfterGet = true ∧ r.state = .inUse) :
      Fate terms settings h now r
        { r with statistics := r.statistics.recordUse now good elapsed verdict }
  | renew (hs : r.state = .available) :
      Fate terms settings h now r { r with state := .pending }
  | recover {last : Instant} (hs : r.state = .cooldown)
      (hlast : r.statistics.lastFailureAt = some last)
      (hrested : settings.cooldownDuration ≤ .since last now) :
      Fate terms settings h now r { r with state := .pending }

/-- A law about single records that is true of new ones, and that nothing breaks which can
happen to a proxy. -/
structure RecordLaw (terms : Terms) (settings : Settings)
    (I : Handle → Instant → Record Float → Prop) : Prop where
  fresh : ∀ h e now burst, I h now (.fresh e now burst)
  later : ∀ {h now now' r}, now ≤ now' → I h now r → I h now' r
  fate : ∀ {h now r r'}, Fate terms settings h now r r' → I h now r → I h now r'

/-- The proxy whose probe begins or ends in a stretch, or whose use is reported. -/
def Concern.treated? : Concern → Option Handle
  | .probe h | .verdict h | .use h => some h
  | _ => none

namespace Pool

variable {terms : Terms} {settings : Settings} {I : Handle → Instant → Record Float → Prop}
  {c : Concern} {p q r : Pool} {h k : Handle} {s t : Lifecycle}

def Obeys (I : Handle → Instant → Record Float → Prop) (p : Pool) : Prop :=
  ∀ h r, p.record? h = some r → I h p.now r

/-! ### Records -/

theorem record?_modifyRecord (f : Record Float → Record Float) :
    (p.modifyRecord h f).record? k = if k = h then (p.record? k).map f else p.record? k := by
  simp only [record?, modifyRecord, Array.getElem?_modify, eq_comm]

theorem record?_restat (f : Statistics Float → Statistics Float) :
    (p.restat h f).record? k =
      if k = h then (p.record? k).map fun r => { r with statistics := f r.statistics }
      else p.record? k :=
  record?_modifyRecord _

theorem record?_transfer (hs : p.state? h = some s) (hst : s ≠ t) :
    (p.transfer h s t).record? k =
      if k = h then (p.record? k).map fun r => { r with state := t } else p.record? k := by
  obtain ⟨id, hid⟩ := exists_id_of_state hs
  rw [transfer_eq hs hid hst]
  exact record?_modifyRecord _

theorem record?_handOut (hs : p.state? h = some .available) :
    (p.handOut h).record? k =
      if k = h then (p.record? k).map fun r => { r with state := .inUse } else p.record? k := by
  obtain ⟨id, hid⟩ := exists_id_of_state hs
  rw [handOut_eq hs hid]
  exact record?_modifyRecord _

theorem record?_verdict {f : Statistics Float → Statistics Float} (hs : p.state? h = some s)
    (hst : s ≠ t) (hrecords : r.records = (p.restat h f).records) :
    (r.transfer h s t).record? k = if k = h
      then (p.record? k).map fun x => { x with state := t, statistics := f x.statistics }
      else p.record? k := by
  have hr : r.state? h = some s := (state?_of_records hrecords h).trans ((state?_restat f).trans hs)
  have hrecord : r.record? k = (p.restat h f).record? k := by rw [record?, hrecords, record?]
  rw [record?_transfer hr hst, hrecord, record?_restat]
  split_ifs
  · cases p.record? k <;> rfl
  · rfl

theorem now_transfer (p : Pool) (h : Handle) (s t : Lifecycle) :
    (p.transfer h s t).now = p.now := by
  obtain ⟨records, registry, census, trace, he⟩ := transfer_frame p h s t
  rw [he]

theorem now_handOut (p : Pool) (h : Handle) : (p.handOut h).now = p.now := by
  obtain ⟨records, registry, census, trace, he⟩ := handOut_frame p h
  rw [he]

theorem state_of_record {x : Record Float} (hx : p.record? h = some x) (hs : p.state? h = some s) :
    x.state = s := by
  rw [state?, hx] at hs
  exact Option.some.inj hs

theorem mode_of_not_takesBack (hb : ¬p.takesBack h) (hs : p.state? h = some .inUse) :
    p.settings.removeAfterGet = true := by
  by_contra hmode
  exact hb ⟨Bool.eq_false_iff.mpr hmode, hs⟩

namespace Obeys

theorem of_records (hp : p.Obeys I) (hrecords : q.records = p.records) (hnow : q.now = p.now) :
    q.Obeys I := by
  intro h r hr
  rw [record?, hrecords] at hr
  rw [hnow]
  exact hp h r hr

theorem leaveLine (hp : p.Obeys I) (u : Ticket) : (p.leaveLine u).Obeys I := by
  rw [leaveLine_eq]
  exact hp.of_records rfl rfl

/-- One record changes as the law allows, and no other. -/
theorem modify (hp : p.Obeys I) {f : Record Float → Record Float} (hnow : q.now = p.now)
    (hrecord : ∀ k, q.record? k = if k = h then (p.record? k).map f else p.record? k)
    (hf : ∀ r, p.record? h = some r → I h p.now r → I h p.now (f r)) : q.Obeys I := by
  intro k r hr
  rw [hrecord] at hr
  rw [hnow]
  split_ifs at hr with hk
  · obtain ⟨x, hx, rfl⟩ := Option.map_eq_some_iff.mp hr
    subst hk
    exact hf x hx (hp k x hx)
  · exact hp k r hr

end Obeys

end Pool

/-! ### Strokes -/

namespace RecordLaw

open Pool

variable {terms : Terms} {settings : Settings} {I : Handle → Instant → Record Float → Prop}
  {c : Concern} {p q r : Pool} {h : Handle} {s t : Lifecycle}

theorem transfer (hI : RecordLaw terms settings I) (hp : p.Obeys I) (hs : p.state? h = some s)
    (hst : s ≠ t) (hfate : ∀ x, p.record? h = some x → x.state = s →
      Fate terms settings h p.now x { x with state := t }) : (p.transfer h s t).Obeys I := by
  refine hp.modify (now_transfer p h s t) (fun k => record?_transfer hs hst) fun x hx hlaw => ?_
  exact hI.fate (hfate x hx (state_of_record hx hs)) hlaw

theorem handOut (hI : RecordLaw terms settings I) (hp : p.Obeys I)
    (hs : p.state? h = some .available) : (p.handOut h).Obeys I := by
  refine hp.modify (now_handOut p h) (fun k => record?_handOut hs) fun x hx hlaw => ?_
  exact hI.fate (.handOut (state_of_record hx hs)) hlaw

theorem deliver (hI : RecordLaw terms settings I) (hp : p.Obeys I) {u : Ticket}
    {others : List Ticket} (hs : p.state? h = some .available) : (p.deliver u others h).Obeys I := by
  have hsent : ({ p with line := others }.setInbox u (.delivered h)).Obeys I :=
    hp.of_records rfl rfl
  exact hI.handOut hsent hs

theorem ageOf_eq {x : Record Float} (hx : p.record? h = some x) : p.ageOf h = x.age p.now := by
  rw [ageOf, hx]
  rfl

theorem beginProbe (hI : RecordLaw terms settings I) (hp : p.Obeys I)
    (hsettings : p.settings = settings) (hbegins : terms.begins h p.now) :
    (p.beginProbe h).2.Obeys I := by
  have hne : Lifecycle.pending ≠ .validating := by decide
  rcases beginProbe_cases p h with ⟨_, he⟩ | ⟨hs, hold, he⟩ | ⟨hs, hyoung, he⟩
  · rw [he]
    exact hp
  · have hv : (p.transfer h .pending .validating).state? h = some .validating := by
      rw [state?_transfer hs hne, if_pos rfl]
    rw [he]
    refine Obeys.modify (h := h) (f := fun x => { x with state := .expired }) hp ?_ (fun k => ?_)
      fun x hx hlaw => ?_
    · rw [now_transfer, now_transfer]
    · rw [record?_transfer hv (by decide), record?_transfer hs hne]
      split_ifs
      · cases p.record? k <;> rfl
      · rfl
    · rw [hsettings, ageOf_eq hx] at hold
      exact hI.fate (.expire (state_of_record hx hs) hold) hlaw
  · rw [he]
    have hmoved : (p.transfer h .pending .validating).Obeys I := by
      refine hI.transfer hp hs hne fun x hx hstate => .probe hstate ?_ hbegins
      rwa [hsettings, ageOf_eq hx] at hyoung
    exact hmoved.of_records rfl rfl

theorem requeue (hI : RecordLaw terms settings I) (hp : p.Obeys I)
    (hsettings : p.settings = settings) (hs : p.state? h = some s) (hr : Route s .pending)
    (hrested : s = .cooldown → p.isRested h = true) : (p.requeue h s).Obeys I := by
  rw [requeue_eq hs hr.ne]
  have hmoved : (p.transfer h s .pending).Obeys I := by
    refine hI.transfer hp hs hr.ne fun x hx hstate => ?_
    cases hr with
    | renew => exact .renew hstate
    | recover =>
      have hrested := hrested rfl
      rw [isRested, hx, Option.bind_some] at hrested
      split at hrested
      · cases hrested
      · next last hlast => exact .recover hstate hlast (hsettings ▸ of_decide_eq_true hrested)
  exact hmoved.of_records rfl rfl

theorem register (hI : RecordLaw terms settings I) (hp : p.Obeys I) {e : Endpoint}
    (ha : p.admit? e = some q) : q.Obeys I := by
  intro k x hx
  rw [record?_register ha] at hx
  obtain ⟨registry, queue, _, rfl⟩ := admit?_eq_some ha
  split_ifs at hx
  · cases hx
    exact hI.fresh k e p.now _
  · exact hp k x hx

theorem change (hI : RecordLaw terms settings I) (hc : Change c p q) (hquiet : c.treated? = none)
    (hsettings : p.settings = settings) (hp : p.Obeys I) : q.Obeys I := by
  cases hc with
  | remark | tally | ask | choose | trim | staff | launch => exact hp.of_records rfl rfl
  | restat h f hc => rcases hc with rfl | rfl <;> cases hquiet
  | requeue h hs hr hrested => exact hI.requeue hp hsettings hs hr hrested
  | begin hq hc =>
    subst hc
    cases hquiet
  | fail h hs hr hc =>
    subst hc
    cases hquiet
  | register e ha => exact hI.register hp ha
  | elapse d => exact fun h x hx => hI.later (Nat.le_add_right _ _) (hp h x hx)
  | close =>
    obtain ⟨inboxes, he, _, _⟩ := hangUp_fold p.line { p with running := false, line := [] }
    rw [hangUpAll, he]
    exact hp.of_records rfl rfl

theorem changes (hI : RecordLaw terms settings I) (hc : Changes c p q) (hquiet : c.treated? = none)
    (hsettings : p.settings = settings) (hp : p.Obeys I) : q.settings = settings ∧ q.Obeys I := by
  refine hc.keep (P := fun q => q.settings = settings ∧ q.Obeys I) ?_ ⟨hsettings, hp⟩
  rintro p q hstep ⟨hsettings, hp⟩
  exact ⟨hstep.calm.settings.trans hsettings, hI.change hstep hquiet hsettings hp⟩

theorem services (hI : RecordLaw terms settings I) (hc : Services c p q)
    (hquiet : c.treated? = none) (hsettings : p.settings = settings) (hp : p.Obeys I) :
    q.Obeys I := by
  have hkept : q.settings = settings ∧ q.Obeys I := by
    refine hc.keep (P := fun q => q.settings = settings ∧ q.Obeys I) ?_ ⟨hsettings, hp⟩
    rintro p q hstep ⟨hsettings, hp⟩
    refine ⟨hstep.services.settings.trans hsettings, ?_⟩
    cases hstep with
    | change hc => exact hI.change hc hquiet hsettings hp
    | deliver h hl hs => exact hI.deliver hp hs
  exact hkept.2

/-! ### Verdicts -/

theorem verdict (hI : RecordLaw terms settings I) (hp : p.Obeys I)
    {f : Statistics Float → Statistics Float} (hs : p.state? h = some s) (hne : s ≠ t)
    (hrecords : r.records = (p.restat h f).records) (hnow : r.now = p.now)
    (hfate : ∀ x, p.record? h = some x → x.state = s →
      Fate terms settings h p.now x { x with state := t, statistics := f x.statistics }) :
    (r.transfer h s t).Obeys I := by
  refine Obeys.modify (h := h) (f := fun x => { x with state := t, statistics := f x.statistics })
    hp ((now_transfer r h s t).trans hnow) (fun k => record?_verdict hs hne hrecords)
    fun x hx hlaw => ?_
  exact hI.fate (hfate x hx (state_of_record hx hs)) hlaw

theorem free (hI : RecordLaw terms settings I) (hr : r.state? h = some s) (hne : s ≠ .available)
    (hmoved : (r.transfer h s .available).Obeys I) : (r.free h s).Obeys I := by
  rcases free_cases hr hne with ⟨_, hf⟩ | ⟨u, others, _, ha, hf⟩
  · rw [hf]
    exact hmoved.of_records rfl rfl
  · rw [hf]
    exact hI.deliver hmoved ha

theorem failureRun_restat_of_record {f : Statistics Float → Statistics Float} {x : Record Float}
    (hx : p.record? h = some x) : (p.restat h f).failureRun h = (f x.statistics).failureRun := by
  have hnoted : (p.restat h f).record? h = some { x with statistics := f x.statistics } := by
    rw [record?_restat, if_pos rfl, hx]
    rfl
  rw [failureRun, hnoted]
  rfl

theorem endProbe (hI : RecordLaw terms settings I) (hp : p.Obeys I)
    (hsettings : p.settings = settings) (hs : p.state? h = some .validating) {o : Outcome}
    (ho : o.validatedAt ≤ p.now) (hends : terms.ends h o) : (p.endProbe h o).Obeys I := by
  obtain ⟨r, trace, hr, he⟩ := endProbe_of_validating hs o
  have hrecords : r.records = (p.probed h o).records := by rw [hr]
  have hnow : r.now = p.now := congrArg (·.now) hr
  have hjudged (x : Record Float) (hstate : x.state = .validating) :
      Fate terms settings h p.now x
        (x.judged settings (x.statistics.recordValidation o) o.isSuccess) :=
    .judge o ho hends hstate
  rw [he]
  cases hgood : o.isSuccess with
  | true =>
    have hstate : r.state? h = some .validating :=
      (state?_of_records hrecords h).trans ((state?_restat _).trans hs)
    apply hI.free hstate (by decide)
    refine hI.verdict (f := (·.recordValidation o)) hp hs (by decide) hrecords hnow
      fun x hx hstate => ?_
    have hfate := hjudged x hstate
    rwa [hgood] at hfate
  | false =>
    refine hI.verdict (f := (·.recordValidation o)) hp hs
      (ne_failureState (by decide) (by decide) _ _) hrecords hnow fun x hx hstate => ?_
    have hfate := hjudged x hstate
    have hrun : (p.probed h o).failureRun h = (x.statistics.recordValidation o).failureRun :=
      failureRun_restat_of_record (p := { p with census := _ }) hx
    rw [hgood] at hfate
    rw [hrun, hsettings]
    exact hfate

theorem noted (hI : RecordLaw terms settings I) (hp : p.Obeys I)
    {f : Statistics Float → Statistics Float} (hrecords : q.records = (p.restat h f).records)
    (hnow : q.now = p.now) (hfate : ∀ x, p.record? h = some x →
      Fate terms settings h p.now x { x with statistics := f x.statistics }) : q.Obeys I := by
  refine Obeys.modify (h := h) (f := fun x => { x with statistics := f x.statistics }) hp hnow
    (fun k => ?_) fun x hx hlaw => hI.fate (hfate x hx) hlaw
  rw [record?, hrecords]
  exact record?_restat f

/-- A report on a proxy in use is in time, and every other one is late. -/
theorem reportSuccess (hI : RecordLaw terms settings I) (hp : p.Obeys I)
    (hsettings : p.settings = settings) (hlate : terms.late ∨ p.state? h = some .inUse)
    (elapsed : Duration) : (p.reportSuccess h elapsed).Obeys I := by
  by_cases hb : p.takesBack h
  · have hr := (takesBack_usedWell p h elapsed).mpr hb
    rw [reportSuccess_of_takesBack hb]
    apply hI.free hr.2 (by decide)
    refine hI.verdict (f := (·.recordUse p.now true (some elapsed) .success)) hp hb.2 (by decide)
      rfl rfl fun x hx hstate => ?_
    exact .giveBack true (some elapsed) .success hstate (hsettings ▸ hb.1)
  · rw [reportSuccess_of_not_takesBack hb]
    refine hI.noted (f := (·.recordUse p.now true (some elapsed) .success)) hp rfl rfl
      fun x hx => .note true (some elapsed) .success ?_
    exact hlate.imp_right fun hs => ⟨hsettings ▸ mode_of_not_takesBack hb hs, state_of_record hx hs⟩

theorem reportFailure (hI : RecordLaw terms settings I) (hp : p.Obeys I)
    (hsettings : p.settings = settings) (hlate : terms.late ∨ p.state? h = some .inUse)
    (verdict : Verdict) : (p.reportFailure h verdict).Obeys I := by
  by_cases hb : p.takesBack h
  · obtain ⟨r, trace, hr, he⟩ := reportFailure_of_takesBack hb verdict
    have hrecords : r.records = (p.usedBadly h verdict).records := by rw [hr]
    have hnow : r.now = p.now := congrArg (·.now) hr
    rw [he]
    refine hI.verdict (f := (·.recordUse p.now false none verdict)) hp hb.2
      (ne_failureState (by decide) (by decide) _ _) hrecords hnow fun x hx hstate => ?_
    have hrun : (p.usedBadly h verdict).failureRun h =
        (x.statistics.recordUse p.now false none verdict).failureRun :=
      failureRun_restat_of_record (p := p.emit _) hx
    rw [hrun, hsettings]
    exact .giveBack false none verdict hstate (hsettings ▸ hb.1)
  · rw [reportFailure_of_not_takesBack hb]
    refine hI.noted (f := (·.recordUse p.now false none verdict)) hp rfl rfl
      fun x hx => .note false none verdict ?_
    exact hlate.imp_right fun hs => ⟨hsettings ▸ mode_of_not_takesBack hb hs, state_of_record hx hs⟩

/-! ### Steps -/

theorem act (hI : RecordLaw terms settings I) {d e : Desk} (ha : Act c d e)
    (hquiet : c.treated? = none) (hsettings : d.pool.settings = settings) (hd : d.pool.Obeys I) :
    e.pool.Obeys I := by
  cases ha with
  | rest | turnAway => exact hd
  | free h hs hc =>
    subst hc
    cases hquiet
  | take h hs => exact hI.handOut hd hs
  | join wait deadline hq hc =>
    have hjoined : d.pool.joinLine.2.Obeys I := hd.of_records rfl rfl
    exact hI.services hq hquiet hsettings hjoined
  | settle => exact hd.leaveLine _

/-- A step that keeps to the terms. -/
structure Allows (terms : Terms) (w : World) (a : Action) : Prop where
  late : ∀ h, w.concern a = .use h → terms.late ∨ w.pool.state? h = some .inUse
  begins : ∀ h, w.concern a = .probe h → terms.begins h w.now
  ends : ∀ i o h, a = .conclude i o → w.workerStage i = .probing h → terms.ends h o

/-- A law about single records is kept by every step of a world in which workers probe what is
validated. -/
theorem perform (hI : RecordLaw terms settings I) {w : World} {a : Action}
    (he : w.Enabled a = true) (hposted : w.Posted) (hsettings : w.pool.settings = settings)
    (hallows : Allows terms w a) (hw : w.pool.Obeys I) : (w.perform a).pool.Obeys I := by
  cases hconcern : w.concern a with
  | probe h =>
    obtain ⟨i, rest, rfl, hqueue⟩ := World.exists_take_of_concern hconcern
    have hd : ({ w.pool with queue := rest } : Pool).Obeys I := hw.of_records rfl rfl
    have hpool : (w.perform (.take i)).pool = ({ w.pool with queue := rest }.beginProbe h).2 := by
      rw [World.perform, World.take, hqueue]
      dsimp only
      split <;> rfl
    rw [hpool]
    exact hI.beginProbe hd hsettings (hallows.begins h hconcern)
  | verdict h =>
    obtain ⟨i, o, rfl⟩ := World.exists_conclude_of_concern hconcern
    obtain ⟨h, stage, _, hprobing, _, hconclude⟩ := World.conclude_of_enabled he
    have ho : o.validatedAt ≤ w.now := by
      simp only [World.Enabled, hprobing] at he
      exact of_decide_eq_true he
    rw [World.perform, hconclude]
    exact hI.endProbe hw hsettings (hposted.validating i h hprobing) ho
      (hallows.ends i o h rfl hprobing)
  | use h =>
    have hlate := hallows.late h hconcern
    have hreport := World.isReport_of_concern hconcern
    cases a with
    | reportSuccess k elapsed =>
      cases hconcern
      exact hI.reportSuccess hw hsettings hlate elapsed
    | reportFailure k verdict =>
      cases hconcern
      exact hI.reportFailure hw hsettings hlate verdict
    | _ => cases hreport
  | upkeep | acquisition | request =>
    have hquiet : (w.concern a).treated? = none := by
      rw [hconcern]
      rfl
    rcases World.perform_cases w a with
      ⟨p, hchanges, hact⟩ | ⟨h, hused, _⟩ | ⟨i, t, _, _, _, hd⟩
    · obtain ⟨hp, hkept⟩ := hI.changes hchanges hquiet hsettings hw
      exact hI.act hact hquiet hp hkept
    · rw [hused] at hquiet
      cases hquiet
    · rw [show (w.perform a).pool = w.pool.leaveLine t from congrArg Desk.pool hd]
      exact hw.leaveLine t

end RecordLaw

/-! ### Runs -/

namespace World

variable {settings : Settings} {I : Handle → Instant → Record Float → Prop}
  {sources : List String} {chooser : Chooser} {now : Instant} {w : World}

/-- Where nothing is ruled out, a law about single records holds in every run over an empty
storage. -/
theorem obeys_of_reaches (hI : RecordLaw .free settings I)
    (hw : (opening settings sources chooser now []).Reaches w) : w.pool.Obeys I := by
  refine hw.keep_reached (P := fun w => w.pool.Obeys I) (fun u a hu he hobeys => ?_) ?_
  · have hposted := (organized_of_reaches hu).posted
    have hallows : RecordLaw.Allows .free u a :=
      ⟨fun _ _ => .inl trivial, fun _ _ => trivial, fun _ _ _ _ _ => trivial⟩
    exact hI.perform he hposted (settings_of_reaches hu) hallows hobeys
  · intro h r hr
    cases hr

end World
end ProxyLease
