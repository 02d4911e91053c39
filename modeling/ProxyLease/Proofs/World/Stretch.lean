import ProxyLease.Proofs.Pool.Calm
import ProxyLease.Proofs.Pool.Service

/-!
# Stretches

What a step of a world means to the consumers: the pool makes some changes of its own,
and then at most one thing happens that concerns them. Tasks and clocks do not show any
more at the desk, where consumers meet the pool. What consumers do of their own accord,
reporting and going away, is left to laws of its own.
-/

namespace ProxyLease

/-- The part of a world that consumers deal with. -/
structure Desk where
  pool : Pool
  calls : Array Call

/-- What can happen to the consumers in one stretch. -/
inductive Act (c : Concern) : Desk → Desk → Prop
  | rest (d : Desk) : Act c d d
  | free (d : Desk) (h : Handle) (hs : d.pool.state? h = some .validating)
      (hc : c = .verdict h) : Act c d ⟨d.pool.free h .validating, d.calls⟩
  | take (d : Desk) (h : Handle) (hs : d.pool.state? h = some .available) :
      Act c d ⟨d.pool.handOut h, d.calls.push (.returned h)⟩
  | turnAway (d : Desk) {call : Call} (hc : call = .empty ∨ ∃ failure, call = .refused failure) :
      Act c d ⟨d.pool, d.calls.push call⟩
  /-- A consumer joins the line, which a standard chooser sees only when nobody is available. -/
  | join (d : Desk) (wait : Duration) (deadline : Instant) {q : Pool}
      (hq : Pool.Services c d.pool.joinLine.2 q)
      (hc : d.pool.chooser.isStandard = true →
        d.pool.proxiesIn .available = [] ∧ Pool.Changes c d.pool.joinLine.2 q) :
      Act c d ⟨q, d.calls.push (.waiting d.pool.inboxes.size wait deadline)⟩
  | settle (d : Desk) {i : CallId} {t : Ticket} {wait : Duration} {deadline : Instant}
      (hi : d.calls[i]? = some (.waiting t wait deadline)) (cause : WaitEnd) :
      Act c d ⟨d.pool.leaveLine t,
        d.calls.setIfInBounds i (World.Call.ofResult (Pool.waitResult (d.pool.inbox t) cause))⟩

/-- Some changes of the pool and then one act, in a stretch about some concern. -/
def Stretch (c : Concern) (d e : Desk) : Prop :=
  ∃ p, Pool.Changes c d.pool p ∧ Act c ⟨p, d.calls⟩ e

namespace Action

/-- Reports are steps of consumers who hold a proxy, or say so. -/
def isReport : Action → Bool
  | .reportSuccess _ _ | .reportFailure _ _ => true
  | _ => false

/-- Requests for a proxy begin. -/
def isRequest : Action → Bool
  | .tryGet | .get _ => true
  | _ => false

/-- The caller of a request goes away while it waits. -/
def isAbandonment : Action → Bool
  | .abandon _ => true
  | _ => false

end Action

/-! ### Settings -/

namespace Pool

variable {p q : Pool} {h : Handle}

theorem settings_deliver (p : Pool) (t : Ticket) (others : List Ticket) (h : Handle) :
    (p.deliver t others h).settings = p.settings := by
  obtain ⟨records, registry, census, trace, he⟩ := deliver_frame p t others h
  rw [he]

theorem settings_offer (p : Pool) (h : Handle) : (p.offer h).2.settings = p.settings := by
  rcases offer_cases p h with ⟨_, ho⟩ | ⟨_, ho⟩ | ⟨t, others, _, _, ho⟩
  · rw [ho, trimmed]
  · rw [ho, trimmed]
  · rw [ho, settings_deliver]

theorem settings_transfer (p : Pool) (h : Handle) (s t : Lifecycle) :
    (p.transfer h s t).settings = p.settings := by
  obtain ⟨records, registry, census, trace, he⟩ := transfer_frame p h s t
  rw [he]

theorem settings_free (p : Pool) (h : Handle) (s : Lifecycle) :
    (p.free h s).settings = p.settings :=
  (settings_offer _ h).trans (settings_transfer p h s .available)

theorem Services.settings {c : Concern} (hs : Services c p q) : q.settings = p.settings := by
  refine hs.keep (P := fun q => q.settings = p.settings) (fun hstep hq => ?_) rfl
  cases hstep with
  | change hc => exact hc.calm.settings.trans hq
  | deliver h hl hs => exact (settings_deliver _ _ _ h).trans hq

theorem Reported.settings (hr : Reported h p q) : q.settings = p.settings := by
  obtain ⟨r, hc, _, ⟨_, hreturn⟩ | ⟨_, rfl⟩⟩ := hr
  · refine Eq.trans ?_ hc.calm.settings
    cases hreturn with
    | free => exact settings_free r h .inUse
    | punish => exact settings_transfer r h .inUse _
  · exact hc.calm.settings

end Pool

theorem Act.settings {c : Concern} {d e : Desk} (ha : Act c d e) :
    e.pool.settings = d.pool.settings := by
  cases ha with
  | rest | turnAway => rfl
  | free h hs => exact Pool.settings_free d.pool h .validating
  | take h hs =>
    obtain ⟨records, registry, census, trace, he⟩ := Pool.handOut_frame d.pool h
    rw [he]
  | join wait deadline hq hc => exact hq.settings
  | settle => rw [Pool.leaveLine_eq]

namespace World

variable {c : Concern} {w v : World}

def desk (w : World) : Desk := ⟨w.pool, w.calls⟩

/-- What the stretch of a task is about in which a step happens. -/
def concern (w : World) : Action → Concern
  | .take _ =>
    match w.pool.queue with
    | [] => .upkeep
    | h :: _ => .probe h
  | .conclude i _ =>
    match w.workers[i]? with
    | some ⟨_, .probing h⟩ => .verdict h
    | _ => .upkeep
  | .supplyPass _ _ | .supplyLoop _ _ => .acquisition
  | .tryGet | .get _ => .request
  | .reportSuccess h _ | .reportFailure h _ => .use h
  | _ => .upkeep

theorem stretch_of_changes (hp : Pool.Changes c w.pool v.pool) (hc : v.calls = w.calls) :
    Stretch c w.desk v.desk := by
  refine ⟨v.pool, hp, ?_⟩
  have hd : v.desk = ⟨v.pool, w.desk.calls⟩ := by rw [desk, desk, hc]
  rw [hd]
  exact .rest _

theorem desk_resize (w : World) : w.resize.desk = w.desk := by
  unfold resize
  split <;> rfl

/-! ### Start and stop -/

theorem staff_changes (w : World) (text : Pool → String) :
    Pool.Changes c w.pool (w.resize.mapPool fun p => p.note .info (text p)).beginPass.2.pool ∧
      (w.resize.mapPool fun p => p.note .info (text p)).beginPass.2.calls = w.calls := by
  have hd := desk_resize w
  have hp : w.resize.pool = w.pool := congrArg Desk.pool hd
  have hn : Pool.Changes c w.pool (w.resize.pool.note .info (text w.resize.pool)) := by
    rw [hp]
    exact Pool.changes_note _ _ _
  exact ⟨hn.trans (Pool.proceed_changes _ _), congrArg Desk.calls hd⟩

theorem start_changes {pass : PassId} (hs : w.start = (.fetching pass, v)) :
    Pool.Changes .upkeep { w.pool with running := true }.recount v.pool ∧ v.calls = w.calls := by
  unfold start at hs
  split at hs
  · cases hs
  · split at hs
    · cases hs
    · extract_lets counted chores looping staffed told at hs
      have hv : v = told.beginPass.2 := (congrArg Prod.snd hs).symm
      rw [hv]
      exact staff_changes looping _

theorem start_idle {s : Started} (hs : w.start = (s, v)) (hn : ∀ pass, s ≠ .fetching pass) :
    v = w := by
  unfold start at hs
  split_ifs at hs
  · cases hs
    rfl
  · cases hs
    rfl
  · cases hs
    exact absurd rfl (hn _)

theorem start_stretch (w : World) : Stretch .upkeep w.desk w.start.2.desk := by
  obtain ⟨s, v, hs⟩ : ∃ s v, w.start = (s, v) := ⟨_, _, rfl⟩
  rw [hs]
  by_cases hf : ∃ pass, s = .fetching pass
  · obtain ⟨pass, rfl⟩ := hf
    obtain ⟨hp, hc⟩ := start_changes hs
    exact stretch_of_changes ((Pool.Change.launch w.pool rfl).changes.trans hp) hc
  · have hv : v = w := start_idle hs fun pass hpass => hf ⟨pass, hpass⟩
    rw [hv]
    exact stretch_of_changes (.refl _) rfl

theorem stop_stretch (w : World) : Stretch .upkeep w.desk w.stop.2.desk := by
  unfold stop
  split
  · exact stretch_of_changes (w := w) (Pool.Change.close w.pool rfl).changes rfl
  · exact stretch_of_changes (w := w) (.refl _) rfl

theorem setConcurrency_stretch (w : World) (n : Nat) :
    Stretch .upkeep w.desk ((w.setConcurrency n).toOption.getD w).desk := by
  unfold setConcurrency
  split_ifs
  · exact stretch_of_changes (w := w) (.refl _) rfl
  · change Stretch .upkeep w.desk (resize _).desk
    rw [desk_resize]
    exact stretch_of_changes (w := w) (Pool.Change.staff w.pool n rfl).changes rfl

/-! ### Tasks -/

theorem take_stretch (w : World) (i : WorkerId) :
    Stretch (w.concern (.take i)) w.desk (w.take i).desk := by
  cases hq : w.pool.queue with
  | nil =>
    simp only [take, hq]
    exact stretch_of_changes (w := w) (.refl _) rfl
  | cons h rest =>
    have hp := (Pool.Change.begin w.pool hq rfl).changes
    simp only [take, concern, hq]
    split
    · exact stretch_of_changes (w := w) hp rfl
    · exact stretch_of_changes (w := w) hp rfl

theorem conclude_idle (i : WorkerId) (o : Outcome)
    (hn : ∀ cancelled h, w.workers[i]? ≠ some ⟨cancelled, .probing h⟩) : w.conclude i o = w := by
  unfold conclude
  split
  · next he => exact absurd he (hn _ _)
  · rfl

theorem conclude_stretch (w : World) (i : WorkerId) (o : Outcome) :
    Stretch (w.concern (.conclude i o)) w.desk (w.conclude i o).desk := by
  by_cases hi : ∃ cancelled h, w.workers[i]? = some ⟨cancelled, .probing h⟩
  · obtain ⟨cancelled, h, hi⟩ := hi
    simp only [conclude, concern, hi]
    obtain ⟨r, hr, ⟨_, he⟩ | ⟨hs, he⟩⟩ := Pool.endProbe_probed w.pool h o
    · rw [← he] at hr
      exact stretch_of_changes (w := w) (v := w.mapPool (·.endProbe h o)) hr rfl
    · refine ⟨r, hr, ?_⟩
      change Act _ _ ⟨w.pool.endProbe h o, w.calls⟩
      rw [he]
      exact .free ⟨r, w.calls⟩ h hs rfl
  · rw [conclude_idle i o fun cancelled h he => hi ⟨cancelled, h, he⟩]
    exact stretch_of_changes (.refl _) rfl

theorem tick_stretch (w : World) (i : LoopId) : Stretch .upkeep w.desk (w.tick i).desk := by
  unfold tick
  split
  · exact stretch_of_changes (w := w) (.refl _) rfl
  · dsimp only
    split
    · exact stretch_of_changes (w := w) (Pool.requeueStale_changes _) rfl
    · exact stretch_of_changes (w := w) (Pool.requeueRested_changes _) rfl
    · split
      · exact stretch_of_changes (w := w) (Pool.proceed_changes _ _) rfl
      · exact stretch_of_changes (w := w) (Pool.proceed_changes _ _) rfl

theorem supplyPass_changes (w : World) (i : PassId)
    (answer : Except SourceFailure (List Endpoint)) :
    Pool.Changes .acquisition w.pool (w.supplyPass i answer).pool ∧
      (w.supplyPass i answer).calls = w.calls := by
  unfold supplyPass
  split
  · exact ⟨Pool.answered_changes _ _ _, rfl⟩
  · exact ⟨.refl _, rfl⟩

theorem supplyLoop_changes (w : World) (i : LoopId)
    (answer : Except SourceFailure (List Endpoint)) :
    Pool.Changes .acquisition w.pool (w.supplyLoop i answer).pool ∧
      (w.supplyLoop i answer).calls = w.calls := by
  unfold supplyLoop
  split
  · exact ⟨Pool.answered_changes _ _ _, rfl⟩
  · exact ⟨.refl _, rfl⟩

/-- New proxies come in changes alone: no consumer is served meanwhile. -/
theorem perform_changes {a : Action} (hc : w.concern a = .acquisition) :
    Pool.Changes .acquisition w.pool (w.perform a).pool ∧ (w.perform a).calls = w.calls := by
  cases a with
  | supplyPass i answer => exact supplyPass_changes w i answer
  | supplyLoop i answer => exact supplyLoop_changes w i answer
  | take i =>
    simp only [concern] at hc
    split at hc <;> cases hc
  | conclude i o =>
    simp only [concern] at hc
    split at hc <;> cases hc
  | _ => cases hc

/-! ### Requests -/

theorem isRequest_of_concern {a : Action} (hc : w.concern a = .request) : a.isRequest = true := by
  cases a with
  | take i =>
    simp only [concern] at hc
    split at hc <;> cases hc
  | conclude i o =>
    simp only [concern] at hc
    split at hc <;> cases hc
  | tryGet | get => rfl
  | _ => cases hc

theorem tryGet_asked (w : World) : Stretch c ⟨w.pool.requested, w.calls⟩ w.tryGet.2.desk := by
  rcases Pool.takeWithin_changes (w.pool.requested.chooser.foreignPicks + 1) w.pool.requested with
    ⟨hn, hq⟩ | ⟨h, q, hf, hq, hs, he⟩
  · have hb : w.pool.tryGet = (none, w.pool.requested.takeAvailable.2) := Prod.ext hn rfl
    refine ⟨_, hq, ?_⟩
    unfold tryGet
    rw [hb]
    exact .turnAway ⟨_, w.calls⟩ (.inl rfl)
  · have hb : w.pool.tryGet = (some h, q.handOut h) := Prod.ext hf he
    refine ⟨q, hq, ?_⟩
    unfold tryGet
    rw [hb]
    exact .take ⟨q, w.calls⟩ h hs

theorem get_asked (w : World) (timeout : Option Duration) :
    Stretch c ⟨w.pool.requested, w.calls⟩ (w.get timeout).2.desk := by
  rcases Pool.takeWithin_changes (w.pool.requested.chooser.foreignPicks + 1) w.pool.requested with
    ⟨hn, hq⟩ | ⟨h, q, hf, hq, hs, he⟩
  · have hb : w.pool.requested.takeAvailable = (none, w.pool.requested.takeAvailable.2) :=
      Prod.ext hn rfl
    refine ⟨_, hq, ?_⟩
    unfold get Pool.beginGet
    rw [hb]
    dsimp only
    split_ifs with hz hrun
    · exact .turnAway ⟨_, w.calls⟩ (.inr ⟨_, rfl⟩)
    · refine .join ⟨_, w.calls⟩ _ _ (Pool.dispatchAvailable_services _) fun hc => ?_
      have hstandard : w.pool.requested.chooser.isStandard = true := by
        rw [← hq.calm.standard]
        exact hc
      obtain ⟨hl, he⟩ := Pool.takeWithin_eq_none _ hstandard hn
      have hnobody : (w.pool.requested.takeWithin
          (w.pool.requested.chooser.foreignPicks + 1)).2.proxiesIn .available = [] := by
        rw [he]
        exact hl
      exact ⟨hnobody, Pool.dispatchAvailable_changes hc hnobody⟩
    · exact .turnAway ⟨_, w.calls⟩ (.inr ⟨_, rfl⟩)
  · refine ⟨q, hq, ?_⟩
    have hb : w.pool.requested.takeAvailable = (some h, q.handOut h) := Prod.ext hf he
    have hd : (w.get timeout).2.desk = ⟨q.handOut h, w.calls.push (.returned h)⟩ := by
      unfold get Pool.beginGet
      rw [hb]
      rfl
    rw [hd]
    exact .take ⟨q, w.calls⟩ h hs

theorem stretch_of_asked {e : Desk} (hs : Stretch .request ⟨w.pool.requested, w.calls⟩ e) :
    Stretch .request w.desk e := by
  obtain ⟨p, hc, ha⟩ := hs
  exact ⟨p, (Pool.Change.ask w.pool rfl).changes.trans hc, ha⟩

theorem endCall_stretch (w : World) (i : CallId) (cause : WaitEnd) :
    Stretch c w.desk (w.endCall i cause).desk := by
  unfold endCall
  split
  · next t wait deadline hi => exact ⟨w.pool, .refl _, .settle w.desk hi cause⟩
  · exact stretch_of_changes (w := w) (.refl _) rfl

theorem abandon_cases (w : World) (i : CallId) :
    (w.abandon i).desk = w.desk ∨ ∃ t wait deadline,
      w.calls[i]? = some (.waiting t wait deadline) ∧
      (w.abandon i).desk = ⟨w.pool.leaveLine t, w.calls.setIfInBounds i (.abandoned t)⟩ := by
  unfold abandon
  split
  · next t wait deadline hi => exact .inr ⟨t, wait, deadline, hi, rfl⟩
  · exact .inl rfl

theorem perform_stretch (w : World) {a : Action} (hr : a.isReport = false)
    (ha : a.isAbandonment = false) : Stretch (w.concern a) w.desk (w.perform a).desk := by
  cases a with
  | advance d => exact stretch_of_changes (w := w) (Pool.Change.elapse w.pool d rfl).changes rfl
  | start => exact start_stretch w
  | stop => exact stop_stretch w
  | finishStop i => exact stretch_of_changes (w := w) (Pool.changes_note _ _ _) rfl
  | setConcurrency n => exact setConcurrency_stretch w n
  | take i => exact take_stretch w i
  | conclude i o => exact conclude_stretch w i o
  | leave i => exact stretch_of_changes (w := w) (.refl _) rfl
  | tick i => exact tick_stretch w i
  | quit i => exact stretch_of_changes (w := w) (.refl _) rfl
  | fetch => exact stretch_of_changes (w := w) (Pool.proceed_changes _ _) rfl
  | supplyPass i answer =>
    obtain ⟨hp, hc⟩ := supplyPass_changes w i answer
    exact stretch_of_changes hp hc
  | supplyLoop i answer =>
    obtain ⟨hp, hc⟩ := supplyLoop_changes w i answer
    exact stretch_of_changes hp hc
  | tryGet => exact stretch_of_asked (tryGet_asked w)
  | get timeout => exact stretch_of_asked (get_asked w timeout)
  | resume i => exact endCall_stretch w i _
  | expire i =>
    unfold perform
    dsimp only
    split
    · exact endCall_stretch w i _
    · exact stretch_of_changes (w := w) (.refl _) rfl
  | cancel i => exact endCall_stretch w i _
  | abandon => cases ha
  | reportSuccess | reportFailure => cases hr

/-- A step is a stretch, or a consumer reports or goes away. -/
theorem perform_cases (w : World) (a : Action) :
    Stretch (w.concern a) w.desk (w.perform a).desk ∨
    (∃ h, w.concern a = .use h ∧ Pool.Reported h w.pool (w.perform a).pool ∧
      (w.perform a).calls = w.calls) ∨
    ∃ i t wait deadline, w.calls[i]? = some (.waiting t wait deadline) ∧
      (w.perform a).desk = ⟨w.pool.leaveLine t, w.calls.setIfInBounds i (.abandoned t)⟩ := by
  by_cases hr : a.isReport = false
  · by_cases ha : a.isAbandonment = false
    · exact .inl (perform_stretch w hr ha)
    · cases a with
      | abandon i =>
        rcases abandon_cases w i with hd | ⟨t, wait, deadline, hi, hd⟩
        · left
          rw [perform, hd]
          exact ⟨w.pool, .refl _, .rest _⟩
        · exact .inr (.inr ⟨i, t, wait, deadline, hi, hd⟩)
      | _ => exact absurd rfl ha
  · cases a with
    | reportSuccess h elapsed =>
      exact .inr (.inl ⟨h, rfl, Pool.reportSuccess_reported w.pool h elapsed, rfl⟩)
    | reportFailure h verdict =>
      exact .inr (.inl ⟨h, rfl, Pool.reportFailure_reported w.pool h verdict, rfl⟩)
    | _ => exact absurd rfl hr

theorem settings_perform (w : World) (a : Action) :
    (w.perform a).pool.settings = w.pool.settings := by
  rcases perform_cases w a with ⟨p, hc, hact⟩ | ⟨h, _, hr, _⟩ | ⟨i, t, wait, deadline, _, hd⟩
  · exact hact.settings.trans hc.calm.settings
  · exact hr.settings
  · rw [show (w.perform a).pool = w.pool.leaveLine t from congrArg Desk.pool hd, Pool.leaveLine_eq]

/-! ### Runs -/

/-- A condition holds for every world of a run and the step that is taken there. -/
def Meanwhile (P : World → Action → Prop) : World → List Action → Prop
  | _, [] => True
  | w, a :: rest => P w a ∧ Meanwhile P (w.perform a) rest

instance Meanwhile.decidable (P : World → Action → Prop) [∀ w a, Decidable (P w a)] :
    ∀ (w : World) (actions : List Action), Decidable (Meanwhile P w actions)
  | _, [] => .isTrue trivial
  | w, a :: rest =>
    have := Meanwhile.decidable P (w.perform a) rest
    inferInstanceAs (Decidable (P w a ∧ Meanwhile P (w.perform a) rest))

theorem Meanwhile.keep {P : World → Action → Prop} {Q : World → Prop}
    (hstep : ∀ w a, w.Enabled a → P w a → Q w → Q (w.perform a)) {actions : List Action}
    (hrun : w.run? actions = some v) (hm : w.Meanwhile P actions) (hw : Q w) : Q v := by
  induction actions generalizing w with
  | nil =>
    cases hrun
    exact hw
  | cons a rest ih =>
    rw [run?] at hrun
    split_ifs at hrun with he
    exact ih hrun hm.2 (hstep w a he hm.1 hw)

theorem Reaches.step {a : Action} (he : w.Enabled a = true) : w.Reaches (w.perform a) :=
  ⟨[a], by rw [run?, if_pos he, run?]⟩

theorem Reaches.keep {P : World → Prop} (hstep : ∀ w a, w.Enabled a → P w → P (w.perform a))
    (hr : w.Reaches v) (hw : P w) : P v := by
  obtain ⟨actions, hrun⟩ := hr
  induction actions generalizing w with
  | nil =>
    cases hrun
    exact hw
  | cons a rest ih =>
    rw [run?] at hrun
    split_ifs at hrun with he
    exact ih (hstep w a he hw) hrun

/-- A step may use that the world in which it is taken was reached. -/
theorem Reaches.keep_reached {P : World → Prop} (hr : w.Reaches v)
    (hstep : ∀ u a, w.Reaches u → u.Enabled a → P u → P (u.perform a)) (hw : P w) : P v := by
  have hkept : w.Reaches v ∧ P v := by
    refine hr.keep (P := fun v => w.Reaches v ∧ P v) ?_ ⟨.refl w, hw⟩
    rintro u a he ⟨hu, hp⟩
    exact ⟨hu.trans (.step he), hstep u a hu he hp⟩
  exact hkept.2

end World
end ProxyLease
