import Mathlib.Data.Prod.Basic
import ProxyLease.Proofs.Aside
import ProxyLease.Proofs.History
import ProxyLease.Proofs.Queue

/-!
# Restored proxies

A pool may open over records from earlier. Without a ceiling, a pending proxy is missing
from the queue exactly if it was restored as pending, and then it is never probed. A
proxy that was restored in cooldown goes back to the queue once it has rested since its
last failure; one without a recorded failure stays in cooldown for good.
-/

namespace ProxyLease

namespace Pool

variable {c : Concern} {p q : Pool} {h k : Handle} {stats : Statistics Float}

theorem Beats.history_grows (hb : Beats c p q) (k : Handle) : p.history k <+: q.history k := by
  obtain ⟨news, hnews, _⟩ := hb.news
  rw [Pool.history, Pool.history, hnews, List.filterMap_append]
  exact List.prefix_append _ _

/-- A proxy rests since the pool opened: nothing has happened to it so far. -/
structure Resting (stats : Statistics Float) (p : Pool) (h : Handle) : Prop where
  state : p.state? h = some .cooldown
  statistics : p.statistics? h = some stats
  history : p.history h = []

theorem isRested_eq (p : Pool) (h : Handle) :
    p.isRested h = match (p.statistics? h).bind (·.lastFailureAt) with
      | none => false
      | some last => decide (p.settings.cooldownDuration ≤ .since last p.now) := by
  have hlast : (p.statistics? h).bind (·.lastFailureAt) =
      (p.record? h).bind (·.statistics.lastFailureAt) := by
    rw [statistics?]
    cases p.record? h <;> rfl
  rw [hlast]
  rfl

theorem Begun.history {sent : Bool} (hb : Begun h p q sent) (hk : k ≠ h) :
    q.history k = p.history k := by
  cases hb with
  | skip hqueue hs hstate htrace => exact history_congr htrace k
  | expire hqueue hfirst hlast => rw [hlast.history, hfirst.history, if_neg hk, if_neg hk]
  | check hqueue hyoung hm hstate htrace =>
    rw [history_push htrace nofun, hm.history, if_neg hk]

theorem Beat.resting (hb : Beat c p q) (hverdict : c ≠ .verdict h) (huse : c ≠ .use h)
    (hr : Resting stats p h) : Resting stats q h ∨
      stats.lastFailureAt ≠ none ∧ (.cooldown, .pending) ∈ q.history h := by
  have hstat := hb.statistics hverdict huse hr.statistics
  have hmoved {k : Handle} {s t : Lifecycle} (hm : Published k s t p q) (hk : h ≠ k) :
      Resting stats q h :=
    ⟨by rw [hm.other hk, hr.state], hstat, by rw [hm.history, if_neg hk, hr.history]⟩
  cases hb with
  | still hstate hqueue htrace =>
    refine .inl ⟨by rw [hstate, hr.state], hstat, ?_⟩
    rcases htrace with htrace | ⟨e, he, htrace⟩
    · rw [history_congr htrace, hr.history]
    · rw [history_push htrace (by rintro _ _ _ rfl; cases he), hr.history]
  | @move k s t hm hqueue hs ht =>
    refine .inl (hmoved hm ?_)
    rintro rfl
    obtain rfl : s = .cooldown := Option.some.inj (hm.source.symm.trans hr.state)
    exact ht (List.mem_singleton.mp hm.next)
  | @requeue k s hc hm hqueue hrested =>
    by_cases hk : h = k
    · subst hk
      obtain rfl : s = .cooldown := Option.some.inj (hm.source.symm.trans hr.state)
      right
      constructor
      · intro hnone
        have hrested := hrested rfl
        rw [isRested_eq, hr.statistics, Option.bind_some, hnone] at hrested
        cases hrested
      · rw [hm.history, if_pos rfl]
        exact List.mem_append_right _ (List.mem_singleton_self _)
    · exact .inl (hmoved hm hk)
  | register hc hstate hqueue htrace =>
    obtain ⟨f, _, htrace⟩ := htrace
    refine .inl ⟨?_, hstat, by rw [history_push htrace nofun, hr.history]⟩
    rw [hstate, if_neg, hr.state]
    rintro rfl
    have hs := hr.state
    simp at hs
  | begin k hc hb =>
    by_cases hk : h = k
    · subst hk
      have hs := hr.state
      cases hb with
      | skip hqueue hn hstate htrace =>
        exact .inl ⟨by rw [hstate, hs], hstat, by rw [history_congr htrace, hr.history]⟩
      | expire hqueue hfirst | check hqueue hyoung hfirst =>
        rw [hfirst.source] at hs
        cases hs
    · exact .inl ⟨by rw [hb.other hk, hr.state], hstat, by rw [hb.history hk, hr.history]⟩

/-- Whether a proxy rests on or has gone back to the queue. -/
def Recovers (stats : Statistics Float) (p : Pool) (h : Handle) : Prop :=
  Resting stats p h ∨ stats.lastFailureAt ≠ none ∧ (.cooldown, .pending) ∈ p.history h

theorem Beats.recovers (hb : Beats c p q)
    (hc : Resting stats p h → c ≠ .verdict h ∧ c ≠ .use h) (hr : Recovers stats p h) :
    Recovers stats q h := by
  rcases hr with hr | ⟨hfailed, hmem⟩
  · obtain ⟨hverdict, huse⟩ := hc hr
    refine hb.keep (P := fun q => Recovers stats q h) (fun hstep hq => ?_) (.inl hr)
    rcases hq with hq | ⟨hfailed, hmem⟩
    · exact hstep.resting hverdict huse hq
    · exact .inr ⟨hfailed, (hstep.beats.history_grows h).subset hmem⟩
  · exact .inr ⟨hfailed, (hb.history_grows h).subset hmem⟩

/-! ### The cooldown pass -/

theorem isRested_congr (hstat : q.statistics? h = p.statistics? h)
    (hsettings : q.settings = p.settings) (hnow : q.now = p.now) : q.isRested h = p.isRested h := by
  rw [isRested_eq, isRested_eq, hstat, hsettings, hnow]

theorem recover_other (he : p.census.AddsUp) (hk : h ≠ k) :
    (p.recover k).state? h = p.state? h ∧ (p.recover k).isRested h = p.isRested h := by
  rw [recover]
  split
  · by_cases hs : p.state? k = some .cooldown
    · have hm := published_transfer he hs (t := .pending) (by decide)
      obtain ⟨_, _, _, _, hf⟩ := transfer_frame p k .cooldown .pending
      have hsettings : (p.transfer k .cooldown .pending).settings = p.settings := by rw [hf]
      have hnow : (p.transfer k .cooldown .pending).now = p.now := by rw [hf]
      rw [requeue_eq hs (by decide)]
      exact ⟨hm.other hk, isRested_congr (hm.statistics h) hsettings hnow⟩
    · rw [requeue, shiftFrom?_eq_none hs]
      exact ⟨rfl, rfl⟩
  · exact ⟨rfl, rfl⟩

theorem recover_history (he : p.census.AddsUp) (hs : p.state? h = some .cooldown)
    (hr : p.isRested h = true) : (.cooldown, .pending) ∈ (p.recover h).history h := by
  have hm := published_transfer he hs (t := .pending) (by decide)
  rw [recover, if_pos hr, requeue_eq hs (by decide)]
  change _ ∈ (p.transfer h .cooldown .pending).history h
  rw [hm.history, if_pos rfl]
  exact List.mem_append_right _ (List.mem_singleton_self _)

theorem foldl_recover_history {list : List Handle} (he : p.census.AddsUp) (hh : h ∈ list)
    (hs : p.state? h = some .cooldown) (hr : p.isRested h = true) :
    (.cooldown, .pending) ∈ (list.foldl recover p).history h := by
  induction list generalizing p with
  | nil => cases hh
  | cons k rest ih =>
    have hsum := ((recover_changes p k).beaten he).2
    rw [List.foldl_cons]
    by_cases hk : h = k
    · -- The proxy goes back now, and the rest of the pass takes nothing back.
      subst hk
      have hrest := changes_foldl recover recover_changes rest (p.recover h)
      exact ((hrest.beaten hsum).1.history_grows h).subset (recover_history he hs hr)
    · obtain ⟨hstate, hsame⟩ := recover_other he hk
      exact ih hsum ((List.mem_cons.mp hh).resolve_left hk) (hstate.trans hs) (hsame.trans hr)

theorem requeueRested_history (he : p.census.AddsUp) (hh : h ∈ p.proxiesIn .cooldown)
    (hr : p.isRested h = true) : (.cooldown, .pending) ∈ p.requeueRested.history h := by
  rw [requeueRested_eq]
  exact foldl_recover_history he hh (mem_proxiesIn.mp hh).2 hr

end Pool

namespace World

variable {w v : World} {a : Action} {h : Handle} {stats : Statistics Float}

/-- Whoever is being probed has moved since the pool opened. -/
def ProbesMoved (w : World) : Prop :=
  ∀ i h, w.workerStage i = .probing h → w.pool.history h ≠ []

theorem perform_history (w : World) (a : Action) (hsum : w.pool.census.AddsUp) (h : Handle) :
    w.pool.history h <+: (w.perform a).pool.history h :=
  (perform_beaten w a hsum).1.history_grows h

theorem perform_probesMoved (he : w.Enabled a = true) (hsum : w.pool.census.AddsUp)
    (hp : w.ProbesMoved) : (w.perform a).ProbesMoved := by
  intro i h hi
  rcases probing_of_perform he hsum hi with hi | ⟨_, hb⟩
  · intro hnil
    have hgrows := perform_history w a hsum h
    rw [hnil, List.prefix_nil] at hgrows
    exact hp i h hi hgrows
  · cases hb with
    | check hqueue hyoung hm hstate htrace =>
      rw [Pool.history_push htrace nofun, hm.history, if_pos rfl]
      simp

/-- Nobody reports on a proxy before it was handed out. -/
def FairTo (h : Handle) (w : World) (a : Action) : Prop :=
  w.concern a = .use h → (.available, .inUse) ∈ w.pool.history h

instance (h : Handle) (w : World) (a : Action) : Decidable (FairTo h w a) :=
  inferInstanceAs (Decidable (_ → _))

/-- What is known of a proxy that was restored in cooldown. -/
structure Restored (stats : Statistics Float) (h : Handle) (w : World) : Prop where
  addsUp : w.pool.census.AddsUp
  probesMoved : w.ProbesMoved
  recovers : w.pool.Recovers stats h

theorem perform_restored (he : w.Enabled a = true) (hf : FairTo h w a)
    (hr : w.Restored stats h) : (w.perform a).Restored stats h where
  addsUp := perform_addsUp w a hr.addsUp
  probesMoved := perform_probesMoved he hr.addsUp hr.probesMoved
  recovers := by
    refine (perform_beaten w a hr.addsUp).1.recovers (fun hrest => ⟨?_, ?_⟩) hr.recovers
    · -- A verdict needs a probe, and whoever is probed has moved.
      intro hc
      obtain ⟨i, o, rfl⟩ := exists_conclude_of_concern hc
      obtain ⟨k, _, _, hprobing, hconcern, _⟩ := conclude_of_enabled he
      rw [hconcern, Concern.verdict.injEq] at hc
      rw [hc] at hprobing
      exact hr.probesMoved i h hprobing hrest.history
    · intro hc
      have hmoved := hf hc
      rw [hrest.history] at hmoved
      cases hmoved

variable {settings : Settings} {sources : List String} {chooser : Chooser} {now : Instant}
  {content : List (Record Float)}

theorem restored_of_run {r : Record Float}
    (hr : (opening settings sources chooser now content).pool.record? h = some r)
    (hs : r.state = .cooldown) {actions : List Action}
    (hrun : (opening settings sources chooser now content).run? actions = some v)
    (hf : (opening settings sources chooser now content).Meanwhile (FairTo h) actions) :
    v.Restored r.statistics h := by
  refine hf.keep (Q := fun w => w.Restored r.statistics h) (fun w a => perform_restored) hrun ?_
  refine ⟨rfl, nofun, .inl ⟨?_, ?_, rfl⟩⟩
  · rw [Pool.state?, hr, ← hs]
    rfl
  · rw [Pool.statistics?, hr]
    rfl

/-- Without a ceiling, those who stand aside are those who were restored as pending. -/
theorem aside_iff_restored (hnone : settings.maxAvailableForValidation = none)
    (hv : (opening settings sources chooser now content).Reaches v) (h : Handle) :
    v.pool.Aside h ↔
      (opening settings sources chooser now content).pool.state? h = some .pending := by
  constructor
  · refine hv.keep_reached (P := fun v => v.pool.Aside h →
      (opening settings sources chooser now content).pool.state? h = some .pending)
        (fun w a hw _ hold ha => ?_) fun ha => ha.pending
    rcases aside_of_perform w a (addsUp_of_reaches hw) ha with ha | ⟨_, hfull⟩
    · exact hold ha
    · rw [Pool.admitsValidation, settings_of_reaches hw, hnone] at hfull
      cases hfull
  · intro hs
    exact aside_forever (addsUp_of_reaches (.refl _)) ⟨hs, List.not_mem_nil⟩ hv

theorem enrolled_of_reaches (hv : (opening settings sources chooser now content).Reaches v) :
    v.pool.Enrolled :=
  (hv.books ((Stocked.enroll content).books settings sources chooser now)).enrolled

theorem tick_coolDown {i : LoopId} {l : ChoreLoop} (hl : w.loops[i]? = some l)
    (hc : l.chore = .coolDown) : (w.perform (.tick i)).pool = w.pool.requeueRested := by
  simp only [perform, tick, hl, hc]
  rfl

/-- The first cooldown pass after a full rest sends a restored proxy back to the queue,
unless an earlier one did. -/
theorem Restored.tick (hr : w.Restored stats h)
    (hh : w.pool.state? h = some .cooldown → h ∈ w.pool.proxiesIn .cooldown) {last : Instant}
    (hlast : stats.lastFailureAt = some last) {i : LoopId} {l : ChoreLoop}
    (hl : w.loops[i]? = some l) (hc : l.chore = .coolDown)
    (hrested : w.pool.settings.cooldownDuration ≤ .since last w.now) :
    (.cooldown, .pending) ∈ (w.perform (.tick i)).pool.history h := by
  rcases hr.recovers with hrest | ⟨_, hmoved⟩
  · have hready : w.pool.isRested h = true := by
      rw [Pool.isRested_eq, hrest.statistics, Option.bind_some, hlast]
      exact decide_eq_true hrested
    rw [tick_coolDown hl hc]
    exact Pool.requeueRested_history hr.addsUp (hh hrest.state) hready
  · exact (perform_history w (.tick i) hr.addsUp h).subset hmoved

end World

/-! ### Resuming -/

/-- When a start has returned, every pending proxy is in the queue. -/
def Settings.ResumesPending (settings : Settings) : Prop :=
  ∀ {sources chooser now content pass v w answer added},
    (World.opening settings sources chooser now content).start = (.fetching pass, v) →
    v.Reaches w → w.Enabled (.supplyPass pass answer) = true →
    (w.perform (.supplyPass pass answer)).passes[pass]? = some (.finished added) →
    ∀ h ∈ (w.perform (.supplyPass pass answer)).pool.proxiesIn .pending,
      h ∈ (w.perform (.supplyPass pass answer)).pool.queue

/-- Every proxy that was restored in cooldown has become pending by the end of the first
cooldown pass that comes a full rest after the start. -/
def Settings.ResumesCooldown (settings : Settings) : Prop :=
  ∀ {sources chooser now content pass v w} {h : Handle} {actions : List Action} {i : LoopId}
    {l : ChoreLoop},
    (World.opening settings sources chooser now content).start = (.fetching pass, v) →
    h ∈ v.pool.proxiesIn .cooldown → v.run? actions = some w →
    v.Meanwhile (World.FairTo h) actions → w.Enabled (.tick i) = true → w.loops[i]? = some l →
    l.chore = .coolDown → v.now + settings.cooldownDuration.ns ≤ w.now →
    (.cooldown, .pending) ∈ (w.perform (.tick i)).pool.history h

/-- Neither holds of the standard settings: a proxy restored as pending is not queued, and
one restored in cooldown without a failure stays there. -/
theorem standard_not_resumes :
    ¬ Settings.standard.ResumesPending ∧ ¬ Settings.standard.ResumesCooldown := by
  let content : List (Record Float) :=
    [.fresh (.plain "a" 1 .http) 0 1, { Record.fresh (.plain "b" 1 .http) 0 1 with
      state := .cooldown }]
  let restored := World.opening .standard ["s"] (.roundRobin 0) 0 content
  constructor
  · intro hresumes
    obtain ⟨started, hstart, henabled, hfinished, hpending, hunqueued⟩ :
        ∃ v, restored.start = (.fetching 0, v) ∧ v.Enabled (.supplyPass 0 (.ok [])) = true ∧
          (v.perform (.supplyPass 0 (.ok []))).passes[0]? = some (.finished 0) ∧
          0 ∈ (v.perform (.supplyPass 0 (.ok []))).pool.proxiesIn .pending ∧
          0 ∉ (v.perform (.supplyPass 0 (.ok []))).pool.queue :=
      ⟨restored.start.2, Prod.fst_eq_iff.mp (by decide +kernel), by decide +kernel⟩
    exact hunqueued (hresumes hstart (.refl _) henabled hfinished 0 hpending)
  · intro hresumes
    let actions : List Action := [.supplyPass 0 (.ok []), .advance (.ofSeconds 60)]
    obtain ⟨started, hstart, hcool, hfair, hrun⟩ :
        ∃ v : World, restored.start = (.fetching 0, v) ∧ 1 ∈ v.pool.proxiesIn .cooldown ∧
          v.Meanwhile (World.FairTo 1) actions ∧
          (v.run? actions).bind (fun w => (w.loops[2]?).map fun l : ChoreLoop =>
            decide (w.Enabled (.tick 2) = true ∧ l.chore = .coolDown ∧
              v.now + Settings.standard.cooldownDuration.ns ≤ w.now ∧
              (.cooldown, .pending) ∉ (w.perform (.tick 2)).pool.history 1)) = some true :=
      ⟨restored.start.2, Prod.fst_eq_iff.mp (by decide +kernel), by decide +kernel⟩
    obtain ⟨w, hw, hrest⟩ := Option.bind_eq_some_iff.mp hrun
    obtain ⟨l, hl, hfacts⟩ := Option.map_eq_some_iff.mp hrest
    obtain ⟨henabled, hchore, hrested, hstill⟩ := of_decide_eq_true hfacts
    exact hstill (hresumes hstart hcool hw hfair henabled hl hchore hrested)

/-- Without a ceiling, a registered pending proxy is missing from the queue exactly if it
was restored as pending. A proxy that was restored in cooldown with a failure has gone back
to the queue by the end of the first cooldown pass that comes a full rest after that
failure, and one without a failure stays in cooldown. -/
theorem restored_proxies_recover_or_stand_aside {settings : Settings} {sources : List String}
    {chooser : Chooser} {now : Instant} {content : List (Record Float)}
    (hnone : settings.maxAvailableForValidation = none) :
    let restored := World.opening settings sources chooser now content
    (∀ v, restored.Reaches v → ∀ h, h ∈ v.pool.proxiesIn .pending ∧ h ∉ v.pool.queue ↔
      h ∈ restored.pool.proxiesIn .pending) ∧
    ∀ h r, restored.pool.record? h = some r → r.state = .cooldown →
      ∀ actions v, restored.run? actions = some v →
        restored.Meanwhile (World.FairTo h) actions →
        (r.statistics.lastFailureAt = none → h ∈ v.pool.proxiesIn .cooldown) ∧
        ∀ last i l, r.statistics.lastFailureAt = some last → v.loops[i]? = some l →
          l.chore = .coolDown → settings.cooldownDuration ≤ .since last v.now →
          (.cooldown, .pending) ∈ (v.perform (.tick i)).pool.history h := by
  refine ⟨fun v hv h => ?_, fun h r hr hs actions v hrun hfair => ?_⟩
  · have haside := World.aside_iff_restored hnone hv h
    constructor
    · rintro ⟨hpending, hunqueued⟩
      have hs := haside.mp ⟨(Pool.mem_proxiesIn.mp hpending).2, hunqueued⟩
      exact (World.enrolled_of_reaches (.refl _)).mem_proxiesIn hs nofun nofun
    · intro hpending
      have ha := haside.mpr (Pool.mem_proxiesIn.mp hpending).2
      exact ⟨(World.enrolled_of_reaches hv).mem_proxiesIn ha.pending nofun nofun, ha.unqueued⟩
  · have hreaches : (World.opening settings sources chooser now content).Reaches v :=
      ⟨actions, hrun⟩
    have henrolled := World.enrolled_of_reaches hreaches
    have hrestored := World.restored_of_run hr hs hrun hfair
    constructor
    · intro hnever
      rcases hrestored.recovers with hrest | ⟨hfailed, _⟩
      · exact henrolled.mem_proxiesIn hrest.state nofun nofun
      · exact absurd hnever hfailed
    · intro last i l hlast hl hc hrested
      refine hrestored.tick (fun hs => ?_) hlast hl hc ?_
      · exact henrolled.mem_proxiesIn hs nofun nofun
      · rwa [World.settings_of_reaches hreaches]

/-- A proxy that is restored as pending, one that failed when the pool opened, and one that
never failed, a minute later. -/
theorem restored_proxies_recover_or_stand_aside_after_rest :
    ∃ v : World, (World.opening .standard ["s"] (.roundRobin 0) 0
        [.fresh (.plain "a" 1 .http) 0 1,
          { Record.fresh (R := Float) (.plain "b" 1 .http) 0 1 with
            state := .cooldown, statistics := .mark .empty false 0 },
          { Record.fresh (.plain "c" 1 .http) 0 1 with state := .cooldown }]).run?
            [.start, .supplyPass 0 (.ok []), .advance (.ofSeconds 60)] = some v ∧
      (0 ∈ v.pool.proxiesIn .pending ∧ 0 ∉ v.pool.queue) ∧
      (.cooldown, .pending) ∈ (v.perform (.tick 2)).pool.history 1 ∧
      2 ∈ v.pool.proxiesIn .cooldown := by
  let content : List (Record Float) :=
    [.fresh (.plain "a" 1 .http) 0 1,
      { Record.fresh (R := Float) (.plain "b" 1 .http) 0 1 with
        state := .cooldown, statistics := .mark .empty false 0 },
      { Record.fresh (.plain "c" 1 .http) 0 1 with state := .cooldown }]
  let restored := World.opening .standard ["s"] (.roundRobin 0) 0 content
  let actions : List Action := [.start, .supplyPass 0 (.ok []), .advance (.ofSeconds 60)]
  have hpending : 0 ∈ restored.pool.proxiesIn .pending := by decide +kernel
  have hfailed : (restored.pool.record? 1).map (fun r => (r.state, r.statistics.lastFailureAt)) =
      some (.cooldown, some 0) := by
    decide +kernel
  have hnever : (restored.pool.record? 2).map (fun r => (r.state, r.statistics.lastFailureAt)) =
      some (.cooldown, none) := by
    decide +kernel
  have hfair : restored.Meanwhile (World.FairTo 1) actions ∧
      restored.Meanwhile (World.FairTo 2) actions := by
    decide +kernel
  have hrun : (restored.run? actions).bind (fun v => (v.loops[2]?).map fun l : ChoreLoop =>
      decide (l.chore = .coolDown ∧
        Settings.standard.cooldownDuration ≤ .since 0 v.now)) = some true := by
    decide +kernel
  obtain ⟨v, hv, hrest⟩ := Option.bind_eq_some_iff.mp hrun
  obtain ⟨l, hl, hfacts⟩ := Option.map_eq_some_iff.mp hrest
  obtain ⟨hchore, hrested⟩ := of_decide_eq_true hfacts
  obtain ⟨hqueue, hcooldown⟩ := @restored_proxies_recover_or_stand_aside .standard ["s"]
    (.roundRobin 0) 0 content rfl
  refine ⟨v, hv, (hqueue v ⟨actions, hv⟩ 0).mpr hpending, ?_, ?_⟩
  · obtain ⟨r, hr, hfacts⟩ := Option.map_eq_some_iff.mp hfailed
    obtain ⟨hs, hlast⟩ := Prod.mk.inj hfacts
    exact (hcooldown 1 r hr hs actions v hv hfair.1).2 0 2 l hlast hl hchore hrested
  · obtain ⟨r, hr, hfacts⟩ := Option.map_eq_some_iff.mp hnever
    obtain ⟨hs, hlast⟩ := Prod.mk.inj hfacts
    exact (hcooldown 2 r hr hs actions v hv hfair.2).1 hlast

end ProxyLease
