import ProxyLease.Proofs.Decline
import ProxyLease.Proofs.Pacing
import ProxyLease.Proofs.Total

/-!
# Extinction

Disabled proxies keep their places for ever, so a pool that is full of them is dead: nothing
new is registered, and nothing becomes available again. The time to live does not help, since
only pending proxies are asked for their age. It decides whether things can go so far: a
proxy has to rest after all its failures but the last, and still be young enough for a probe.
-/

namespace ProxyLease

/-- The pool is full, and all that it holds is disabled. -/
structure World.Extinct (w : World) : Prop where
  full : w.pool.census.total = w.pool.settings.maxPoolSize
  disabled : ∀ h ∈ w.pool.registry.handles, w.pool.state? h = some .disabled

/-- A pool would never die if no run over an empty storage could end in extinction while it
goes on. -/
def Settings.NeverDies (settings : Settings) : Prop :=
  ∀ {sources chooser now w}, (World.opening settings sources chooser now []).Reaches w →
    w.pool.running = true → ¬w.Extinct

/-- A pool of one proxy dies when this one fails its first three probes. -/
theorem not_neverDies : ¬ Settings.NeverDies { Settings.standard with maxPoolSize := 1 } := by
  intro hnever
  let actions : List Action :=
    [.start, .supplyPass 0 (.ok [.plain "a" 1 .http]),
      .take 0, .conclude 0 (.timeout 0 .zero), .advance (.ofSeconds 60), .tick 2,
      .take 0, .conclude 0 (.timeout 60000000000 .zero), .advance (.ofSeconds 60), .tick 2,
      .take 0, .conclude 0 (.timeout 120000000000 .zero)]
  have hrun : ((World.opening { Settings.standard with maxPoolSize := 1 } ["s"] (.roundRobin 0) 0
      []).run? actions).map (fun w => decide (w.pool.running = true ∧
        w.pool.census.total = w.pool.settings.maxPoolSize ∧ w.pool.registry.handles = [0] ∧
        w.pool.state? 0 = some .disabled)) = some true := by
    decide +kernel
  obtain ⟨w, hw, hfacts⟩ := Option.map_eq_some_iff.mp hrun
  obtain ⟨hruns, hfull, hhandles, hdisabled⟩ := of_decide_eq_true hfacts
  refine hnever ⟨actions, hw⟩ hruns ⟨hfull, fun h hh => ?_⟩
  rw [hhandles, List.mem_singleton] at hh
  rw [hh, hdisabled]

namespace Pool

variable {c : Concern} {p q : Pool} {h : Handle}

/-- The same proxies are registered as in an earlier pool, all in the same states. -/
structure Frozen (p q : Pool) : Prop where
  books : Books True q
  settings : q.settings = p.settings
  registry : q.registry = p.registry
  states : ∀ h, q.state? h = p.state? h
  total : q.census.total = p.census.total

theorem Frozen.immobile (hq : Frozen p q)
    (hp : ∀ h ∈ p.registry.handles, p.state? h = some .disabled) {s : Lifecycle}
    (hs : q.state? h = some s) (hlive : s ≠ .expired)
    (hkept : s = .inUse → q.settings.removeAfterGet = false) : s = .disabled := by
  have hmem := hq.books.enrolled.mem_handles hs hlive hkept
  rw [hq.registry] at hmem
  rw [hq.states, hp h hmem] at hs
  exact (Option.some.inj hs).symm

/-- Only acquisition could add anything to disabled proxies. -/
theorem frozenLaw (hc : c ≠ .acquisition)
    (hp : ∀ h ∈ p.registry.handles, p.state? h = some .disabled) : StrokeLaw c (Frozen p) where
  still hsettings hregistry hid hstate hcounts htotal hq :=
    ⟨hq.books.congr hsettings hregistry hid hstate hcounts htotal, hsettings.trans hq.settings,
      hregistry.trans hq.registry, fun h => (hstate h).trans (hq.states h),
      htotal.trans hq.total⟩
  transfer hs _ hlive hactive hkept hq := absurd (hq.immobile hp hs hlive hkept) hactive
  handOut hs hq := nomatch hq.immobile hp hs nofun nofun
  register hacquires := absurd hacquires hc
  recount hq := ⟨Books.recount hq.books.enrolled, hq.settings, hq.registry, hq.states,
    (total_recount hq.books).trans hq.total⟩

theorem receive_full (hfull : p.settings.maxPoolSize ≤ p.census.total) (pass : Pass)
    (answer : Except SourceFailure (List Endpoint)) :
    ∃ trace, (p.receive pass answer).2 = { p with trace } := by
  cases answer with
  | error failure => exact ⟨_, rfl⟩
  | ok list =>
    have hnone : (p.admitAll pass.added list).2 = p := by
      cases list with
      | nil => rfl
      | cons e rest => rw [admitAll, if_pos hfull]
    exact ⟨p.trace, hnone⟩

end Pool

namespace World

variable {settings : Settings} {sources : List String} {chooser : Chooser} {now : Instant}
  {w v : World} {a : Action}

/-- No step changes anything about the proxies of a pool that has died. -/
theorem Extinct.step (hw : w.Extinct) (he : v.Enabled a = true) (hv : w.pool.Frozen v.pool) :
    w.pool.Frozen (v.perform a).pool := by
  by_cases hc : v.concern a = .acquisition
  · obtain ⟨x, answer, state, rfl, hx⟩ := exists_supply_of_concern he hc
    have hfull : v.pool.settings.maxPoolSize ≤ v.pool.census.total := by
      rw [hv.settings, hv.total]
      exact Nat.le_of_eq hw.full.symm
    obtain ⟨_, hreceive⟩ := Pool.receive_full hfull state.pass answer
    obtain ⟨_, hproceed⟩ := Pool.proceed_frame (v.pool.receive state.pass answer).2
      (v.pool.receive state.pass answer).1
    have hb := hv.books
    rw [(perform_supply hx answer).1, Pool.answered_eq, hproceed, hreceive]
    exact ⟨hb.congr rfl rfl (fun _ => rfl) (fun _ => rfl) rfl rfl, hv.settings, hv.registry,
      hv.states, hv.total⟩
  · exact (Pool.frozenLaw hc hw.disabled).perform hv

theorem Extinct.forever (hw : w.Extinct) (hb : w.pool.Books True) (hv : w.Reaches v) :
    v.Extinct ∧ w.pool.Frozen v.pool := by
  have hfrozen : w.pool.Frozen v.pool :=
    hv.keep (P := fun v => w.pool.Frozen v.pool) (fun _ _ he hu => hw.step he hu)
      ⟨hb, rfl, rfl, fun _ => rfl, rfl⟩
  refine ⟨⟨?_, fun h hh => ?_⟩, hfrozen⟩
  · rw [hfrozen.total, hfrozen.settings]
    exact hw.full
  · rw [hfrozen.registry] at hh
    rw [hfrozen.states, hw.disabled h hh]

theorem not_extinct (hb : w.pool.Books True) (hroom : 1 ≤ w.pool.settings.maxPoolSize)
    (halive : ∀ h, w.pool.state? h ≠ some .disabled) : ¬w.Extinct := by
  intro hw
  have htotal := (hb.balanced trivial).total
  rw [hw.full] at htotal
  obtain ⟨s, hs, -⟩ := List.countP_pos_iff.mp (htotal ▸ hroom)
  obtain ⟨h, hh, -⟩ := List.mem_filterMap.mp hs
  exact halive h (hw.disabled h hh)

theorem Wasted.extinct (hw : Wasted settings settings.maxPoolSize w) : w.Extinct := by
  have hb := hw.underway.organized.books
  refine ⟨?_, fun h hh => ?_⟩
  · rw [hw.spent.total hb, hw.underway.configured]
  · exact (hw.spent h).trans (if_pos ((hw.spent.mem_handles hb.enrolled).mp hh))

end World

namespace Timesheet

variable {t : Timesheet} {w v : World}

/-- A timesheet follows a run that nobody attends, with nothing to enter in the ledger. -/
theorem exists_of_reachesUnattended (hv : w.ReachesUnattended v) :
    ∀ t : Timesheet, t.ledger.world = w → (∀ h, t.began h ≤ w.now) →
      ∃ u, t.Reaches u ∧ u.ledger.world = v ∧ u.ledger.reported = t.ledger.reported := by
  induction hv using Relation.ReflTransGen.head_induction_on with
  | refl => exact fun t ht _ => ⟨t, ⟨[], rfl⟩, ht, rfl⟩
  | head hstep _ ih =>
    rintro t rfl hpast
    obtain ⟨a, ha, he, rfl⟩ := hstep
    have hunreported : a.isReport = false := by
      cases a with
      | conclude => rfl
      | _ => exact ha
    have htimely : t.isTimely (.act a) = true := by
      cases a with
      | conclude i o =>
        have ho : o.validatedAt = t.ledger.world.now := ha
        simp only [isTimely, ho]
        split
        · exact decide_eq_true (hpast _)
        · rfl
      | _ => rfl
    have hs : t.step? (.act a) =
        some ⟨⟨t.ledger.world.perform a, t.ledger.reported⟩, t.beginnings (.act a)⟩ := by
      refine step?_eq_some.mpr ⟨htimely, ?_, rfl⟩
      rw [Ledger.step?, if_pos ⟨hunreported, he⟩]
    have honward : t.ledger.world.now ≤ (t.ledger.world.perform a).now :=
      (World.perform_onward t.ledger.world a).now
    obtain ⟨u, ⟨deeds, hrun⟩, hworld, hreported⟩ :=
      ih ⟨⟨t.ledger.world.perform a, t.ledger.reported⟩, t.beginnings (.act a)⟩ rfl fun h =>
        Nat.le_trans (beginnings_le hpast _ h) honward
    exact ⟨u, ⟨.act a :: deeds, by rw [run?, hs]; exact hrun⟩, hworld, hreported⟩

end Timesheet

/-- A pool that is full of disabled proxies stays so, whatever anybody does. If a proxy that
rests between as many failures as disable it gets too old for a probe meanwhile, nobody reports
on a proxy that is not his, and no outcome is older than its probe, then nothing is ever
disabled. If it does not get too old, some run without any report makes the pool die, only
because all probes fail. -/
theorem extinction_is_final_and_bounded_by_time_to_live {settings : Settings}
    (hroom : 1 ≤ settings.maxPoolSize) (sources : List String) (chooser : Chooser)
    (now : Instant) :
    (∀ {w v : World}, (World.opening settings sources chooser now []).Reaches w → w.Extinct →
      w.Reaches v → v.Extinct ∧ v.pool.registry = w.pool.registry ∧
        ∀ h, v.pool.state? h = w.pool.state? h) ∧
    (settings.proxyTtl.ns ≤ (settings.failureLimit - 1) * settings.cooldownDuration.ns →
      ∀ {t : Timesheet}, (Timesheet.opening settings sources chooser now).Reaches t →
        (∀ h, t.ledger.world.pool.state? h ≠ some .disabled) ∧ ¬t.ledger.world.Extinct) ∧
    (sources ≠ [] → settings.maxAvailableForValidation ≠ some 0 →
      (settings.failureLimit - 1) * (World.period settings .coolDown).ns < settings.proxyTtl.ns →
      ∃ t, (Timesheet.opening settings sources chooser now).Reaches t ∧ t.ledger.reported = [] ∧
        t.ledger.world.pool.running = true ∧ t.ledger.world.Extinct) := by
  refine ⟨fun hw hdead hv => ?_, fun hshort t ht => ?_, fun hsources hceiling hpace => ?_⟩
  · obtain ⟨hstill, hfrozen⟩ := hdead.forever (World.organized_of_reaches hw).books hv
    exact ⟨hstill, hfrozen.registry, hfrozen.states⟩
  · have halive : ∀ h, t.ledger.world.pool.state? h ≠ some .disabled := by
      intro h hs
      obtain ⟨r, hr, hstate⟩ := Pool.exists_record_of_state hs
      have hpaced := Timesheet.kept_of_reaches ht h r hr
      exact Nat.not_lt.mpr hshort (hpaced.disabled hstate)
    have hl := ht.ledger
    refine ⟨halive, World.not_extinct (World.organized_of_reaches hl.world).books ?_ halive⟩
    rw [hl.settings]
    exact hroom
  · obtain ⟨w, hw, hwasted⟩ :=
      World.exists_wasted hsources chooser now hceiling hpace settings.maxPoolSize (Nat.le_refl _)
    obtain ⟨t, ht, rfl, hreported⟩ := Timesheet.exists_of_reachesUnattended hw
      (.opening settings sources chooser now) rfl fun _ => Nat.le_refl now
    exact ⟨t, ht, hreported, hwasted.underway.running, hwasted.extinct⟩

/-- A pool of one proxy that lives for an hour can die, and then stays dead. If the proxy lives
for no more than two rests, the pool cannot die: after two failures the proxy expires. -/
theorem extinction_is_final_and_bounded_by_time_to_live_for_one_proxy :
    (∃ t, (Timesheet.opening { Settings.standard with maxPoolSize := 1 } ["s"] (.roundRobin 0)
        0).Reaches t ∧ t.ledger.world.Extinct ∧
      ∀ v, t.ledger.world.Reaches v → v.Extinct) ∧
    ∃ t, (Timesheet.opening
          { Settings.standard with maxPoolSize := 1, proxyTtl := .ofSeconds 120 } ["s"]
          (.roundRobin 0) 0).run?
        [.act .start, .act (.supplyPass 0 (.ok [.plain "a" 1 .http])), .act (.take 0),
          .act (.conclude 0 (.timeout 0 .zero)), .act (.advance (.ofSeconds 60)), .act (.tick 2),
          .act (.take 0), .act (.conclude 0 (.timeout 60000000000 .zero)),
          .act (.advance (.ofSeconds 60)), .act (.tick 2), .act (.take 0)] = some t ∧
      t.ledger.world.pool.state? 0 = some .expired ∧ t.ledger.world.pool.failureRun 0 = 2 ∧
      ¬t.ledger.world.Extinct := by
  constructor
  · have hroom : 1 ≤ { Settings.standard with maxPoolSize := 1 }.maxPoolSize := by decide
    obtain ⟨hfinal, -, hdies⟩ :=
      extinction_is_final_and_bounded_by_time_to_live hroom ["s"] (.roundRobin 0) 0
    obtain ⟨t, ht, -, -, hdead⟩ := hdies (by decide) (by decide) (by decide)
    exact ⟨t, ht, hdead, fun v hv => (hfinal ht.ledger.world hdead hv).1⟩
  · let settings : Settings :=
      { Settings.standard with maxPoolSize := 1, proxyTtl := .ofSeconds 120 }
    let deeds : List Deed :=
      [.act .start, .act (.supplyPass 0 (.ok [.plain "a" 1 .http])), .act (.take 0),
        .act (.conclude 0 (.timeout 0 .zero)), .act (.advance (.ofSeconds 60)), .act (.tick 2),
        .act (.take 0), .act (.conclude 0 (.timeout 60000000000 .zero)),
        .act (.advance (.ofSeconds 60)), .act (.tick 2), .act (.take 0)]
    have hroom : 1 ≤ settings.maxPoolSize := by decide
    have hrun : ((Timesheet.opening settings ["s"] (.roundRobin 0) 0).run? deeds).map
        (fun t => decide (t.ledger.world.pool.state? 0 = some .expired ∧
          t.ledger.world.pool.failureRun 0 = 2)) = some true := by
      decide +kernel
    obtain ⟨t, ht, hfacts⟩ := Option.map_eq_some_iff.mp hrun
    obtain ⟨hexpired, hfailures⟩ := of_decide_eq_true hfacts
    obtain ⟨-, hlives, -⟩ :=
      extinction_is_final_and_bounded_by_time_to_live hroom ["s"] (.roundRobin 0) 0
    exact ⟨t, ht, hexpired, hfailures, (hlives (by decide) ⟨deeds, ht⟩).2⟩

/-- Outcomes that are older than their probes take the rests away, and the same proxy is disabled
while it is young. -/
example : ((Ledger.opening { Settings.standard with maxPoolSize := 1, proxyTtl := .ofSeconds 120 }
    ["s"] (.roundRobin 0) 60000000000).run?
      [.act .start, .act (.supplyPass 0 (.ok [.plain "a" 1 .http])), .act (.take 0),
        .act (.conclude 0 (.timeout 0 .zero)), .act (.tick 2), .act (.take 0),
        .act (.conclude 0 (.timeout 0 .zero)), .act (.advance (.ofSeconds 60)), .act (.tick 2),
        .act (.take 0), .act (.conclude 0 (.timeout 0 .zero))]).map
    (fun l => l.world.pool.state? 0) = some (some .disabled) := by
  decide +kernel

end ProxyLease
