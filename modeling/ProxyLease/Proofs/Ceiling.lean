import ProxyLease.Proofs.Aside
import ProxyLease.Proofs.Queue

/-!
# The ceiling of admission

A pool with a ceiling does not queue a new proxy while as many are available as the
ceiling says. Nothing makes up for that later, however few are available then: the
proxy stands aside for good. No other pending proxy ever stands aside.
-/

namespace ProxyLease

namespace World

variable {w v : World} {a : Action} {h : Handle} {ceiling : Nat}

/-- A proxy is met in a step while the ceiling is reached. -/
structure SkippedBy (w : World) (a : Action) (ceiling : Nat) (h : Handle) : Prop where
  enabled : w.Enabled a = true
  unknown : w.pool.state? h = none
  met : (w.perform a).pool.state? h = some .pending
  full : ceiling ≤ (w.pool.proxiesIn .available).length

theorem admitsValidation_iff (ho : w.Organized)
    (hc : w.pool.settings.maxAvailableForValidation = some ceiling) :
    w.pool.admitsValidation = false ↔ ceiling ≤ (w.pool.proxiesIn .available).length := by
  have hcount := ho.books.count_eq (s := .available) nofun
  rw [Pool.admitsValidation, hc, hcount]
  simp

theorem aside_of_skipped (ho : w.Organized)
    (hc : w.pool.settings.maxAvailableForValidation = some ceiling)
    (hs : w.SkippedBy a ceiling h) : (w.perform a).pool.Aside h := by
  have hfull := (admitsValidation_iff ho hc).mpr hs.full
  have hconcern : w.concern a = .acquisition := by
    by_contra hn
    have hunknown := ((perform_beaten w a ho.addsUp).1.unknown_iff hn).mpr hs.unknown
    rw [hs.met] at hunknown
    cases hunknown
  refine ⟨hs.met, ?_⟩
  rw [(perform_changes hconcern).1.arrival.queue hfull]
  intro hh
  have hpending := ho.queued.pending h hh
  rw [hs.unknown] at hpending
  cases hpending

variable {settings : Settings} {sources : List String} {chooser : Chooser} {now : Instant}

theorem exists_skipped_of_aside (hc : settings.maxAvailableForValidation = some ceiling)
    (hv : (opening settings sources chooser now []).Reaches v) (ha : v.pool.Aside h) :
    ∃ w a, (opening settings sources chooser now []).Reaches w ∧ (w.perform a).Reaches v ∧
      w.SkippedBy a ceiling h := by
  -- The past of a run goes into the invariant: the step in which a proxy was skipped is
  -- named when it comes to stand aside, and kept from then on.
  refine hv.keep_reached (P := fun v => v.pool.Aside h → ∃ w a,
    (opening settings sources chooser now []).Reaches w ∧ (w.perform a).Reaches v ∧
      w.SkippedBy a ceiling h) (fun u b hu he hold hb => ?_) (fun ha => nomatch ha.pending) ha
  have ho := organized_of_reaches hu
  have hsettings : u.pool.settings.maxAvailableForValidation = some ceiling := by
    rw [settings_of_reaches hu, hc]
  rcases aside_of_perform u b ho.addsUp hb with ha | ⟨hnone, hfull⟩
  · obtain ⟨w, a, hw, hr, hs⟩ := hold ha
    exact ⟨w, a, hw, hr.trans (.step he), hs⟩
  · have hfull := (admitsValidation_iff ho hsettings).mp hfull
    exact ⟨u, b, hu, .refl _, he, hnone, hb.pending, hfull⟩

end World

/-! ### Catching up -/

/-- The pool runs, and fewer proxies are available than the ceiling says. -/
def World.HasRoom (w : World) (ceiling : Nat) : Prop :=
  w.pool.running = true ∧ (w.pool.proxiesIn .available).length < ceiling

/-- No pass of a loop is due or under way. -/
def World.IsCaughtUp (w : World) : Prop :=
  ∀ l ∈ w.loops.toList, l.cancelled = false → l.stage = .sleeping ∧ w.now < l.nextTick

instance (w : World) (ceiling : Nat) : Decidable (w.HasRoom ceiling) :=
  inferInstanceAs (Decidable (_ ∧ _))

instance (w : World) : Decidable w.IsCaughtUp :=
  inferInstanceAs (Decidable (∀ l ∈ w.loops.toList, _))

/-- The ceiling would only defer validation if every pending proxy were in the queue once
there was room for a full period of every loop and the passes due in that time are done. -/
def Settings.OnlyDefers (settings : Settings) (ceiling : Nat) : Prop :=
  ∀ {sources chooser now v u} {actions : List Action},
    (World.opening settings sources chooser now []).Reaches v → v.run? actions = some u →
    v.Meanwhile (fun w _ => w.HasRoom ceiling) actions → u.HasRoom ceiling →
    (∀ chore, v.now + (World.period settings chore).ns ≤ u.now) → u.IsCaughtUp →
    ∀ h ∈ u.pool.proxiesIn .pending, h ∈ u.pool.queue

/-- A ceiling of one does not only defer: a proxy that was met while another one was
available is not queued in the second after that one was taken. -/
theorem not_onlyDefers :
    ¬ Settings.OnlyDefers { Settings.standard with
        maxAvailableForValidation := some 1
        fetchInterval := .ofSeconds 1
        validationInterval := .ofSeconds 1
        cooldownDuration := .ofSeconds 1 } 1 := by
  intro hdefers
  let settings : Settings := { Settings.standard with
    maxAvailableForValidation := some 1
    fetchInterval := .ofSeconds 1
    validationInterval := .ofSeconds 1
    cooldownDuration := .ofSeconds 1 }
  let before : List Action :=
    [.start, .supplyPass 0 (.ok [.plain "a" 1 .http]), .tick 1, .tick 2, .take 0,
      .conclude 0 (.success 0 .zero 200), .fetch, .supplyPass 1 (.ok [.plain "b" 1 .http]), .tryGet]
  let after : List Action :=
    [.advance (.ofSeconds 1), .tick 0, .supplyLoop 0 (.ok []), .tick 1, .tick 2]
  have hrun : ((World.opening settings ["s"] (.roundRobin 0) 0 []).run? before).bind (fun v =>
      (v.run? after).map fun u => decide (v.Meanwhile (fun w _ => w.HasRoom 1) after ∧
        u.HasRoom 1 ∧ v.now = 0 ∧ u.now = 1000000000 ∧ u.IsCaughtUp ∧
        1 ∈ u.pool.proxiesIn .pending ∧ 1 ∉ u.pool.queue)) = some true := by
    decide +kernel
  obtain ⟨v, hv, hrest⟩ := Option.bind_eq_some_iff.mp hrun
  obtain ⟨u, hu, hfacts⟩ := Option.map_eq_some_iff.mp hrest
  obtain ⟨hmeanwhile, hroom, hbegin, hend, hcaught, hpending, hunqueued⟩ := of_decide_eq_true hfacts
  refine hunqueued (hdefers ⟨before, hv⟩ hu hmeanwhile hroom (fun chore => ?_) hcaught 1 hpending)
  rw [hbegin, hend]
  cases chore <;> decide

/-- With a ceiling and over an empty storage, a registered pending proxy is missing from
the queue exactly if it was met while the ceiling was reached, and then it stays
registered, pending and out of the queue whatever happens. -/
theorem skipped_proxies_stand_aside {settings : Settings} {sources : List String}
    {chooser : Chooser} {now : Instant} {ceiling : Nat}
    (hc : settings.maxAvailableForValidation = some ceiling) {v : World}
    (hv : (World.opening settings sources chooser now []).Reaches v) {h : Handle}
    (hh : h ∈ v.pool.proxiesIn .pending) :
    (h ∉ v.pool.queue ↔ ∃ w a, (World.opening settings sources chooser now []).Reaches w ∧
      (w.perform a).Reaches v ∧ w.SkippedBy a ceiling h) ∧
    (h ∉ v.pool.queue → ∀ u, v.Reaches u →
      h ∈ u.pool.proxiesIn .pending ∧ h ∉ u.pool.queue) := by
  have hpending := (Pool.mem_proxiesIn.mp hh).2
  refine ⟨⟨fun hn => World.exists_skipped_of_aside hc hv ⟨hpending, hn⟩, ?_⟩, ?_⟩
  · rintro ⟨w, a, hw, hr, hs⟩
    have ho := World.organized_of_reaches hw
    have hsettings : w.pool.settings.maxAvailableForValidation = some ceiling := by
      rw [World.settings_of_reaches hw, hc]
    have haside := World.aside_of_skipped ho hsettings hs
    exact (World.aside_forever (World.perform_addsUp w a ho.addsUp) haside hr).unqueued
  · intro hn u hu
    have haside := World.aside_forever (World.addsUp_of_reaches hv) ⟨hpending, hn⟩ hu
    have ho := World.organized_of_reaches (hv.trans hu)
    exact ⟨ho.books.enrolled.mem_proxiesIn haside.pending nofun nofun, haside.unqueued⟩

/-- A proxy that is met while another one is available, and both after a restart. -/
theorem skipped_proxies_stand_aside_after_restart :
    ∃ v, (World.opening { Settings.standard with maxAvailableForValidation := some 1 } ["s"]
        (.roundRobin 0) 0 []).run?
          [.start, .supplyPass 0 (.ok [.plain "a" 1 .http]), .take 0,
            .conclude 0 (.success 0 .zero 200), .fetch,
            .supplyPass 1 (.ok [.plain "b" 1 .http])] = some v ∧
      1 ∉ v.pool.queue ∧
      (∃ (w : World) (a : Action), (w.perform a).Reaches v ∧ w.SkippedBy a 1 1) ∧
      ∃ u, v.run? [.tryGet, .stop, .start] = some u ∧ u.pool.proxiesIn .available = [] ∧
        1 ∈ u.pool.proxiesIn .pending ∧ 1 ∉ u.pool.queue := by
  let settings : Settings := { Settings.standard with maxAvailableForValidation := some 1 }
  let before : List Action :=
    [.start, .supplyPass 0 (.ok [.plain "a" 1 .http]), .take 0,
      .conclude 0 (.success 0 .zero 200), .fetch, .supplyPass 1 (.ok [.plain "b" 1 .http])]
  have hrun : ((World.opening settings ["s"] (.roundRobin 0) 0 []).run? before).bind (fun v =>
      (v.run? [.tryGet, .stop, .start]).map fun u => decide (1 ∈ v.pool.proxiesIn .pending ∧
        1 ∉ v.pool.queue ∧ u.pool.proxiesIn .available = [])) = some true := by
    decide +kernel
  obtain ⟨v, hv, hrest⟩ := Option.bind_eq_some_iff.mp hrun
  obtain ⟨u, hu, hfacts⟩ := Option.map_eq_some_iff.mp hrest
  obtain ⟨hpending, hunqueued, hnobody⟩ := of_decide_eq_true hfacts
  obtain ⟨hskipped, hforever⟩ := skipped_proxies_stand_aside rfl ⟨before, hv⟩ hpending
  obtain ⟨w, a, _, hr, hs⟩ := hskipped.mp hunqueued
  exact ⟨v, hv, hunqueued, ⟨w, a, hr, hs⟩, u, hu, hnobody, hforever hunqueued u ⟨_, hu⟩⟩

end ProxyLease
