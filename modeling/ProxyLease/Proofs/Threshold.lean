import ProxyLease.Proofs.Lease.Ledger
import ProxyLease.Proofs.Pool.Verdict
import ProxyLease.Proofs.Queue

/-!
# The failure threshold

One counter of failures in a row is shared by the probes of a proxy and by the uses that
its holders report. It says in which states the proxy can be: it is disabled at the limit
and not before, so the failure that disables a proxy is the one that completes the row.
-/

namespace ProxyLease

/-- The failures in a row after which a proxy is disabled. -/
def Settings.failureLimit (settings : Settings) : Nat := max settings.maxConsecutiveFailures 1

/-- The failures at the end of a list of verdicts, the latest of which stands last. -/
def failuresAtEnd (verdicts : List Bool) : Nat := (verdicts.reverse.takeWhile (!·)).length

theorem failuresAtEnd_concat (verdicts : List Bool) (good : Bool) :
    failuresAtEnd (verdicts ++ [good]) = if good then 0 else failuresAtEnd verdicts + 1 := by
  cases good <;> simp [failuresAtEnd]

example : failuresAtEnd [true, false, true, false, false] = 2 := by decide

namespace Pool

variable {p q : Pool} {h : Handle} {limit : Nat}

theorem failureRun_of_record {r : Record Float} (hr : p.record? h = some r) :
    p.failureRun h = r.statistics.failureRun := by
  rw [failureRun, hr]
  rfl

/-- The state of a proxy tells that its failures are below the limit. -/
theorem Tolerant.run_lt {s : Lifecycle} (hp : p.Tolerant limit) (hlimit : 0 < limit)
    (hs : p.state? h = some s) (hne : s ≠ .disabled) : p.failureRun h < limit := by
  have hbears := hp h s hs
  cases s <;> simp only [Lifecycle.Bears] at hbears <;> first | contradiction | omega

theorem Tolerant.disabled_iff (hp : p.Tolerant limit) (hlimit : 0 < limit) :
    p.state? h = some .disabled ↔ p.failureRun h = limit := by
  refine ⟨fun hs => hp h .disabled hs, fun hrun => ?_⟩
  cases hs : p.state? h with
  | none =>
    have hnone : p.record? h = none := by simpa [state?] using hs
    simp only [failureRun, hnone, Option.map_none, Option.getD_none] at hrun
    omega
  | some s =>
    by_contra hne
    have hlt := hp.run_lt hlimit hs fun he => hne (he ▸ rfl)
    omega

theorem Tolerant.of_record (hp : p.Tolerant limit) (hlimit : 0 < limit) {r : Record Float}
    (hr : p.record? h = some r) :
    (r.state = .available ∨ r.state = .inUse → r.statistics.failureRun = 0) ∧
    (r.state = .cooldown → 1 ≤ r.statistics.failureRun ∧ r.statistics.failureRun < limit) ∧
    (r.state = .disabled ↔ r.statistics.failureRun = limit) ∧
    (r.state = .pending ∨ r.state = .validating → r.statistics.failureRun < limit) := by
  have hstate : p.state? h = some r.state := by rw [state?, hr, Option.map_some]
  have hbears := hp h r.state hstate
  have hdisabled := hp.disabled_iff (h := h) hlimit
  rw [hstate, Option.some_inj] at hdisabled
  rw [failureRun_of_record hr] at hbears hdisabled
  refine ⟨?_, ?_, hdisabled, ?_⟩
  · rintro (hs | hs) <;> rwa [hs] at hbears
  · intro hs
    rwa [hs] at hbears
  · rintro (hs | hs) <;> rwa [hs] at hbears

end Pool

theorem Act.steady {c : Concern} {d e : Desk} (ha : Act c d e) (hquiet : c.judged? = none) :
    Pool.Steady d.pool e.pool := by
  cases ha with
  | rest | turnAway => exact .refl _
  | free h hs hc =>
    subst hc
    cases hquiet
  | take h hs => exact Pool.steady_handOut hs
  | join wait deadline hq hc =>
    have hjoined : Pool.Steady d.pool d.pool.joinLine.2 := .of_records rfl
    exact hjoined.trans (hq.steady hquiet)
  | settle => exact Pool.steady_leaveLine _ _

theorem World.perform_steady (w : World) {a : Action} (hquiet : (w.concern a).judged? = none) :
    Pool.Steady w.pool (w.perform a).pool := by
  rcases perform_cases w a with ⟨p, hc, hact⟩ | ⟨h, hconcern, _, _⟩ | ⟨i, t, _, _, _, hd⟩
  · exact (hc.steady hquiet).trans (hact.steady hquiet)
  · rw [hconcern] at hquiet
    cases hquiet
  · rw [show (w.perform a).pool = w.pool.leaveLine t from congrArg Desk.pool hd]
    exact Pool.steady_leaveLine _ _

def Account.isSuccess : Account → Bool
  | .success _ => true
  | .failure _ => false

namespace Ledger

variable {l m : Ledger} {d : Deed} {h k : Handle}

/-- The verdict on a proxy that a deed is: the probe of it ends, or its holder reports. -/
def verdict? (l : Ledger) (h : Handle) : Deed → Option Bool
  | .act (.conclude i outcome) =>
    if l.world.workerStage i = .probing h then some outcome.isSuccess else none
  | .act _ => none
  | .report i account =>
    if l.world.calls[i]? = some (.returned h) then some account.isSuccess else none

def verdicts (l : Ledger) (h : Handle) : List Deed → List Bool
  | [] => []
  | d :: rest => (l.verdict? h d).toList ++ ((l.step? d).map (·.verdicts h rest)).getD []

/-! ### Steps -/

theorem enabled_of_step {a : Action} (hs : l.step? (.act a) = some m) :
    l.world.Enabled a = true ∧ m.world = l.world.perform a := by
  rw [step?] at hs
  split_ifs at hs with ha
  cases hs
  exact ⟨ha.2, rfl⟩

theorem performs_of_step (hs : l.step? d = some m) :
    ∃ a, l.world.Enabled a = true ∧ m.world = l.world.perform a := by
  cases d with
  | act a => exact ⟨a, enabled_of_step hs⟩
  | report i account =>
    rw [step?] at hs
    split at hs
    · split_ifs at hs with hn
      cases hs
      exact ⟨_, hn.2, rfl⟩
    · cases hs

theorem organized_step (hs : l.step? d = some m) (ho : l.world.Organized) :
    m.world.Organized := by
  obtain ⟨a, he, hm⟩ := performs_of_step hs
  rw [hm]
  exact World.perform_organized he ho

theorem report_cases {i : CallId} {account : Account} (hl : l.Sound)
    (hmode : l.world.pool.settings.removeAfterGet = false)
    (hs : l.step? (.report i account) = some m) :
    ∃ h, l.world.calls[i]? = some (.returned h) ∧ l.world.pool.takesBack h ∧
      m.world = l.world.perform (account.about h) := by
  rw [step?] at hs
  split at hs
  · next h hi =>
    split_ifs at hs with hn
    cases hs
    have hheld : l.world.desk.Holds l.HasGivenBack (.consumer i) h := ⟨hi, fun hb => hn.1 hb.2⟩
    exact ⟨h, hi, ⟨hmode, (hl.exclusive.inUse_iff h).mpr ⟨_, hheld⟩⟩, rfl⟩
  · cases hs

/-- What keeps the counters right: who holds a proxy, who probes it, and the mode. -/
structure Watched (l : Ledger) : Prop where
  sound : l.Sound
  organized : l.world.Organized
  mode : l.world.pool.settings.removeAfterGet = false

theorem Watched.step (hw : l.Watched) (hs : l.step? d = some m) : m.Watched where
  sound := sound_step hs hw.sound
  organized := organized_step hs hw.organized
  mode := by rw [settings_step hs, hw.mode]

theorem watched_opening {settings : Settings} (sources : List String) (chooser : Chooser)
    (now : Instant) (hmode : settings.removeAfterGet = false) :
    (opening settings sources chooser now).Watched where
  sound := sound_opening settings sources chooser now
  organized := World.opening_organized settings sources chooser now
  mode := hmode

/-- A deed is a verdict on a proxy that is probed or in use, and on no other, or it is a
verdict on none. -/
theorem step_judged (hw : l.Watched) (hs : l.step? d = some m) :
    (∃ h s good, l.world.pool.state? h = some s ∧ (s = .validating ∨ s = .inUse) ∧
      Pool.Judged h good l.world.pool m.world.pool ∧
      ∀ k, l.verdict? k d = if k = h then some good else none) ∨
    Pool.Steady l.world.pool m.world.pool ∧ ∀ k, l.verdict? k d = none := by
  cases d with
  | act a =>
    obtain ⟨he, hm⟩ := enabled_of_step hs
    rw [hm]
    by_cases hc : ∃ i o, a = .conclude i o
    · obtain ⟨i, o, rfl⟩ := hc
      obtain ⟨h, stage, _, hprobing, _, hconclude⟩ := World.conclude_of_enabled he
      have hvalidating := hw.organized.posted.validating i h hprobing
      refine .inl ⟨h, _, o.isSuccess, hvalidating, .inl rfl, ?_, fun k => ?_⟩
      · rw [World.perform, hconclude]
        exact Pool.endProbe_judged hvalidating o
      · simp [verdict?, hprobing, eq_comm]
    · have hquiet : (l.world.concern a).judged? = none := by
        cases hconcern : l.world.concern a with
        | verdict h => exact absurd (World.exists_conclude_of_concern hconcern) hc
        | use h =>
          rw [step?] at hs
          split_ifs at hs with ha
          have hreport := World.isReport_of_concern hconcern
          rw [ha.1] at hreport
          cases hreport
        | _ => rfl
      refine .inr ⟨l.world.perform_steady hquiet, fun k => ?_⟩
      cases a with
      | conclude i o => exact absurd ⟨i, o, rfl⟩ hc
      | _ => rfl
  | report i account =>
    obtain ⟨h, hi, hback, hm⟩ := report_cases hw.sound hw.mode hs
    refine .inl ⟨h, _, account.isSuccess, hback.2, .inr rfl, ?_, fun k => ?_⟩
    · rw [hm]
      cases account with
      | success elapsed => exact Pool.reportSuccess_judged hback elapsed
      | failure verdict => exact Pool.reportFailure_judged hback verdict
    · simp [verdict?, hi, eq_comm]

/-! ### Runs -/

/-- The counter of every proxy is the length of its row of failures, and every proxy is in a
state that bears it. -/
structure Counted (l : Ledger) (limit : Nat) (past : Handle → List Bool) : Prop where
  runs : ∀ h, l.world.pool.failureRun h = failuresAtEnd (past h)
  tolerant : l.world.pool.Tolerant limit

theorem Counted.step {past : Handle → List Bool} (hw : l.Watched) (hs : l.step? d = some m)
    (hc : l.Counted l.world.pool.settings.failureLimit past) :
    m.Counted m.world.pool.settings.failureLimit fun h => past h ++ (l.verdict? h d).toList := by
  have hlimit : 0 < l.world.pool.settings.failureLimit := by
    rw [Settings.failureLimit]
    omega
  rw [settings_step hs]
  rcases step_judged hw hs with ⟨h, s, good, hstate, hbusy, hj, hverdict⟩ | ⟨hsteady, hnone⟩
  · have hrun : l.world.pool.failureRun h < l.world.pool.settings.failureLimit := by
      refine hc.tolerant.run_lt hlimit hstate ?_
      rcases hbusy with rfl | rfl <;> nofun
    refine ⟨fun k => ?_, hj.tolerant rfl hc.tolerant hrun⟩
    rw [hj.runs, hverdict]
    split_ifs with hk hgood
    · rw [Option.toList_some, failuresAtEnd_concat, if_pos hgood]
    · rw [Option.toList_some, failuresAtEnd_concat, if_neg hgood, hk, hc.runs]
    · rw [Option.toList_none, List.append_nil, hc.runs]
  · refine ⟨fun k => ?_, hsteady.tolerant _ hlimit hc.tolerant⟩
    rw [hsteady.runs, hnone, Option.toList_none, List.append_nil, hc.runs]

theorem Counted.run {past : Handle → List Bool} {deeds : List Deed} (hw : l.Watched)
    (hr : l.run? deeds = some m) (hc : l.Counted l.world.pool.settings.failureLimit past) :
    m.Watched ∧
      m.Counted m.world.pool.settings.failureLimit fun h => past h ++ l.verdicts h deeds := by
  induction deeds generalizing l past with
  | nil =>
    cases hr
    simpa [verdicts] using ⟨hw, hc⟩
  | cons d rest ih =>
    obtain ⟨k, hk, hr⟩ := Option.bind_eq_some_iff.mp hr
    simpa [verdicts, hk] using ih (hw.step hk) hr (hc.step hw hk)

/-- A proxy gets disabled by the failure that completes the row. -/
theorem Counted.disables_iff {past : Handle → List Bool} (hw : l.Watched)
    (hs : l.step? d = some m) (hc : l.Counted l.world.pool.settings.failureLimit past)
    (hn : l.world.pool.state? h ≠ some .disabled) :
    m.world.pool.state? h = some .disabled ↔ l.verdict? h d = some false ∧
      failuresAtEnd (past h) + 1 = l.world.pool.settings.failureLimit := by
  have hlimit : 0 < l.world.pool.settings.failureLimit := by
    rw [Settings.failureLimit]
    omega
  have hnext := hc.step hw hs
  rw [settings_step hs] at hnext
  have hold := hc.tolerant.disabled_iff (h := h) hlimit
  have hnew := hnext.tolerant.disabled_iff (h := h) hlimit
  rw [hc.runs] at hold
  rw [hnew, hnext.runs]
  match l.verdict? h d with
  | none => simpa using mt hold.mpr hn
  | some true => simp [failuresAtEnd_concat, hlimit.ne]
  | some false => simp [failuresAtEnd_concat]

/-- Whoever reports a failure had the proxy in use, so nothing had failed since its last
success. -/
theorem Counted.run_of_reported {past : Handle → List Bool} {limit : Nat} {i : CallId}
    {account : Account} {good : Bool} (hw : l.Watched) (hc : l.Counted limit past)
    (hs : l.step? (.report i account) = some m)
    (hverdict : l.verdict? h (.report i account) = some good) : failuresAtEnd (past h) = 0 := by
  obtain ⟨k, hi, hback, _⟩ := report_cases hw.sound hw.mode hs
  have hkh : k = h := by
    simp only [verdict?, hi] at hverdict
    split_ifs at hverdict with hkh
    exact Call.returned.inj (Option.some.inj hkh)
  subst hkh
  have hzero := hc.tolerant k .inUse hback.2
  rwa [Lifecycle.Bears, hc.runs] at hzero

theorem counted_opening (settings : Settings) (sources : List String) (chooser : Chooser)
    (now : Instant) :
    (opening settings sources chooser now).Counted settings.failureLimit fun _ => [] :=
  ⟨fun _ => rfl, nofun⟩

end Ledger

open Ledger in
/-- In a pool that takes proxies back and over an empty storage, where each hand-out is
reported at most once and by its holder, the failures in a row say in which states a proxy
can be, and it is disabled exactly at the limit. So a report disables a proxy only if one
failure is enough, and a proxy is disabled by exactly the failure that completes the row. -/
theorem disabled_exactly_at_the_limit {settings : Settings} (sources : List String)
    (chooser : Chooser) (now : Instant) (hmode : settings.removeAfterGet = false)
    {deeds : List Deed} {l : Ledger}
    (hl : (opening settings sources chooser now).run? deeds = some l) :
    (∀ h r, l.world.pool.record? h = some r →
      (r.state = .available ∨ r.state = .inUse → r.statistics.failureRun = 0) ∧
      (r.state = .cooldown →
        1 ≤ r.statistics.failureRun ∧ r.statistics.failureRun < settings.failureLimit) ∧
      (r.state = .disabled ↔ r.statistics.failureRun = settings.failureLimit) ∧
      (r.state = .pending ∨ r.state = .validating →
        r.statistics.failureRun < settings.failureLimit) ∧
      r.statistics.failureRun =
        failuresAtEnd ((opening settings sources chooser now).verdicts h deeds)) ∧
    ∀ d m h, l.step? d = some m → l.world.pool.state? h ≠ some .disabled →
      (m.world.pool.state? h = some .disabled ↔ l.verdict? h d = some false ∧
        failuresAtEnd ((opening settings sources chooser now).verdicts h deeds) + 1 =
          settings.failureLimit) ∧
      ((∃ i account, d = .report i account) → m.world.pool.state? h = some .disabled →
        settings.failureLimit = 1) := by
  obtain ⟨hw, hc⟩ := (counted_opening settings sources chooser now).run
    (watched_opening sources chooser now hmode) hl
  simp only [List.nil_append] at hc
  have hsettings : l.world.pool.settings = settings := Reaches.settings ⟨deeds, hl⟩
  rw [← hsettings]
  constructor
  · intro h r hr
    have hlimit : 0 < l.world.pool.settings.failureLimit := by
      rw [Settings.failureLimit]
      omega
    obtain ⟨hfree, hresting, hdisabled, hwaiting⟩ := hc.tolerant.of_record hlimit hr
    refine ⟨hfree, hresting, hdisabled, hwaiting, ?_⟩
    rw [← Pool.failureRun_of_record hr, hc.runs, hsettings]
  · intro d m h hs hn
    have hdisables := hc.disables_iff hw hs hn
    rw [hsettings] at hdisables ⊢
    refine ⟨hdisables, ?_⟩
    rintro ⟨i, account, rfl⟩ hm
    obtain ⟨hverdict, hrun⟩ := hdisables.mp hm
    have hzero := hc.run_of_reported hw hs hverdict
    omega

open Ledger in
/-- A proxy fails, recovers, fails in use and then fails a probe, with a limit of two: the
success in between begins a new row. -/
theorem disabled_by_the_second_failure_in_a_row :
    ∃ l m, (opening { Settings.standard with
          maxConsecutiveFailures := 2
          cooldownDuration := .zero } ["s"] (.roundRobin 0) 0).run?
        [.act .start, .act (.supplyPass 0 (.ok [.plain "a" 1 .http])), .act (.take 0),
          .act (.conclude 0 (.timeout 0 .zero)), .act (.tick 2), .act (.take 0),
          .act (.conclude 0 (.success 0 .zero 200)), .act .tryGet, .report 0 (.failure .timeout),
          .act (.advance (.ofMillis 1)), .act (.tick 2), .act (.take 0)] = some l ∧
      l.step? (.act (.conclude 0 (.timeout 1000000 .zero))) = some m ∧
      l.world.pool.state? 0 = some .validating ∧ m.world.pool.state? 0 = some .disabled := by
  let settings : Settings := { Settings.standard with
    maxConsecutiveFailures := 2
    cooldownDuration := .zero }
  let deeds : List Deed :=
    [.act .start, .act (.supplyPass 0 (.ok [.plain "a" 1 .http])), .act (.take 0),
      .act (.conclude 0 (.timeout 0 .zero)), .act (.tick 2), .act (.take 0),
      .act (.conclude 0 (.success 0 .zero 200)), .act .tryGet, .report 0 (.failure .timeout),
      .act (.advance (.ofMillis 1)), .act (.tick 2), .act (.take 0)]
  let last : Deed := .act (.conclude 0 (.timeout 1000000 .zero))
  have hrun : ((opening settings ["s"] (.roundRobin 0) 0).run? deeds).bind (fun l =>
      (l.step? last).map fun _ => decide (l.world.pool.state? 0 = some .validating ∧
        l.verdict? 0 last = some false)) = some true := by
    decide +kernel
  have hpast : (opening settings ["s"] (.roundRobin 0) 0).verdicts 0 deeds =
      [false, true, false] := by
    decide +kernel
  obtain ⟨l, hl, hrest⟩ := Option.bind_eq_some_iff.mp hrun
  obtain ⟨m, hm, hfacts⟩ := Option.map_eq_some_iff.mp hrest
  obtain ⟨hvalidating, hverdict⟩ := of_decide_eq_true hfacts
  obtain ⟨_, hdisabled⟩ := disabled_exactly_at_the_limit ["s"] (.roundRobin 0) 0 rfl hl
  refine ⟨l, m, hl, hm, hvalidating, ?_⟩
  refine ((hdisabled last m 0 hm (by rw [hvalidating]; nofun)).1).mpr ⟨hverdict, ?_⟩
  rw [hpast]
  decide

end ProxyLease
