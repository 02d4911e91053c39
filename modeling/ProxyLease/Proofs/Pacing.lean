import ProxyLease.Proofs.Threshold
import ProxyLease.Proofs.World.Fate

/-!
# The pace of failures

A proxy rests between two failures in a row, and only a proxy that is young enough is probed.
So it takes a proxy some time to fail as often as it takes to be disabled, and a proxy that
gets too old in this time is never disabled. This depends on reports: a consumer who reports
on a proxy that it does not hold makes it fail without rest. It depends on dates as well: after
an outcome that is older than its probe a proxy seems to have rested before it did.
-/

namespace ProxyLease

/-- From its birth to some instant a proxy can have rested so often, and such a number of rests
leaves it young enough for a probe. -/
structure Settings.Paces (settings : Settings) (born : Instant) (rests : Nat) (now : Instant) :
    Prop where
  lived : born + rests * settings.cooldownDuration.ns ≤ now
  young : rests * settings.cooldownDuration.ns < settings.proxyTtl.ns

theorem Settings.Paces.later {settings : Settings} {born now now' : Instant} {rests : Nat}
    (hp : settings.Paces born rests now) (hnow : now ≤ now') : settings.Paces born rests now' :=
  ⟨Nat.le_trans hp.lived hnow, hp.young⟩

/-- The last failure of a proxy came after all the rests but the one that it takes now. -/
def Record.HasFailed (r : Record Float) (settings : Settings) (now : Instant) : Prop :=
  ∃ run last, r.statistics.failureRun = run + 1 ∧ r.statistics.lastFailureAt = some last ∧
    last ≤ now ∧ settings.Paces r.createdAt run last

/-- What the failures of a proxy in a row tell about its age, and about the time at which its last
probe began. -/
def Paced (settings : Settings) (began now : Instant) (r : Record Float) : Prop :=
  match r.state with
  | .pending =>
    r.createdAt + r.statistics.failureRun * settings.cooldownDuration.ns ≤ now
  | .validating => settings.Paces r.createdAt r.statistics.failureRun began
  | .available => r.statistics.failureRun = 0 ∧ settings.Paces r.createdAt 0 now
  | .inUse => settings.removeAfterGet = false →
      r.statistics.failureRun = 0 ∧ settings.Paces r.createdAt 0 now
  | .cooldown => r.HasFailed settings now
  | .disabled => settings.failureLimit ≤ r.statistics.failureRun ∧ r.HasFailed settings now
  | .expired => True

/-- Only holders report, probes begin at the times given, and no outcome is older than its
probe. -/
def Terms.dated (began : Handle → Instant) : Terms where
  late := False
  begins h now := began h = now
  ends h outcome := began h ≤ outcome.validatedAt

namespace Paced

variable {settings : Settings} {began now : Instant} {r : Record Float}

theorem judged {statistics : Statistics Float} {good : Bool} {last : Instant} (hlast : last ≤ now)
    (hpaces : settings.Paces r.createdAt r.statistics.failureRun last)
    (hrun : statistics.failureRun = if good then 0 else r.statistics.failureRun + 1)
    (hnoted : good = false → statistics.lastFailureAt = some last) :
    Paced settings began now (r.judged settings statistics good) := by
  cases good with
  | true =>
    have hborn : r.createdAt ≤ last := Nat.le_trans (Nat.le_add_right _ _) hpaces.lived
    refine ⟨hrun, ?_, ?_⟩
    · simpa [Record.judged] using Nat.le_trans hborn hlast
    · rw [Nat.zero_mul]
      exact Nat.zero_lt_of_lt hpaces.young
  | false =>
    have hfailed : Record.HasFailed (r.judged settings statistics false) settings now :=
      ⟨_, last, hrun, hnoted rfl, hlast, hpaces⟩
    have hpos : 1 ≤ statistics.failureRun := by
      rw [hrun]
      exact Nat.succ_le_succ (Nat.zero_le _)
    by_cases hlimit : settings.maxConsecutiveFailures ≤ statistics.failureRun
    · have hs : (r.judged settings statistics false).state = .disabled := if_pos hlimit
      rw [Paced, hs]
      exact ⟨Nat.max_le.mpr ⟨hlimit, hpos⟩, hfailed⟩
    · have hs : (r.judged settings statistics false).state = .cooldown := if_neg hlimit
      rw [Paced, hs]
      exact hfailed

/-- A proxy that has failed and rested has lived for one rest more. -/
theorem rested {last : Instant} (hr : r.HasFailed settings now)
    (hlast : r.statistics.lastFailureAt = some last)
    (hrested : settings.cooldownDuration ≤ .since last now) :
    r.createdAt + r.statistics.failureRun * settings.cooldownDuration.ns ≤ now := by
  obtain ⟨run, last', hrun, hlast', hle, hpaces⟩ := hr
  rw [hlast, Option.some_inj] at hlast'
  subst hlast'
  rw [hrun, Nat.succ_mul, ← Nat.add_assoc]
  exact Nat.le_trans (Nat.add_le_add_right hpaces.lived _) (Nat.add_le_of_le_sub' hle hrested)

theorem law (settings : Settings) (began : Handle → Instant) :
    RecordLaw (.dated began) settings fun h => Paced settings (began h) where
  fresh h e now burst := by
    show now + 0 * settings.cooldownDuration.ns ≤ now
    rw [Nat.zero_mul]
    exact Nat.le_refl _
  later := by
    intro h now now' r hnow hr
    have hfailed : r.HasFailed settings now → r.HasFailed settings now' :=
      fun ⟨run, last, hrun, hlast, hle, hpaces⟩ =>
        ⟨run, last, hrun, hlast, Nat.le_trans hle hnow, hpaces⟩
    unfold Paced at hr ⊢
    split at hr
    · exact Nat.le_trans hr hnow
    · exact hr
    · exact ⟨hr.1, hr.2.later hnow⟩
    · exact fun hmode => ⟨(hr hmode).1, (hr hmode).2.later hnow⟩
    · exact hfailed hr
    · exact ⟨hr.1, hfailed hr.2⟩
    · exact trivial
  fate := by
    intro h now r r' hfate hr
    cases hfate with
    | probe hs hyoung hbegins =>
      have hbegan : began h = now := hbegins
      simp only [Paced, hs] at hr ⊢
      rw [hbegan]
      exact ⟨hr, Nat.lt_of_le_of_lt (Nat.le_sub_of_add_le' hr) hyoung⟩
    | expire => exact trivial
    | judge o ho hends hs =>
      simp only [Paced, hs] at hr
      refine judged ho (hr.later hends) (Statistics.failureRun_recordValidation _ _) fun hgood => ?_
      rw [Statistics.lastFailureAt_recordValidation, hgood]
      rfl
    | handOut hs =>
      simp only [Paced, hs] at hr ⊢
      exact fun _ => hr
    | giveBack good elapsed verdict hs hmode =>
      simp only [Paced, hs] at hr
      obtain ⟨hzero, hpaces⟩ := hr hmode
      refine judged (Nat.le_refl now) (hzero ▸ hpaces) (Statistics.failureRun_recordUse _ _ _ _ _)
        fun hgood => ?_
      rw [Statistics.lastFailureAt_recordUse, hgood]
      rfl
    | note good elapsed verdict hlate =>
      obtain ⟨hmode, hs⟩ := hlate.resolve_left id
      simp only [Paced, hs]
      intro hkept
      rw [hmode] at hkept
      cases hkept
    | renew hs =>
      simp only [Paced, hs] at hr ⊢
      rw [hr.1]
      exact hr.2.lived
    | recover hs hlast hrested =>
      simp only [Paced, hs] at hr ⊢
      exact rested hr hlast hrested

/-- Who is disabled has rested after all failures but the last, and was probed after that. -/
theorem disabled (hr : Paced settings began now r) (hs : r.state = .disabled) :
    (settings.failureLimit - 1) * settings.cooldownDuration.ns < settings.proxyTtl.ns := by
  simp only [Paced, hs] at hr
  obtain ⟨hlimit, run, last, hrun, _, _, hpaces⟩ := hr
  have hrests : settings.failureLimit - 1 ≤ run := by omega
  exact Nat.lt_of_le_of_lt (Nat.mul_le_mul_right _ hrests) hpaces.young

end Paced

/-! ### Runs -/

namespace Ledger

variable {terms : Terms} {settings : Settings} {I : Handle → Instant → Record Float → Prop}
  {l m : Ledger} {d : Deed}

theorem obeys_step (hI : RecordLaw terms settings I) (hs : l.step? d = some m) (hl : l.Sound)
    (ho : l.world.Organized) (hsettings : l.world.pool.settings = settings)
    (hbegins : ∀ i h rest, d = .act (.take i) → l.world.pool.queue = h :: rest →
      terms.begins h l.world.now)
    (hends : ∀ i o h, d = .act (.conclude i o) → l.world.workerStage i = .probing h →
      terms.ends h o)
    (hobeys : l.world.pool.Obeys I) : m.world.pool.Obeys I := by
  cases d with
  | act a =>
    rw [step?] at hs
    split_ifs at hs with ha
    cases hs
    have hallows : RecordLaw.Allows terms l.world a := by
      refine ⟨fun h hc => ?_, fun h hc => ?_, fun i o h hc => hends i o h (congrArg _ hc)⟩
      · have hreport := World.isReport_of_concern hc
        rw [ha.1] at hreport
        cases hreport
      · obtain ⟨i, rest, rfl, hqueue⟩ := World.exists_take_of_concern hc
        exact hbegins i h rest rfl hqueue
    exact hI.perform ha.2 ho.posted hsettings hallows hobeys
  | report i account =>
    rw [step?] at hs
    split at hs
    · next h hi =>
      split_ifs at hs with hn
      cases hs
      have hheld : l.world.desk.Holds l.HasGivenBack (.consumer i) h := ⟨hi, fun hb => hn.1 hb.2⟩
      have hinUse : l.world.pool.state? h = some .inUse :=
        (hl.exclusive.inUse_iff h).mpr ⟨_, hheld⟩
      have hconcern : l.world.concern (account.about h) = .use h := by cases account <;> rfl
      have hallows : RecordLaw.Allows terms l.world (account.about h) := by
        refine ⟨fun k hc => ?_, fun k hc => ?_, fun j o k hc => ?_⟩
        · rw [hconcern] at hc
          cases hc
          exact .inr hinUse
        · rw [hconcern] at hc
          cases hc
        · cases account <;> cases hc
      exact hI.perform hn.2 ho.posted hsettings hallows hobeys
    · cases hs

theorem Reaches.world (hl : l.Reaches m) : l.world.Reaches m.world := by
  refine hl.keep (P := fun m => l.world.Reaches m.world) (fun hs hk => hk.trans ?_) (.refl _)
  obtain ⟨a, he, hm⟩ := performs_of_step hs
  rw [hm]
  exact .step he

end Ledger

/-- A ledger, and the times at which proxies were last taken for a probe. -/
structure Timesheet where
  ledger : Ledger
  began : Handle → Instant

namespace Timesheet

variable {settings : Settings} {sources : List String} {chooser : Chooser} {now : Instant}
  {t u : Timesheet} {d : Deed}

def opening (settings : Settings) (sources : List String) (chooser : Chooser) (now : Instant) :
    Timesheet := ⟨.opening settings sources chooser now, fun _ => now⟩

def isTimely (t : Timesheet) : Deed → Bool
  | .act (.conclude i outcome) =>
    match t.ledger.world.workerStage i with
    | .probing h => t.began h ≤ outcome.validatedAt
    | _ => true
  | _ => true

def beginnings (t : Timesheet) : Deed → Handle → Instant
  | .act (.take _) => fun h =>
    if t.ledger.world.pool.queue.head? = some h then t.ledger.world.now else t.began h
  | _ => t.began

def step? (t : Timesheet) (d : Deed) : Option Timesheet :=
  if t.isTimely d then (t.ledger.step? d).map fun l => ⟨l, t.beginnings d⟩ else none

def run? (t : Timesheet) : List Deed → Option Timesheet
  | [] => some t
  | d :: rest => (t.step? d).bind (·.run? rest)

def Reaches (t u : Timesheet) : Prop := ∃ deeds, t.run? deeds = some u

theorem beginnings_le (hpast : ∀ h, t.began h ≤ t.ledger.world.now) (d : Deed) (h : Handle) :
    t.beginnings d h ≤ t.ledger.world.now := by
  unfold beginnings
  split
  · split_ifs
    · exact Nat.le_refl _
    · exact hpast h
  · exact hpast h

theorem step?_eq_some : t.step? d = some u ↔
    t.isTimely d = true ∧ t.ledger.step? d = some u.ledger ∧ u.began = t.beginnings d := by
  unfold step?
  split_ifs with htimely
  · cases t.ledger.step? d with
    | none => simp
    | some l => cases u; simp [htimely, eq_comm]
  · simp [htimely]

theorem Reaches.keep {P : Timesheet → Prop} (hr : t.Reaches u)
    (hstep : ∀ {t d u}, t.step? d = some u → P t → P u) (ht : P t) : P u := by
  obtain ⟨deeds, hrun⟩ := hr
  induction deeds generalizing t with
  | nil =>
    cases hrun
    exact ht
  | cons d rest ih =>
    obtain ⟨v, hv, hrest⟩ := Option.bind_eq_some_iff.mp hrun
    exact ih (hstep hv ht) hrest

theorem Reaches.ledger (hr : t.Reaches u) : t.ledger.Reaches u.ledger := by
  obtain ⟨deeds, hrun⟩ := hr
  refine ⟨deeds, ?_⟩
  induction deeds generalizing t with
  | nil =>
    cases hrun
    rfl
  | cons d rest ih =>
    obtain ⟨v, hv, hrest⟩ := Option.bind_eq_some_iff.mp hrun
    rw [Ledger.run?, (step?_eq_some.mp hv).2.1, Option.bind_some]
    exact ih hrest

/-- The failures of every proxy are paced by the times at which its probes began. -/
def Kept (settings : Settings) (t : Timesheet) : Prop :=
  t.ledger.world.pool.Obeys fun h => Paced settings (t.began h)

/-- A proxy is pending when it is taken for a probe, and so nothing depends on its last one. -/
theorem obeys_beginnings (hq : t.ledger.world.pool.Queued) (ht : t.Kept settings) (d : Deed) :
    t.ledger.world.pool.Obeys fun h => Paced settings (t.beginnings d h) := by
  intro h r hr
  have hpaced := ht h r hr
  unfold beginnings
  split
  · split_ifs with hhead
    · have hpending := hq.pending h (List.mem_of_head? hhead)
      have hs : r.state = .pending := Pool.state_of_record hr hpending
      simp only [Paced, hs] at hpaced ⊢
      exact hpaced
    · exact hpaced
  · exact hpaced

theorem kept_step (hs : t.step? d = some u) (hl : t.ledger.Sound)
    (ho : t.ledger.world.Organized) (hsettings : t.ledger.world.pool.settings = settings)
    (ht : t.Kept settings) : u.Kept settings := by
  obtain ⟨htimely, hstep, hbegan⟩ := step?_eq_some.mp hs
  rw [Kept, hbegan]
  apply Ledger.obeys_step (Paced.law settings (t.beginnings d)) hstep hl ho hsettings
  · rintro i h rest rfl hqueue
    simp [Terms.dated, beginnings, hqueue]
  · rintro i o h rfl hprobing
    have hended : t.began h ≤ o.validatedAt := by simpa [isTimely, hprobing] using htimely
    exact hended
  · exact obeys_beginnings ho.queued ht d

theorem kept_of_reaches (ht : (opening settings sources chooser now).Reaches t) :
    t.Kept settings := by
  have hkept : t.ledger.Sound ∧ t.ledger.world.Organized ∧
      t.ledger.world.pool.settings = settings ∧ t.Kept settings := by
    refine ht.keep (P := fun t => t.ledger.Sound ∧ t.ledger.world.Organized ∧
      t.ledger.world.pool.settings = settings ∧ t.Kept settings) ?_
      ⟨Ledger.sound_opening settings sources chooser now,
        World.opening_organized settings sources chooser now, rfl, ?_⟩
    · rintro t d u hs ⟨hl, ho, hsettings, ht⟩
      have hstep := (step?_eq_some.mp hs).2.1
      exact ⟨Ledger.sound_step hstep hl, Ledger.organized_step hstep ho,
        (Ledger.settings_step hstep).trans hsettings, kept_step hs hl ho hsettings ht⟩
    · intro h r hr
      cases hr
  exact hkept.2.2.2

end Timesheet
end ProxyLease
