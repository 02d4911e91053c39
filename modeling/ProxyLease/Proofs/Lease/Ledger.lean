import ProxyLease.Proofs.Lease.Holding
import ProxyLease.Proofs.World.Opening

/-!
# Leases

A ledger follows a world in which only the holder of a proxy reports on it, and at most
once. In a pool that takes proxies back, every proxy in use then has exactly one owner:
a call that returned it and has not reported, or the channel of a call that still waits.
In a pool that hands proxies out for good, no proxy is ever given to two. A proxy that
was sent to a waiting call is what this call returns, whatever ends the wait.

A caller who goes away is the exception. A proxy that was sent to it before stays in a
channel that nobody reads any more, and nothing else loses a proxy.
-/

namespace ProxyLease

/-- How a consumer says a use went. -/
inductive Account where
  | success (elapsed : Duration)
  | failure (verdict : Verdict)

def Account.about (h : Handle) : Account → Action
  | .success elapsed => .reportSuccess h elapsed
  | .failure verdict => .reportFailure h verdict

/-- A step of a world, or the report of a call on the proxy it returned. -/
inductive Deed where
  | act (action : Action)
  | report (call : CallId) (account : Account)

/-- A world and the calls that have reported. -/
structure Ledger where
  world : World
  reported : List CallId

namespace Ledger

/-- Performs a deed if it can happen: reports are made by calls that returned a proxy and
have not reported yet. -/
def step? (l : Ledger) : Deed → Option Ledger
  | .act a =>
    if a.isReport = false ∧ l.world.Enabled a = true then some ⟨l.world.perform a, l.reported⟩
    else none
  | .report i account =>
    match l.world.calls[i]? with
    | some (.returned h) =>
      if i ∉ l.reported ∧ l.world.Enabled (account.about h) = true then
        some ⟨l.world.perform (account.about h), i :: l.reported⟩
      else none
    | _ => none

def run? (l : Ledger) : List Deed → Option Ledger
  | [] => some l
  | d :: rest => (l.step? d).bind (·.run? rest)

def Reaches (l m : Ledger) : Prop := ∃ deeds, l.run? deeds = some m

/-- Reaches without any caller going away. -/
def ReachesPatiently (l m : Ledger) : Prop :=
  ∃ deeds, (∀ i, .act (.abandon i) ∉ deeds) ∧ l.run? deeds = some m

def opening (settings : Settings) (sources : List String) (chooser : Chooser) (now : Instant) :
    Ledger := ⟨.opening settings sources chooser now [], []⟩

/-- A call waits with a ticket. -/
def Awaited (l : Ledger) (t : Ticket) : Prop :=
  ∃ (i : CallId) (wait : Duration) (deadline : Instant),
    l.world.calls[i]? = some (.waiting t wait deadline)

/-- A call owns the proxy it returned until it reports, and the channel of a call that
still waits owns the proxy in it. -/
def Owns (l : Ledger) : Party → Handle → Prop
  | .consumer i, h => l.world.calls[i]? = some (.returned h) ∧ i ∉ l.reported
  | .channel t, h => l.world.pool.inbox t = .delivered h ∧ l.Awaited t

/-- A proxy was given to a call, or to the channel of one that still waits. -/
def GivenTo (l : Ledger) : Party → Handle → Prop
  | .consumer i, h => l.world.calls[i]? = some (.returned h)
  | .channel t, h => l.world.pool.inbox t = .delivered h ∧ l.Awaited t

/-- A proxy was sent to a caller who then went away. -/
def Lost (l : Ledger) (h : Handle) : Prop :=
  ∃ (i : CallId) (t : Ticket), l.world.calls[i]? = some (.abandoned t) ∧
    l.world.pool.inbox t = .delivered h

variable {l m : Ledger} {h : Handle} {i : CallId} {t : Ticket}

/-! ### Steps -/

theorem step_cases {d : Deed} (hs : l.step? d = some m) :
    (∃ a, d = .act a ∧ a.isReport = false ∧ m = ⟨l.world.perform a, l.reported⟩) ∨
    ∃ i h, l.world.calls[i]? = some (.returned h) ∧ i ∉ l.reported ∧
      Pool.Reported h l.world.pool m.world.pool ∧ m.world.calls = l.world.calls ∧
      m.reported = i :: l.reported := by
  cases d with
  | act a =>
    rw [step?] at hs
    split_ifs at hs with ha
    cases hs
    exact .inl ⟨a, rfl, ha.1, rfl⟩
  | report i account =>
    rw [step?] at hs
    split at hs
    · next h hi =>
      split_ifs at hs with hn
      cases hs
      refine .inr ⟨i, h, hi, hn.1, ?_, ?_, rfl⟩
      · cases account with
        | success elapsed => exact Pool.reportSuccess_reported _ _ _
        | failure verdict => exact Pool.reportFailure_reported _ _ _
      · cases account <;> rfl
    · cases hs

/-- Whether a call has reported and given its proxy back by that. -/
def HasGivenBack (l : Ledger) (i : CallId) : Prop :=
  l.world.pool.settings.removeAfterGet = false ∧ i ∈ l.reported

/-- Exactly one party holds each proxy in use, as long as it has not given it back. -/
def Sound (l : Ledger) : Prop := l.world.desk.Leased l.HasGivenBack

theorem sound_opening (settings : Settings) (sources : List String) (chooser : Chooser)
    (now : Instant) : (opening settings sources chooser now).Sound := by
  refine ⟨⟨nofun, nofun, nofun⟩, fun i hi => absurd hi.2 (List.not_mem_nil), ?_, ?_⟩
  · refine fun h => ⟨nofun, ?_⟩
    rintro ⟨_ | _, hb⟩
    · exact nomatch hb.1
    · exact nomatch hb.1
  · rintro (_ | _) _ _ hb
    · exact nomatch hb.1
    · exact nomatch hb.1

theorem sound_perform (hl : l.Sound) {a : Action} (ha : a.isReport = false) :
    Sound ⟨l.world.perform a, l.reported⟩ := by
  have hback : HasGivenBack ⟨l.world.perform a, l.reported⟩ = l.HasGivenBack := by
    funext i
    rw [HasGivenBack, HasGivenBack, World.settings_perform]
  rw [Sound, hback]
  by_cases hleave : a.isAbandonment = false
  · exact hl.stretch (World.perform_stretch l.world ha hleave)
  · cases a with
    | abandon i =>
      rcases World.abandon_cases l.world i with hd | ⟨t, wait, deadline, hi, hd⟩
      · exact hd ▸ hl
      · exact hd ▸ hl.abandon hi
    | _ => exact absurd rfl hleave

theorem sound_step {d : Deed} (hs : l.step? d = some m) (hl : l.Sound) : m.Sound := by
  rcases step_cases hs with ⟨a, _, ha, rfl⟩ | ⟨i, h, hi, hn, hr, hcalls, hreported⟩
  · exact sound_perform hl ha
  · have hdesk : m.world.desk = ⟨m.world.pool, l.world.desk.calls⟩ := by
      rw [World.desk, hcalls, World.desk]
    have hsettings := hr.settings
    have hheld : l.world.desk.Holds l.HasGivenBack (.consumer i) h := ⟨hi, fun hb => hn hb.2⟩
    have hinUse : l.world.pool.state? h = some .inUse :=
      (hl.exclusive.inUse_iff h).mpr ⟨_, hheld⟩
    obtain ⟨r, hc, _, ⟨hb, hreturn⟩ | ⟨hb, he⟩⟩ := hr
    · have hback : m.HasGivenBack = fun j => l.HasGivenBack j ∨ j = i := by
        funext j
        simp [HasGivenBack, hsettings, hb.1, hreported, or_comm]
      rw [Sound, hback, hdesk]
      exact (hl.calm hc.calm).returned hheld hreturn
    · have hmode : l.world.pool.settings.removeAfterGet = true := by
        by_contra hmode
        exact hb ⟨Bool.eq_false_iff.mpr hmode, hinUse⟩
      have hback : m.HasGivenBack = l.HasGivenBack := by
        funext j
        simp [HasGivenBack, hsettings, hmode]
      rw [Sound, hback, hdesk, he]
      exact hl.calm hc.calm

/-! ### Going away -/

def Patient (l : Ledger) : Prop :=
  ∀ (i : CallId) (t : Ticket), l.world.calls[i]? ≠ some (.abandoned t)

theorem not_abandonment {a : Action} (ha : ∀ i, Deed.act a ≠ .act (.abandon i)) :
    a.isAbandonment = false := by
  cases a with
  | abandon i => exact absurd rfl (ha i)
  | _ => rfl

theorem patient_step {d : Deed} (hs : l.step? d = some m) (hd : ∀ i, d ≠ .act (.abandon i))
    (hl : l.Patient) : m.Patient := by
  intro i t hi
  rcases step_cases hs with ⟨a, rfl, ha, rfl⟩ | ⟨j, h, _, _, _, hcalls, _⟩
  · obtain ⟨p, _, hact⟩ := World.perform_stretch l.world ha (not_abandonment hd)
    exact hl i t (hact.abandoned hi)
  · rw [hcalls] at hi
    exact hl i t hi

/-! ### What was sent -/

/-- A proxy was sent to a call, which still waits or has returned it. -/
def Promised (l : Ledger) (i : CallId) (t : Ticket) (wait : Duration) (deadline : Instant)
    (h : Handle) : Prop :=
  l.world.pool.inbox t = .delivered h ∧
    (l.world.calls[i]? = some (.waiting t wait deadline) ∨ l.world.calls[i]? = some (.returned h))

/-! ### Runs -/

theorem run_keep {P : Ledger → Prop} (allowed : Deed → Prop)
    (hstep : ∀ {l d m}, allowed d → l.step? d = some m → P l → P m) :
    ∀ {deeds : List Deed} {l m : Ledger}, (∀ d ∈ deeds, allowed d) → l.run? deeds = some m →
      P l → P m
  | [], _, _, _, hr, hl => by
    cases hr
    exact hl
  | d :: rest, l, m, hd, hr, hl => by
    obtain ⟨k, hk, hr⟩ := Option.bind_eq_some_iff.mp hr
    have hkeep := hstep (hd d List.mem_cons_self) hk hl
    exact run_keep allowed hstep (fun d hm => hd d (List.mem_cons_of_mem _ hm)) hr hkeep

theorem Reaches.keep {P : Ledger → Prop} (hr : l.Reaches m)
    (hstep : ∀ {l d m}, l.step? d = some m → P l → P m) (hl : P l) : P m := by
  obtain ⟨deeds, hrun⟩ := hr
  exact run_keep (fun _ => True) (fun _ => hstep) (fun _ _ => trivial) hrun hl

theorem ReachesPatiently.keep {P : Ledger → Prop} (hr : l.ReachesPatiently m)
    (hstep : ∀ {l d m}, (∀ i, d ≠ .act (.abandon i)) → l.step? d = some m → P l → P m)
    (hl : P l) : P m := by
  obtain ⟨deeds, hd, hrun⟩ := hr
  refine run_keep (fun d => ∀ i, d ≠ .act (.abandon i)) hstep (fun d hm i => ?_) hrun hl
  rintro rfl
  exact hd i hm

theorem ReachesPatiently.reaches (hr : l.ReachesPatiently m) : l.Reaches m := by
  obtain ⟨deeds, _, hrun⟩ := hr
  exact ⟨deeds, hrun⟩

/-! ### Owners -/

theorem settings_step {d : Deed} (hs : l.step? d = some m) :
    m.world.pool.settings = l.world.pool.settings := by
  rcases step_cases hs with ⟨a, _, _, rfl⟩ | ⟨i, h, _, _, hr, _, _⟩
  · exact World.settings_perform l.world a
  · exact hr.settings

theorem Reaches.settings (hr : l.Reaches m) : m.world.pool.settings = l.world.pool.settings :=
  hr.keep (P := fun k => k.world.pool.settings = l.world.pool.settings)
    (fun hs hk => (settings_step hs).trans hk) rfl

theorem kept_step {d : Deed} (hs : l.step? d = some m) : l.world.pool.Kept m.world.pool := by
  intro t h ht
  rcases step_cases hs with ⟨a, _, _, rfl⟩ | ⟨j, k, _, _, hr, _, _⟩
  · rcases World.perform_cases l.world a with ⟨p, hc, hact⟩ | ⟨k, _, hr, _⟩ | ⟨i, u, _, _, _, hd⟩
    · exact hact.kept t h (hc.calm.kept t h ht)
    · exact hr.kept t h ht
    · rw [show (l.world.perform a).pool = l.world.pool.leaveLine u from congrArg Desk.pool hd]
      exact Pool.kept_leaveLine _ _ t h ht
  · exact hr.kept t h ht

theorem promised_step {d : Deed} {wait : Duration} {deadline : Instant}
    (hd : ∀ i, d ≠ .act (.abandon i)) (hs : l.step? d = some m)
    (hl : l.Promised i t wait deadline h) : m.Promised i t wait deadline h := by
  refine ⟨kept_step hs t h hl.1, ?_⟩
  rcases step_cases hs with ⟨a, rfl, ha, rfl⟩ | ⟨j, k, _, _, hr, hcalls, _⟩
  · obtain ⟨p, hc, hact⟩ := World.perform_stretch l.world ha (not_abandonment hd)
    exact hact.promised (hc.calm.kept t h hl.1) hl.2
  · rw [hcalls]
    exact hl.2

theorem channel_held_iff : l.world.desk.Holds l.HasGivenBack (.channel t) h ↔
    l.Owns (.channel t) h ∨ l.world.pool.inbox t = .delivered h ∧
      ∃ i : CallId, l.world.calls[i]? = some (.abandoned t) := by
  simp only [Desk.Holds, Desk.seat?_eq_some, Owns, Awaited, exists_or, and_or_left]
  exact Iff.rfl

theorem consumer_held_iff (hmode : l.world.pool.settings.removeAfterGet = false) :
    l.world.desk.Holds l.HasGivenBack (.consumer i) h ↔ l.Owns (.consumer i) h := by
  simp [Desk.Holds, HasGivenBack, hmode, Owns, World.desk]

theorem held_of_owns {a : Party} (hmode : l.world.pool.settings.removeAfterGet = false)
    (ha : l.Owns a h) : l.world.desk.Holds l.HasGivenBack a h := by
  cases a with
  | consumer i => exact (consumer_held_iff hmode).mpr ha
  | channel t => exact channel_held_iff.mpr (.inl ha)

theorem owner_or_lost (hl : l.Sound) (hmode : l.world.pool.settings.removeAfterGet = false)
    (hs : l.world.pool.state? h = some .inUse) : (∃! a, l.Owns a h) ∨ l.Lost h := by
  obtain ⟨a, ha⟩ := (hl.exclusive.inUse_iff h).mp hs
  have hunique (b : Party) (hb : l.Owns b h) : b = a :=
    hl.exclusive.unique b a h (held_of_owns hmode hb) ha
  cases a with
  | consumer i => exact .inl ⟨_, (consumer_held_iff hmode).mp ha, hunique⟩
  | channel t =>
    rcases channel_held_iff.mp ha with ho | ⟨ht, i, hi⟩
    · exact .inl ⟨_, ho, hunique⟩
    · exact .inr ⟨i, t, hi, ht⟩

/-- Nobody owns a lost proxy, and it stays in use. -/
theorem Sound.of_lost (hl : l.Sound) (hmode : l.world.pool.settings.removeAfterGet = false)
    (hlost : l.Lost h) : l.world.pool.state? h = some .inUse ∧ ∀ a, ¬l.Owns a h := by
  obtain ⟨i, t, hi, ht⟩ := hlost
  have hheld : l.world.desk.Holds l.HasGivenBack (.channel t) h :=
    channel_held_iff.mpr (.inr ⟨ht, i, hi⟩)
  refine ⟨(hl.exclusive.inUse_iff h).mpr ⟨_, hheld⟩, ?_⟩
  intro a ha
  have hsame : a = .channel t := hl.exclusive.unique a _ h (held_of_owns hmode ha) hheld
  subst hsame
  obtain ⟨_, j, wait, deadline, hj⟩ := ha
  have hij : i = j :=
    hl.seated.single i j t (Desk.seat?_eq_some.mpr (.inr hi))
      (Desk.seat?_eq_some.mpr (.inl ⟨wait, deadline, hj⟩))
  rw [hij, hj] at hi
  cases hi

theorem lost_step {d : Deed} (hs : l.step? d = some m) (hl : l.Lost h) : m.Lost h := by
  obtain ⟨i, t, hi, ht⟩ := hl
  refine ⟨i, t, ?_, kept_step hs t h ht⟩
  rcases step_cases hs with ⟨a, _, _, rfl⟩ | ⟨j, k, _, _, _, hcalls, _⟩
  · rcases World.perform_cases l.world a with ⟨p, _, hact⟩ | ⟨_, _, _, hcalls⟩ | ⟨j, u, _, _, hj, hd⟩
    · exact hact.gone hi
    · rw [hcalls]
      exact hi
    · have hcalls : (l.world.perform a).calls = l.world.calls.setIfInBounds j (.abandoned u) :=
        congrArg Desk.calls hd
      rw [hcalls, getElem?_set_call hj, if_neg]
      · exact hi
      · rintro rfl
        cases hj.symm.trans hi
  · rw [hcalls]
    exact hi

end Ledger

open Ledger in
/-- Every proxy in use has exactly one owner in a pool that takes proxies back, no proxy is
given to two in a pool that does not, and what was sent to a waiting call is what the call
returns, whatever ends its wait. -/
theorem handed_out_exclusively (settings : Settings) (sources : List String) (chooser : Chooser)
    (now : Instant) {l : Ledger} (hl : (opening settings sources chooser now).ReachesPatiently l) :
    (settings.removeAfterGet = false →
      ∀ h, l.world.pool.state? h = some .inUse → ∃! a, l.Owns a h) ∧
    (settings.removeAfterGet = true → ∀ a b h, l.GivenTo a h → l.GivenTo b h → a = b) ∧
    ∀ t h, l.world.pool.inbox t = .delivered h →
      (∀ m, l.Reaches m → m.world.pool.inbox t = .delivered h) ∧
      ∀ i wait deadline, l.world.calls[i]? = some (.waiting t wait deadline) →
        l.world.Enabled (.resume i) = true ∧
        (∀ cause, (l.world.endCall i cause).calls[i]? = some (.returned h)) ∧
        ∀ m, l.ReachesPatiently m → m.world.calls[i]? = some (.waiting t wait deadline) ∨
          m.world.calls[i]? = some (.returned h) := by
  have hsound : l.Sound :=
    hl.reaches.keep sound_step (sound_opening settings sources chooser now)
  have hpatient : l.Patient := hl.keep (fun hd hs => patient_step hs hd) nofun
  have hsettings : l.world.pool.settings = settings := hl.reaches.settings
  refine ⟨?_, ?_, fun t h ht => ⟨?_, ?_⟩⟩
  · intro hmode h hs
    refine (owner_or_lost hsound (hsettings ▸ hmode) hs).resolve_right ?_
    rintro ⟨i, t, hi, _⟩
    exact hpatient i t hi
  · intro hmode a b h ha hb
    have hheld {c : Party} (hc : l.GivenTo c h) : l.world.desk.Holds l.HasGivenBack c h := by
      cases c with
      | consumer i => exact ⟨hc, fun hback => by
        rw [HasGivenBack, hsettings, hmode] at hback
        cases hback.1⟩
      | channel t => exact channel_held_iff.mpr (.inl hc)
    exact hsound.exclusive.unique a b h (hheld ha) (hheld hb)
  · intro m hm
    exact hm.keep (P := fun l => l.world.pool.inbox t = .delivered h)
      (fun hs hl => kept_step hs t h hl) ht
  · intro i wait deadline hi
    refine ⟨by simp [World.Enabled, hi, ht], endCall_of_delivered hi ht, ?_⟩
    intro m hm
    exact (hm.keep (P := fun l => l.Promised i t wait deadline h) promised_step ⟨ht, .inl hi⟩).2

open Ledger in
/-- A proxy is sent to a waiting call that is cancelled before it resumes, and one is taken
from a pool that does not take it back. -/
theorem handed_out_exclusively_in_both_modes :
    (∃ l, (opening .standard ["s"] (.roundRobin 0) 0).run?
        [.act .start, .act (.supplyPass 0 (.ok [.plain "a" 1 .http])), .act (.get none),
          .act (.take 0), .act (.conclude 0 (.success 0 .zero 200))] = some l ∧
      (∃! a, l.Owns a 0) ∧ (l.world.endCall 0 .cancelled).calls[0]? = some (.returned 0)) ∧
    ∃ l, (opening { Settings.standard with removeAfterGet := true } ["s"] (.roundRobin 0) 0).run?
        [.act .start, .act (.supplyPass 0 (.ok [.plain "a" 1 .http])), .act (.take 0),
          .act (.conclude 0 (.success 0 .zero 200)), .act .tryGet] = some l ∧
      ∀ a, l.GivenTo a 0 → a = .consumer 0 := by
  constructor
  · have hrun : ((opening .standard ["s"] (.roundRobin 0) 0).run?
        [.act .start, .act (.supplyPass 0 (.ok [.plain "a" 1 .http])), .act (.get none),
          .act (.take 0), .act (.conclude 0 (.success 0 .zero 200))]).map
        (fun l => decide (l.world.pool.state? 0 = some .inUse ∧
          l.world.pool.inbox 0 = .delivered 0 ∧
          l.world.calls[0]? = some (.waiting 0 (.ofSeconds 30) 30000000000))) = some true := by
      decide +kernel
    obtain ⟨l, hl, hfacts⟩ := Option.map_eq_some_iff.mp hrun
    obtain ⟨hs, ht, hi⟩ := of_decide_eq_true hfacts
    obtain ⟨howned, _, hsent⟩ :=
      handed_out_exclusively .standard ["s"] (.roundRobin 0) 0 ⟨_, by simp, hl⟩
    exact ⟨l, hl, howned rfl 0 hs, ((hsent 0 0 ht).2 0 _ _ hi).2.1 .cancelled⟩
  · have hrun : ((opening { Settings.standard with removeAfterGet := true } ["s"]
        (.roundRobin 0) 0).run?
        [.act .start, .act (.supplyPass 0 (.ok [.plain "a" 1 .http])), .act (.take 0),
          .act (.conclude 0 (.success 0 .zero 200)), .act .tryGet]).map
        (fun l => decide (l.world.calls[0]? = some (.returned 0))) = some true := by
      decide +kernel
    obtain ⟨l, hl, hfacts⟩ := Option.map_eq_some_iff.mp hrun
    have hgiven := of_decide_eq_true hfacts
    obtain ⟨_, honce, _⟩ := handed_out_exclusively { Settings.standard with removeAfterGet := true }
      ["s"] (.roundRobin 0) 0 ⟨_, by simp, hl⟩
    exact ⟨l, hl, fun a ha => honce rfl a (.consumer 0) 0 ha hgiven⟩

open Ledger in
/-- When callers may go away, a proxy in use has exactly one owner unless it was sent to a
caller who then went away. -/
theorem owned_or_lost (settings : Settings) (sources : List String) (chooser : Chooser)
    (now : Instant) (hmode : settings.removeAfterGet = false) {l : Ledger}
    (hl : (opening settings sources chooser now).Reaches l) {h : Handle}
    (hs : l.world.pool.state? h = some .inUse) : (∃! a, l.Owns a h) ∨ l.Lost h := by
  have hsound : l.Sound := hl.keep sound_step (sound_opening settings sources chooser now)
  have hsettings : l.world.pool.settings = settings := hl.settings
  exact owner_or_lost hsound (hsettings ▸ hmode) hs

open Ledger in
theorem lost_for_good (settings : Settings) (sources : List String) (chooser : Chooser)
    (now : Instant) (hmode : settings.removeAfterGet = false) {l m : Ledger}
    (hl : (opening settings sources chooser now).Reaches l) {h : Handle} (hlost : l.Lost h)
    (hm : l.Reaches m) : m.world.pool.state? h = some .inUse ∧ ∀ a, ¬m.Owns a h := by
  have hsound : l.Sound := hl.keep sound_step (sound_opening settings sources chooser now)
  have hsettings : m.world.pool.settings = settings := hm.settings.trans hl.settings
  exact (hm.keep sound_step hsound).of_lost (hsettings ▸ hmode) (hm.keep lost_step hlost)

open Ledger in
/-- A caller goes away after a proxy was sent to it and before it was resumed. -/
theorem lost_for_good_by_going_away :
    ∃ l, (opening .standard ["s"] (.roundRobin 0) 0).run?
      [.act .start, .act (.supplyPass 0 (.ok [.plain "a" 1 .http])), .act (.get none),
        .act (.take 0), .act (.conclude 0 (.success 0 .zero 200)), .act (.abandon 0)] = some l ∧
    ∀ m, l.Reaches m → m.world.pool.state? 0 = some .inUse ∧ ∀ a, ¬m.Owns a 0 := by
  have hrun : ((opening .standard ["s"] (.roundRobin 0) 0).run?
      [.act .start, .act (.supplyPass 0 (.ok [.plain "a" 1 .http])), .act (.get none),
        .act (.take 0), .act (.conclude 0 (.success 0 .zero 200)), .act (.abandon 0)]).map
      (fun l => decide (l.world.pool.inbox 0 = .delivered 0 ∧
        l.world.calls = #[.abandoned 0])) = some true := by
    decide +kernel
  obtain ⟨l, hl, hfacts⟩ := Option.map_eq_some_iff.mp hrun
  obtain ⟨ht, hcalls⟩ := of_decide_eq_true hfacts
  have hlost : l.Lost 0 := ⟨0, 0, by rw [hcalls]; rfl, ht⟩
  exact ⟨l, hl, fun m hm => lost_for_good .standard ["s"] (.roundRobin 0) 0 rfl ⟨_, hl⟩ hlost hm⟩

end ProxyLease
