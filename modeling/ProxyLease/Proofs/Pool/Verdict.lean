import ProxyLease.Proofs.Pool.Inbox
import ProxyLease.Proofs.Pool.Service

/-!
# Verdicts on a proxy

The end of a probe and the report of a consumer are verdicts on one proxy. A good one
ends its failures in a row and leaves it available, or in use again if somebody waits. A
bad one adds a failure, after which the proxy rests, or is disabled once the limit is
reached. Whatever else a pool does neither adds a failure nor ends a row of them.
-/

namespace ProxyLease

namespace Statistics

variable {R : Type} [Scalar R]

theorem failureRun_recordValidation (s : Statistics R) (o : Outcome) :
    (s.recordValidation o).failureRun = if o.isSuccess then 0 else s.failureRun + 1 := by
  cases h : o.isSuccess <;> simp [recordValidation, mark, h]

theorem failureRun_recordUse (s : Statistics R) (now : Instant) (success : Bool)
    (elapsed : Option Duration) (verdict : Verdict) :
    (s.recordUse now success elapsed verdict).failureRun =
      if success then 0 else s.failureRun + 1 := by
  cases success <;> cases elapsed <;> simp [recordUse, mark]

theorem lastFailureAt_recordValidation (s : Statistics R) (o : Outcome) :
    (s.recordValidation o).lastFailureAt =
      if o.isSuccess then s.lastFailureAt else some o.validatedAt := by
  cases h : o.isSuccess <;> simp [recordValidation, mark, h]

theorem lastFailureAt_recordUse (s : Statistics R) (now : Instant) (success : Bool)
    (elapsed : Option Duration) (verdict : Verdict) :
    (s.recordUse now success elapsed verdict).lastFailureAt =
      if success then s.lastFailureAt else some now := by
  cases success <;> cases elapsed <;> simp [recordUse, mark]

theorem lastValidatedAt_recordValidation (s : Statistics R) (o : Outcome) :
    (s.recordValidation o).lastValidatedAt = some o.validatedAt := by
  cases h : o.isSuccess <;> simp [recordValidation, mark, h]

theorem lastValidatedAt_recordUse (s : Statistics R) (now : Instant) (success : Bool)
    (elapsed : Option Duration) (verdict : Verdict) :
    (s.recordUse now success elapsed verdict).lastValidatedAt = s.lastValidatedAt := by
  cases success <;> cases elapsed <;> simp [recordUse, mark]

end Statistics

/-- Whether a proxy can be in a state after some failures in a row, if it is disabled at a
limit. -/
def Lifecycle.Bears (limit : Nat) : Lifecycle → Nat → Prop
  | .available, run | .inUse, run => run = 0
  | .cooldown, run => 1 ≤ run ∧ run < limit
  | .disabled, run => run = limit
  | .pending, run | .validating, run | .expired, run => run < limit

/-- The proxy on which a stretch may end with a verdict. -/
def Concern.judged? : Concern → Option Handle
  | .verdict h | .use h => some h
  | _ => none

namespace Pool

variable {c : Concern} {p q r : Pool} {h k : Handle} {s t : Lifecycle}

def failureRun (p : Pool) (h : Handle) : Nat :=
  ((p.record? h).map (·.statistics.failureRun)).getD 0

/-- Every proxy is in a state that bears its failures. -/
def Tolerant (p : Pool) (limit : Nat) : Prop :=
  ∀ h s, p.state? h = some s → s.Bears limit (p.failureRun h)

theorem failureRun_eq (p : Pool) (h : Handle) :
    p.failureRun h = ((p.statistics? h).map (·.failureRun)).getD 0 := by
  simp [failureRun, statistics?, Function.comp_def]

theorem failureRun_congr (hstat : q.statistics? h = p.statistics? h) :
    q.failureRun h = p.failureRun h := by
  rw [failureRun_eq, failureRun_eq, hstat]

theorem failureRun_of_records (hrecords : q.records = p.records) (h : Handle) :
    q.failureRun h = p.failureRun h := by
  simp only [failureRun, record?, hrecords]

theorem state?_of_records (hrecords : q.records = p.records) (h : Handle) :
    q.state? h = p.state? h := by
  simp only [state?, record?, hrecords]

theorem failureRun_restat (hs : p.state? h = some s) {f : Statistics Float → Statistics Float}
    (next : Nat → Nat) (hf : ∀ a, (f a).failureRun = next a.failureRun) (k : Handle) :
    (p.restat h f).failureRun k = if k = h then next (p.failureRun h) else p.failureRun k := by
  split_ifs with hk
  · obtain ⟨r, hr, _⟩ := exists_record_of_state hs
    rw [hk, failureRun_eq, failureRun_eq, restat, statistics?_modifyRecord, statistics?, hr]
    simp [hf]
  · exact failureRun_congr (statistics?_restat f hk)

/-! ### Freeing -/

theorem statistics?_deliver {u : Ticket} {others : List Ticket}
    (hs : p.state? h = some .available) :
    (p.deliver u others h).statistics? k = p.statistics? k := by
  have hsent : ({ p with line := others }.setInbox u (.delivered h)).state? h =
      some .available := hs
  exact statistics?_handOut hsent

theorem state?_deliver_of_ne {u : Ticket} {others : List Ticket}
    (hs : p.state? h = some .available) (hk : k ≠ h) :
    (p.deliver u others h).state? k = p.state? k := by
  have hsent : ({ p with line := others }.setInbox u (.delivered h)).state? h =
      some .available := hs
  exact (state?_handOut hsent).trans (if_neg hk)

theorem statistics?_free (hs : p.state? h = some s) (hne : s ≠ .available) (k : Handle) :
    (p.free h s).statistics? k = p.statistics? k := by
  have hmoved : (p.transfer h s .available).statistics? k = p.statistics? k :=
    statistics?_transfer hs hne
  rcases free_cases hs hne with ⟨_, hf⟩ | ⟨u, others, _, ha, hf⟩
  · rw [hf]
    exact hmoved
  · rw [hf, statistics?_deliver ha]
    exact hmoved

theorem state?_free_of_ne (hs : p.state? h = some s) (hne : s ≠ .available) (hk : k ≠ h) :
    (p.free h s).state? k = p.state? k := by
  have hmoved : (p.transfer h s .available).state? k = p.state? k :=
    (state?_transfer hs hne).trans (if_neg hk)
  rcases free_cases hs hne with ⟨_, hf⟩ | ⟨u, others, _, ha, hf⟩
  · rw [hf]
    exact hmoved
  · rw [hf, state?_deliver_of_ne ha hk]
    exact hmoved

/-! ### Verdicts -/

theorem ne_failureState (hc : s ≠ .cooldown) (hd : s ≠ .disabled) (run max : Nat) :
    s ≠ failureState run max := by
  rcases failureState_eq run max with hf | hf
  · rw [hf]
    exact hc
  · rw [hf]
    exact hd

/-- A verdict on a proxy: a good one leaves it available or in use, and a bad one in the
state that its failures in a row lead to. Nothing happens to other proxies. -/
structure Judged (h : Handle) (good : Bool) (p q : Pool) : Prop where
  runs : ∀ k, q.failureRun k =
    if k = h then if good then 0 else p.failureRun h + 1 else p.failureRun k
  others : ∀ k, k ≠ h → q.state? k = p.state? k
  freed : good = true → q.state? h = some .available ∨ q.state? h = some .inUse
  punished : good = false → q.state? h =
    some (failureState (p.failureRun h + 1) p.settings.maxConsecutiveFailures)

/-- The verdict is noted first, and the proxy moves by it. -/
theorem judged_free (hs : r.state? h = some s) (hne : s ≠ .available)
    (hstate : ∀ k, r.state? k = p.state? k)
    (hruns : ∀ k, r.failureRun k = if k = h then 0 else p.failureRun k) :
    Judged h true p (r.free h s) where
  runs k := by
    rw [failureRun_congr (statistics?_free hs hne k), hruns]
    rfl
  others k hk := (state?_free_of_ne hs hne hk).trans (hstate k)
  freed _ := state?_free hs hne
  punished hg := nomatch hg

theorem judged_transfer (hs : r.state? h = some s) (hst : s ≠ t)
    (hstate : ∀ k, r.state? k = p.state? k)
    (hruns : ∀ k, r.failureRun k = if k = h then p.failureRun h + 1 else p.failureRun k)
    (ht : t = failureState (p.failureRun h + 1) p.settings.maxConsecutiveFailures) :
    Judged h false p (r.transfer h s t) where
  runs k := by
    rw [failureRun_congr (statistics?_transfer hs hst), hruns]
    rfl
  others k hk := by rw [state?_transfer hs hst, if_neg hk, hstate]
  freed hg := nomatch hg
  punished _ := by rw [state?_transfer hs hst, if_pos rfl, ht]

theorem warned_frame (p : Pool) (w : Prop) [Decidable w] (text : String) :
    ∃ trace, p.warned w text = { p with trace } := by
  unfold warned
  split
  · exact ⟨_, rfl⟩
  · exact ⟨p.trace, rfl⟩

theorem endProbe_of_validating (hs : p.state? h = some .validating) (o : Outcome) :
    ∃ r trace, r = { p.probed h o with trace } ∧
      p.endProbe h o = if o.isSuccess then r.free h .validating else r.transfer h .validating
        (failureState ((p.probed h o).failureRun h) p.settings.maxConsecutiveFailures) := by
  have hq : (p.probed h o).state? h = some .validating := (state?_restat _).trans hs
  obtain ⟨text, he⟩ := endProbe_eq (p := p) (h := h) (o := o) rfl rfl
  have ht : (p.probed h o).probeTarget h o = if o.isSuccess then .available else
      failureState ((p.probed h o).failureRun h) p.settings.maxConsecutiveFailures := rfl
  generalize (p.probed h o).probeTarget h o = t at he ht
  have hne : .validating ≠ t := by
    rw [ht]
    split_ifs
    · decide
    · exact ne_failureState (by decide) (by decide) _ _
  obtain ⟨moved, move, hm, hon⟩ := onShift_of_state hq hne _ _
  have hm' : ((p.probed h o).emit (.validated h o)).shiftFrom? h .validating t =
      some (moved.emit (.validated h o), move) := by
    rw [shiftFrom?_emit, hm]
    rfl
  obtain ⟨trace, hwarned⟩ :=
    warned_frame ((p.probed h o).emit (.validated h o)) (t = .disabled) (text moved)
  refine ⟨_, trace, hwarned, ?_⟩
  rw [he, hon, transfer_warned_eq hm', ht]
  cases hgood : o.isSuccess with
  | true => rfl
  | false =>
    have hrest := ne_failureState (s := .available) nofun nofun
      ((p.probed h o).failureRun h) p.settings.maxConsecutiveFailures
    simp [hrest.symm]

theorem endProbe_judged (hs : p.state? h = some .validating) (o : Outcome) :
    Judged h o.isSuccess p (p.endProbe h o) := by
  obtain ⟨r, trace, hr, he⟩ := endProbe_of_validating hs o
  have hrecords : r.records = (p.probed h o).records := by rw [hr]
  have hstate (k : Handle) : r.state? k = p.state? k :=
    (state?_of_records hrecords k).trans (state?_restat _)
  have hruns (k : Handle) : r.failureRun k =
      if k = h then if o.isSuccess then 0 else p.failureRun h + 1 else p.failureRun k := by
    rw [failureRun_of_records hrecords]
    exact failureRun_restat (p := { p with census := p.census.recordValidation p.now o }) hs
      (fun run => if o.isSuccess then 0 else run + 1)
      (fun a => a.failureRun_recordValidation o) k
  rw [he]
  cases hgood : o.isSuccess with
  | true =>
    simp only [hgood, if_true] at hruns
    exact judged_free ((hstate h).trans hs) (by decide) hstate hruns
  | false =>
    simp only [hgood, Bool.false_eq_true, if_false] at hruns
    have hrun : (p.probed h o).failureRun h = p.failureRun h + 1 := by
      rw [← failureRun_of_records hrecords, hruns, if_pos rfl]
    have hne := ne_failureState (s := .validating) (by decide) (by decide)
    exact judged_transfer ((hstate h).trans hs) (hne _ _) hstate hruns (by rw [hrun])

theorem reportSuccess_of_takesBack (hb : p.takesBack h) (elapsed : Duration) :
    p.reportSuccess h elapsed = (p.usedWell h elapsed).free h .inUse := by
  obtain ⟨moved, move, hshift, hon⟩ :=
    onShift_of_takesBack ((takesBack_usedWell p h elapsed).mpr hb)
      (show Lifecycle.inUse ≠ .available by decide) fun moved move => ((moved.publish move).offer h).2
  rw [free, transfer, hshift]
  exact hon

theorem reportSuccess_of_not_takesBack (hb : ¬p.takesBack h) (elapsed : Duration) :
    p.reportSuccess h elapsed = p.usedWell h elapsed := by
  rw [reportSuccess_eq, onShift_of_not_takesBack fun hn => hb ((takesBack_usedWell p h elapsed).mp hn)]

theorem reportFailure_of_takesBack (hb : p.takesBack h) (verdict : Verdict) :
    ∃ r trace, r = { p.usedBadly h verdict with trace } ∧
      p.reportFailure h verdict = r.transfer h .inUse
        (failureState ((p.usedBadly h verdict).failureRun h)
          p.settings.maxConsecutiveFailures) := by
  have hback := (takesBack_usedBadly p h verdict).mpr hb
  obtain ⟨t, htarget, text, he⟩ := reportFailure_eq p h verdict
  have ht : t = failureState ((p.usedBadly h verdict).failureRun h)
      p.settings.maxConsecutiveFailures := htarget
  have hne : .inUse ≠ t := by
    rw [ht]
    exact ne_failureState (by decide) (by decide) _ _
  obtain ⟨moved, move, hshift, hon⟩ := onShift_of_takesBack hback hne _
  obtain ⟨trace, hwarned⟩ := warned_frame (p.usedBadly h verdict) (t = .disabled) (text moved)
  refine ⟨_, trace, hwarned, ?_⟩
  rw [he, hon, transfer_warned_eq hshift, ht]

theorem reportFailure_of_not_takesBack (hb : ¬p.takesBack h) (verdict : Verdict) :
    p.reportFailure h verdict = p.usedBadly h verdict := by
  obtain ⟨t, -, text, he⟩ := reportFailure_eq p h verdict
  rw [he, onShift_of_not_takesBack fun hn => hb ((takesBack_usedBadly p h verdict).mp hn)]

theorem reportSuccess_judged (hb : p.takesBack h) (elapsed : Duration) :
    Judged h true p (p.reportSuccess h elapsed) := by
  have hstate := state?_usedWell p h elapsed
  have hback := (takesBack_usedWell p h elapsed).mpr hb
  rw [reportSuccess_of_takesBack hb]
  refine judged_free hback.2 (by decide) hstate fun k => ?_
  exact failureRun_restat (p := { p.emit (.used h true (some elapsed)) with
    census := p.census.recordUseTime p.now elapsed }) hb.2 (fun _ => 0)
    (fun a => a.failureRun_recordUse _ _ _ _) k

theorem reportFailure_judged (hb : p.takesBack h) (verdict : Verdict) :
    Judged h false p (p.reportFailure h verdict) := by
  have hruns (k : Handle) : (p.usedBadly h verdict).failureRun k =
      if k = h then p.failureRun h + 1 else p.failureRun k :=
    failureRun_restat (p := p.emit (.used h false none)) hb.2 (fun run => run + 1)
      (fun a => a.failureRun_recordUse _ _ _ _) k
  obtain ⟨r, trace, hr, he⟩ := reportFailure_of_takesBack hb verdict
  have hrecords : r.records = (p.usedBadly h verdict).records := by rw [hr]
  have hstate (k : Handle) : r.state? k = p.state? k :=
    (state?_of_records hrecords k).trans (state?_usedBadly p h verdict k)
  rw [he]
  refine judged_transfer ((hstate h).trans hb.2) ?_ hstate (fun k => ?_) ?_
  · exact ne_failureState (by decide) (by decide) _ _
  · rw [failureRun_of_records hrecords, hruns]
  · rw [hruns, if_pos rfl]

/-- A verdict keeps states and failures together, if there were fewer failures than the
limit before. -/
theorem Judged.tolerant {good : Bool} (hj : Judged h good p q) {limit : Nat}
    (hlimit : limit = max p.settings.maxConsecutiveFailures 1) (hp : p.Tolerant limit)
    (hrun : p.failureRun h < limit) : q.Tolerant limit := by
  intro k u hu
  rw [hj.runs]
  by_cases hk : k = h
  · rw [if_pos hk]
    rw [hk] at hu
    cases good with
    | true =>
      rcases hj.freed rfl with hs | hs <;> cases hu.symm.trans hs <;> rfl
    | false =>
      cases hu.symm.trans (hj.punished rfl)
      simp only [failureState, Bool.false_eq_true, if_false]
      split_ifs <;> simp only [Lifecycle.Bears] <;> omega
  · rw [if_neg hk]
    rw [hj.others k hk] at hu
    exact hp k u hu

/-! ### Everything else -/

/-- No failure is added or forgotten, and every proxy is in a state that bears its failures
if that was so before. -/
structure Steady (p q : Pool) : Prop where
  runs : ∀ h, q.failureRun h = p.failureRun h
  tolerant : ∀ limit, 0 < limit → p.Tolerant limit → q.Tolerant limit

namespace Steady

theorem trans (hpq : Steady p q) (hqr : Steady q r) : Steady p r where
  runs h := (hqr.runs h).trans (hpq.runs h)
  tolerant limit hlimit hp := hqr.tolerant limit hlimit (hpq.tolerant limit hlimit hp)

theorem of_records (hrecords : q.records = p.records) : Steady p q where
  runs := failureRun_of_records hrecords
  tolerant limit _ hp h s hs := by
    rw [failureRun_of_records hrecords]
    exact hp h s ((state?_of_records hrecords h).symm.trans hs)

theorem refl (p : Pool) : Steady p p := .of_records rfl

theorem of_move (hs : p.state? h = some s)
    (hbears : ∀ limit run, 0 < limit → s.Bears limit run → t.Bears limit run)
    (hstate : ∀ k, q.state? k = if k = h then some t else p.state? k)
    (hstat : ∀ k, q.statistics? k = p.statistics? k) : Steady p q where
  runs k := failureRun_congr (hstat k)
  tolerant limit hlimit hp k u hu := by
    rw [failureRun_congr (hstat k)]
    rw [hstate] at hu
    split_ifs at hu with hk
    · cases hu
      rw [hk]
      exact hbears limit _ hlimit (hp h s hs)
    · exact hp k u hu

end Steady

theorem steady_transfer (hs : p.state? h = some s) (hst : s ≠ t)
    (hbears : ∀ limit run, 0 < limit → s.Bears limit run → t.Bears limit run) :
    Steady p (p.transfer h s t) :=
  .of_move hs hbears (fun _ => state?_transfer hs hst) fun _ => statistics?_transfer hs hst

theorem steady_handOut (hs : p.state? h = some .available) : Steady p (p.handOut h) :=
  .of_move (t := .inUse) hs (fun _ _ _ hb => hb) (fun _ => state?_handOut hs)
    fun _ => statistics?_handOut hs

theorem steady_deliver {u : Ticket} {others : List Ticket} (hs : p.state? h = some .available) :
    Steady p (p.deliver u others h) := by
  have hsent : Steady p ({ p with line := others }.setInbox u (.delivered h)) := .of_records rfl
  exact hsent.trans (steady_handOut hs)

theorem steady_beginProbe (p : Pool) (h : Handle) : Steady p (p.beginProbe h).2 := by
  have hmoved (hs : p.state? h = some .pending) :
      Steady p (p.transfer h .pending .validating) :=
    steady_transfer hs nofun fun _ _ _ hb => hb
  rcases beginProbe_cases p h with ⟨_, he⟩ | ⟨hs, _, he⟩ | ⟨hs, _, he⟩
  · rw [he]
    exact .refl p
  · have hv : (p.transfer h .pending .validating).state? h = some .validating := by
      rw [state?_transfer hs (by decide), if_pos rfl]
    rw [he]
    exact (hmoved hs).trans (steady_transfer hv nofun fun _ _ _ hb => hb)
  · rw [he]
    exact (hmoved hs).trans (.of_records rfl)

theorem steady_register {e : Endpoint} (ha : p.admit? e = some q) : Steady p q := by
  have hruns (k : Handle) : q.failureRun k = p.failureRun k := by
    simp only [failureRun, record?_register ha]
    split_ifs with hk
    · simp [hk, Record.fresh, Statistics.empty]
    · rfl
  refine ⟨hruns, fun limit hlimit hp k s hs => ?_⟩
  rw [hruns]
  rw [state?_register ha] at hs
  split_ifs at hs with hk
  · cases hs
    simpa [hk, failureRun, Lifecycle.Bears] using hlimit
  · exact hp k s hs

theorem steady_requeue (hs : p.state? h = some s) (hr : Route s .pending) :
    Steady p (p.requeue h s) := by
  rw [requeue_eq hs hr.ne]
  refine (steady_transfer hs hr.ne fun limit run hlimit hb => ?_).trans (.of_records rfl)
  cases hr with
  | renew =>
    cases hb
    exact hlimit
  | recover => exact hb.2

theorem Change.steady (hc : Change c p q) (hquiet : c.judged? = none) : Steady p q := by
  cases hc with
  | remark | tally | ask | choose | trim | elapse | staff | launch => exact .of_records rfl
  | restat h f hc => rcases hc with rfl | rfl <;> cases hquiet
  | requeue h hs hr => exact steady_requeue hs hr
  | @begin h rest =>
    have hd : Steady p { p with queue := rest } := .of_records rfl
    exact hd.trans (steady_beginProbe _ h)
  | fail h hs hr hc =>
    subst hc
    cases hquiet
  | register e ha => exact steady_register ha
  | close =>
    obtain ⟨inboxes, he, _, _⟩ := hangUp_fold p.line { p with running := false, line := [] }
    rw [hangUpAll, he]
    exact .of_records rfl

theorem Changes.steady (hc : Changes c p q) (hquiet : c.judged? = none) : Steady p q :=
  hc.keep (P := Steady p) (fun hstep hs => hs.trans (hstep.steady hquiet)) (.refl p)

theorem Services.steady (hc : Services c p q) (hquiet : c.judged? = none) : Steady p q := by
  refine hc.keep (P := Steady p) (fun hstep hs => ?_) (.refl p)
  cases hstep with
  | change hc => exact hs.trans (hc.steady hquiet)
  | deliver h hl ha => exact hs.trans (steady_deliver ha)

theorem steady_leaveLine (p : Pool) (u : Ticket) : Steady p (p.leaveLine u) := by
  rw [leaveLine_eq]
  exact .of_records rfl

end Pool
end ProxyLease
