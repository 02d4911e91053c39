import ProxyLease.Proofs.Pool.Change

/-!
# Serving consumers

Proxies reach consumers in three ways: a request takes one that is available, a proxy
that becomes available goes to the line, and the line is looked after when somebody
joins it. Only a report brings a proxy back. Around these strokes lie changes that
concern no consumer.
-/

namespace ProxyLease.Pool

variable {c : Concern} {p q r : Pool} {h : Handle}

/-- A change, or a delivery to the first consumer in line who still waits. -/
inductive Service (c : Concern) : Pool → Pool → Prop
  | change {p q : Pool} (hc : Change c p q) : Service c p q
  | deliver (p : Pool) (h : Handle) {t : Ticket} {others : List Ticket}
      (hl : p.line.dropWhile (!p.isWaiting ·) = t :: others)
      (hs : p.state? h = some .available) : Service c p (p.deliver t others h)

def Services (c : Concern) : Pool → Pool → Prop := Relation.ReflTransGen (Service c)

theorem Services.refl (p : Pool) : Services c p p := Relation.ReflTransGen.refl

theorem Services.trans (hpq : Services c p q) (hqr : Services c q r) : Services c p r :=
  Relation.ReflTransGen.trans hpq hqr

theorem Service.services (h : Service c p q) : Services c p q := Relation.ReflTransGen.single h

theorem Services.keep {P : Pool → Prop} (step : ∀ {p q}, Service c p q → P p → P q)
    (h : Services c p q) (hp : P p) : P q := by
  induction h with
  | refl => exact hp
  | tail _ hc ih => exact step hc ih

/-! ### The line -/

theorem offer_cases (p : Pool) (h : Handle) :
    (p.line.dropWhile (!p.isWaiting ·) = [] ∧ p.offer h = (.nobody, p.trimmed)) ∨
    (p.state? h ≠ some .available ∧ p.offer h = (.taken, p.trimmed)) ∨
    ∃ t others, p.line.dropWhile (!p.isWaiting ·) = t :: others ∧
      p.state? h = some .available ∧ p.offer h = (.handed, p.deliver t others h) := by
  unfold offer
  split
  · next hl => exact .inl ⟨hl, by rw [trimmed, hl]⟩
  · next t others hl =>
    by_cases hs : p.state? h = some .available
    · refine .inr (.inr ⟨t, others, hl, hs, ?_⟩)
      have hs' : ({ p with line := others }.setInbox t (.delivered h)).state? h =
          some .available := hs
      rw [deliver, handOut, claim?_eq_some hs, claim?_eq_some hs']
      rfl
    · refine .inr (.inl ⟨hs, ?_⟩)
      rw [claim?_eq_none hs, trimmed, hl]

theorem offer_services (p : Pool) (h : Handle) : Services c p (p.offer h).2 := by
  rcases offer_cases p h with ⟨_, ho⟩ | ⟨_, ho⟩ | ⟨t, others, hl, hs, ho⟩
  · rw [ho]
    exact (Service.change (.trim p)).services
  · rw [ho]
    exact (Service.change (.trim p)).services
  · rw [ho]
    exact (Service.deliver p h hl hs).services

/-- A proxy that becomes available is delivered if anybody waits, and else stays so. -/
theorem free_cases {s : Lifecycle} (hs : p.state? h = some s) (hne : s ≠ .available) :
    (((p.transfer h s .available).line.dropWhile (!(p.transfer h s .available).isWaiting ·) = []) ∧
      p.free h s = (p.transfer h s .available).trimmed) ∨
    ∃ t others,
      (p.transfer h s .available).line.dropWhile (!(p.transfer h s .available).isWaiting ·) =
        t :: others ∧ (p.transfer h s .available).state? h = some .available ∧
      p.free h s = (p.transfer h s .available).deliver t others h := by
  have ha : (p.transfer h s .available).state? h = some .available := by
    rw [state?_transfer hs hne, if_pos rfl]
  rcases offer_cases (p.transfer h s .available) h with ⟨hl, ho⟩ | ⟨hn, _⟩ | ⟨t, others, hl, _, ho⟩
  · exact .inl ⟨hl, by rw [free, ho]⟩
  · exact absurd ha hn
  · exact .inr ⟨t, others, hl, ha, by rw [free, ho]⟩

theorem state?_deliver {t : Ticket} {others : List Ticket} (hs : p.state? h = some .available) :
    (p.deliver t others h).state? h = some .inUse := by
  have hsent : ({ p with line := others }.setInbox t (.delivered h)).state? h =
      some .available := hs
  rw [deliver, state?_handOut hsent, if_pos rfl]

theorem state?_free {s : Lifecycle} (hs : p.state? h = some s) (hne : s ≠ .available) :
    (p.free h s).state? h = some .available ∨ (p.free h s).state? h = some .inUse := by
  rcases free_cases hs hne with ⟨_, hf⟩ | ⟨t, others, _, ha, hf⟩
  · rw [hf]
    exact .inl ((state?_transfer hs hne).trans (if_pos rfl))
  · rw [hf]
    exact .inr (state?_deliver ha)

theorem dispatchWithin_services :
    ∀ (tries : Nat) (p : Pool), Services c p (p.dispatchWithin tries)
  | 0, p => .refl p
  | tries + 1, p => by
    rw [dispatchWithin]
    split
    · have hc : Services c p p.choose.2 := (Service.change (.choose p)).services
      split
      · next q hq => simpa [hq] using hc
      · next k q hq =>
        replace hc : Services c p q := by simpa [hq] using hc
        have ho := offer_services (c := c) q k
        split
        · next hr => exact hc.trans (by simpa [hr] using ho)
        · next hr =>
          have hoffered := hc.trans (by simpa [hr] using ho)
          exact hoffered.trans (dispatchWithin_services tries _)
    · exact .refl p

theorem dispatchAvailable_services (p : Pool) : Services c p p.dispatchAvailable :=
  dispatchWithin_services _ p

/-! ### Probes -/

theorem recordValidation_counts (c : Census Float) (now : Instant) (o : Outcome) :
    (c.recordValidation now o).counts = c.counts ∧ (c.recordValidation now o).total = c.total ∧
      (c.recordValidation now o).dealings = c.dealings := by
  unfold Census.recordValidation
  dsimp only
  split <;> exact ⟨rfl, rfl, rfl⟩

theorem probeTarget_route (p : Pool) (h : Handle) (o : Outcome) :
    p.probeTarget h o = .available ∨ Route .validating (p.probeTarget h o) := by
  unfold probeTarget failureState
  split_ifs
  · exact .inl rfl
  · exact .inr .disable
  · exact .inr .rest

/-- What the end of a probe comes to: some changes, after which the proxy is not validated
any more or becomes available. -/
def Probed (h : Handle) (p q : Pool) : Prop :=
  ∃ r, Changes (.verdict h) p r ∧
    (q.state? h ≠ some .validating ∧ q = r ∨
      r.state? h = some .validating ∧ q = r.free h .validating)

def probed (p : Pool) (h : Handle) (o : Outcome) : Pool :=
  { p with census := p.census.recordValidation p.now o }.restat h (·.recordValidation o)

theorem probed_changes (p : Pool) (h : Handle) (o : Outcome) :
    Changes (.verdict h) p (p.probed h o) := by
  obtain ⟨hcounts, htotal, hdealings⟩ := recordValidation_counts p.census p.now o
  exact (Change.tally p _ hcounts htotal hdealings).changes.trans
    (Change.restat _ h _ (.inl rfl)).changes

theorem endProbe_eq {o : Outcome} {t : Lifecycle} (hq : p.probed h o = q)
    (ht : q.probeTarget h o = t) : ∃ text : Pool → String,
    p.endProbe h o = q.onShift h .validating t (q.emit (.validated h o)) fun moved move =>
      if t = .available then
        ((((moved.emit (.validated h o)).warned (t = .disabled) (text moved)).publish
          move).offer h).2
      else ((moved.emit (.validated h o)).warned (t = .disabled) (text moved)).publish move := by
  subst hq ht
  exact ⟨_, rfl⟩

theorem endProbe_probed (p : Pool) (h : Handle) (o : Outcome) :
    Probed h p (p.endProbe h o) := by
  have hnoted := probed_changes p h o
  have hroute := probeTarget_route (p.probed h o) h o
  generalize hq : p.probed h o = q at hnoted hroute
  generalize ht : q.probeTarget h o = t at hroute
  obtain ⟨text, he⟩ := endProbe_eq hq ht
  have htold : Changes (.verdict h) p (q.emit (.validated h o)) := hnoted.trans (changes_emit _ rfl)
  by_cases hs : q.state? h = some .validating
  · have hne : .validating ≠ t := by
      rcases hroute with rfl | hr
      · decide
      · exact hr.ne
    obtain ⟨moved, move, hm, hon⟩ := onShift_of_state hs hne _ _
    have hm' : (q.emit (.validated h o)).shiftFrom? h .validating t =
        some (moved.emit (.validated h o), move) := by
      rw [shiftFrom?_emit, hm]
      rfl
    rw [he, hon, transfer_warned_eq hm']
    have hwarned := htold.trans (warned_changes _ (t = .disabled) (text moved))
    have hv := (state?_warned (p := q.emit (.validated h o)) (t = .disabled) (text moved)).trans hs
    rcases hroute with rfl | hr
    · exact ⟨_, hwarned, .inr ⟨hv, if_pos rfl⟩⟩
    · have hfail := (Change.fail (c := .verdict h) _ h hv hr rfl).changes
      rw [if_neg hr.target_ne_available]
      refine ⟨_, hwarned.trans hfail, .inl ⟨?_, rfl⟩⟩
      rw [state?_transfer hv hne, if_pos rfl]
      exact fun ht => hne (Option.some.inj ht).symm
  · rw [he, onShift_of_ne hs]
    exact ⟨_, htold, .inl ⟨hs, rfl⟩⟩

theorem state?_endProbe_ne (p : Pool) (h : Handle) (o : Outcome) :
    (p.endProbe h o).state? h ≠ some .validating := by
  obtain ⟨r, _, ⟨hn, _⟩ | ⟨hs, he⟩⟩ := endProbe_probed p h o
  · exact hn
  · rw [he]
    rcases state?_free hs nofun with ha | hu
    · rw [ha]
      nofun
    · rw [hu]
      nofun

/-! ### Requests -/

/-- Choosing until a proxy can be claimed either fails or ends with handing one out that
was available. -/
theorem takeWithin_changes : ∀ (tries : Nat) (p : Pool),
    ((p.takeWithin tries).1 = none ∧ Changes c p (p.takeWithin tries).2) ∨
    ∃ h q, (p.takeWithin tries).1 = some h ∧ Changes c p q ∧ q.state? h = some .available ∧
      (p.takeWithin tries).2 = q.handOut h
  | 0, p => .inl ⟨rfl, .refl p⟩
  | tries + 1, p => by
    have hc : Changes c p p.choose.2 := (Change.choose p).changes
    rw [takeWithin]
    split
    · next q hq => exact .inl ⟨rfl, by simpa [hq] using hc⟩
    · next h q hq =>
      replace hc : Changes c p q := by simpa [hq] using hc
      split
      · next claimed move hm =>
        have hs : q.state? h = some .available := by
          by_contra hs
          rw [claim?_eq_none hs] at hm
          cases hm
        exact .inr ⟨h, q, rfl, hc, hs, by rw [handOut, hm]⟩
      · rcases takeWithin_changes tries q with ⟨hn, hq'⟩ | ⟨k, r, hk, hr, hs, he⟩
        · exact .inl ⟨hn, hc.trans hq'⟩
        · exact .inr ⟨k, r, hk, hc.trans hr, hs, he⟩

/-! ### Reports -/

/-- A report takes a proxy in use out of the hands of its consumer. -/
inductive Return (h : Handle) : Pool → Pool → Prop
  | free (p : Pool) (hm : p.settings.removeAfterGet = false) (hs : p.state? h = some .inUse) :
      Return h p (p.free h .inUse)
  | punish (p : Pool) {t : Lifecycle} (ht : t = .cooldown ∨ t = .disabled)
      (hm : p.settings.removeAfterGet = false) (hs : p.state? h = some .inUse) :
      Return h p (p.transfer h .inUse t)

/-- Whether a report on a proxy takes it back. -/
def takesBack (p : Pool) (h : Handle) : Prop :=
  p.settings.removeAfterGet = false ∧ p.state? h = some .inUse

/-- What a report on a proxy comes to: some changes that move no proxy, and the return of
the proxy if the report takes it back. -/
def Reported (h : Handle) (p q : Pool) : Prop :=
  ∃ r, Changes (.use h) p r ∧ (∀ k, r.state? k = p.state? k) ∧
    (p.takesBack h ∧ Return h r q ∨ ¬p.takesBack h ∧ q = r)

def usedWell (p : Pool) (h : Handle) (elapsed : Duration) : Pool :=
  ({ p.emit (.used h true (some elapsed)) with
    census := p.census.recordUseTime p.now elapsed }).restat h
      (·.recordUse p.now true (some elapsed) .success)

def usedBadly (p : Pool) (h : Handle) (verdict : Verdict) : Pool :=
  (p.emit (.used h false none)).restat h (·.recordUse p.now false none verdict)

theorem usedWell_changes (p : Pool) (h : Handle) (elapsed : Duration) :
    Changes (.use h) p (p.usedWell h elapsed) := by
  have htold : Changes (.use h) p (p.emit (.used h true (some elapsed))) := changes_emit p rfl
  have htimed := (Change.tally (c := .use h) (p.emit (.used h true (some elapsed)))
    (p.census.recordUseTime p.now elapsed) rfl rfl rfl).changes
  exact (htold.trans htimed).trans (Change.restat _ h _ (.inr rfl)).changes

theorem usedBadly_changes (p : Pool) (h : Handle) (verdict : Verdict) :
    Changes (.use h) p (p.usedBadly h verdict) := by
  have htold : Changes (.use h) p (p.emit (.used h false none)) := changes_emit p rfl
  exact htold.trans (Change.restat _ h _ (.inr rfl)).changes

theorem state?_usedWell (p : Pool) (h : Handle) (elapsed : Duration) (k : Handle) :
    (p.usedWell h elapsed).state? k = p.state? k := state?_restat _

theorem state?_usedBadly (p : Pool) (h : Handle) (verdict : Verdict) (k : Handle) :
    (p.usedBadly h verdict).state? k = p.state? k := state?_restat _

theorem takesBack_usedWell (p : Pool) (h : Handle) (elapsed : Duration) :
    (p.usedWell h elapsed).takesBack h ↔ p.takesBack h := by
  rw [takesBack, state?_usedWell]
  exact Iff.rfl

theorem takesBack_usedBadly (p : Pool) (h : Handle) (verdict : Verdict) :
    (p.usedBadly h verdict).takesBack h ↔ p.takesBack h := by
  rw [takesBack, state?_usedBadly]
  exact Iff.rfl

theorem onShift_of_not_takesBack (hb : ¬p.takesBack h) (t : Lifecycle)
    (next : Pool → Move → Pool) :
    (if p.settings.removeAfterGet then p else p.onShift h .inUse t p next) = p := by
  split
  · rfl
  · next hm =>
    exact onShift_of_ne (fun hs => hb ⟨Bool.eq_false_iff.mpr hm, hs⟩) t p next

theorem onShift_of_takesBack (hb : p.takesBack h) {t : Lifecycle} (ht : .inUse ≠ t)
    (next : Pool → Move → Pool) : ∃ moved move, p.shiftFrom? h .inUse t = some (moved, move) ∧
      (if p.settings.removeAfterGet then p else p.onShift h .inUse t p next) = next moved move := by
  obtain ⟨moved, move, hm, hon⟩ := onShift_of_state hb.2 ht p next
  exact ⟨moved, move, hm, by rw [if_neg (by simp [hb.1]), hon]⟩

def failureTarget (p : Pool) (h : Handle) : Lifecycle :=
  failureState (((p.record? h).map (·.statistics.failureRun)).getD 0)
    p.settings.maxConsecutiveFailures

theorem reportSuccess_eq (p : Pool) (h : Handle) (elapsed : Duration) :
    p.reportSuccess h elapsed =
      if (p.usedWell h elapsed).settings.removeAfterGet then p.usedWell h elapsed
      else (p.usedWell h elapsed).onShift h .inUse .available (p.usedWell h elapsed)
        fun moved move => ((moved.publish move).offer h).2 := rfl

theorem reportFailure_eq (p : Pool) (h : Handle) (verdict : Verdict) :
    ∃ t, t = (p.usedBadly h verdict).failureTarget h ∧ ∃ text : Pool → String,
      p.reportFailure h verdict =
        if (p.usedBadly h verdict).settings.removeAfterGet then p.usedBadly h verdict
        else (p.usedBadly h verdict).onShift h .inUse t (p.usedBadly h verdict)
          fun moved move => (moved.warned (t = .disabled) (text moved)).publish move :=
  ⟨_, rfl, _, rfl⟩

theorem reportSuccess_reported (p : Pool) (h : Handle) (elapsed : Duration) :
    Reported h p (p.reportSuccess h elapsed) := by
  have hc := usedWell_changes p h elapsed
  have hs := state?_usedWell p h elapsed
  have hback := takesBack_usedWell p h elapsed
  refine ⟨p.usedWell h elapsed, hc, hs, ?_⟩
  by_cases hb : p.takesBack h
  · obtain ⟨hm, hu⟩ := hback.mpr hb
    have hr := Return.free (p.usedWell h elapsed) hm hu
    have hne : Lifecycle.inUse ≠ .available := by decide
    obtain ⟨moved, move, hshift, hon⟩ := onShift_of_takesBack (hback.mpr hb) hne _
    rw [free, transfer, hshift] at hr
    rw [reportSuccess_eq, hon]
    exact .inl ⟨hb, hr⟩
  · rw [reportSuccess_eq, onShift_of_not_takesBack (fun hn => hb (hback.mp hn))]
    exact .inr ⟨hb, rfl⟩

theorem failureState_eq (run max : Nat) :
    failureState run max = .cooldown ∨ failureState run max = .disabled := by
  unfold failureState
  split_ifs
  · exact .inr rfl
  · exact .inl rfl

theorem reportFailure_reported (p : Pool) (h : Handle) (verdict : Verdict) :
    Reported h p (p.reportFailure h verdict) := by
  have hc := usedBadly_changes p h verdict
  have hs := state?_usedBadly p h verdict
  have hback := takesBack_usedBadly p h verdict
  obtain ⟨t, htarget, text, he⟩ := reportFailure_eq p h verdict
  have ht : t = .cooldown ∨ t = .disabled := by
    rw [htarget]
    exact failureState_eq _ _
  by_cases hb : p.takesBack h
  · obtain ⟨hm, hu⟩ := hback.mpr hb
    have hne : .inUse ≠ t := by rcases ht with rfl | rfl <;> decide
    obtain ⟨moved, move, hshift, hon⟩ := onShift_of_takesBack (hback.mpr hb) hne _
    rw [he, hon, transfer_warned_eq hshift]
    refine ⟨_, hc.trans (warned_changes _ (t = .disabled) (text moved)),
      fun k => (state?_warned _ _).trans (hs k), .inl ⟨hb, .punish _ ht ?_ ?_⟩⟩
    · rw [settings_warned]
      exact hm
    · rw [state?_warned]
      exact hu
  · rw [he, onShift_of_not_takesBack (fun hn => hb (hback.mp hn))]
    exact ⟨p.usedBadly h verdict, hc, hs, .inr ⟨hb, rfl⟩⟩

end ProxyLease.Pool
