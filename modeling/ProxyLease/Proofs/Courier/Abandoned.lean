import ProxyLease.Proofs.Courier.Accounting
import ProxyLease.Proofs.Pool.Verdict

/-!
# Couriers whose callers go away

A courier whose caller goes away does nothing more. If it held a proxy then, taking this
proxy was the last thing it did: it never reports on it, and the proxy stays in use as long
as nobody else reports on it.
-/

namespace ProxyLease

/-! ### Proxies in use -/

variable {c : Concern} {h k : Handle}

namespace Pool

variable {p q : Pool}

theorem ne_of_inUse {s : Lifecycle} (hh : p.state? h = some .inUse) (hk : p.state? k = some s)
    (hs : s ≠ .inUse) : h ≠ k := by
  rintro rfl
  exact hs (Option.some.inj (hk.symm.trans hh))

theorem Services.inUse (hs : Services c p q) (hh : p.state? h = some .inUse) :
    q.state? h = some .inUse := by
  refine hs.keep (P := fun q => q.state? h = some .inUse) (fun hstep hq => ?_) hh
  cases hstep with
  | change hc => exact (hc.calm.inUse h).mpr hq
  | deliver k _ hk => rw [state?_deliver_of_ne hk (ne_of_inUse hq hk (by decide)), hq]

theorem Reported.inUse (hr : Reported k p q) (hne : h ≠ k) (hh : p.state? h = some .inUse) :
    q.state? h = some .inUse := by
  obtain ⟨r, _, hstate, ⟨_, hreturn⟩ | ⟨_, rfl⟩⟩ := hr
  · rw [← hstate] at hh
    cases hreturn with
    | free _ hk => rw [state?_free_of_ne hk (by decide) hne, hh]
    | @punish t ht _ hk =>
      have hmoved : Lifecycle.inUse ≠ t := by rcases ht with rfl | rfl <;> decide
      rw [state?_transfer hk hmoved, if_neg hne, hh]
  · rw [hstate, hh]

end Pool

theorem Act.inUse {d e : Desk} (ha : Act c d e) (hh : d.pool.state? h = some .inUse) :
    e.pool.state? h = some .inUse := by
  cases ha with
  | rest | turnAway => exact hh
  | free k hk _ =>
    rw [Pool.state?_free_of_ne hk (by decide) (Pool.ne_of_inUse hh hk (by decide)), hh]
  | take k hk => rw [Pool.state?_handOut hk, if_neg (Pool.ne_of_inUse hh hk (by decide)), hh]
  | join _ _ hq => exact hq.inUse hh
  | settle =>
    rw [Pool.leaveLine_eq]
    exact hh

theorem World.inUse_perform (w : World) {a : Action} (ha : w.concern a ≠ .use h)
    (hh : w.pool.state? h = some .inUse) : (w.perform a).pool.state? h = some .inUse := by
  rcases perform_cases w a with ⟨p, hc, hact⟩ | ⟨k, hk, hr, _⟩ | ⟨i, t, _, _, _, hd⟩
  · exact hact.inUse ((hc.calm.inUse h).mpr hh)
  · apply hr.inUse _ hh
    rintro rfl
    exact ha hk
  · rw [show (w.perform a).pool = w.pool.leaveLine t from congrArg Desk.pool hd,
      Pool.leaveLine_eq]
    exact hh

namespace CourierWorld

variable {m v x : CourierWorld} {i j : CourierId} {a : CourierAction} {parcel : Parcel}
  {failures : Nat} {holding : Option Handle}

def held? (m : CourierWorld) (i : CourierId) : Option Handle :=
  match m.couriers[i]? with
  | some ⟨_, _, .pacing h _⟩ | some ⟨_, _, .inFlight h _⟩ => some h
  | _ => none

/-- The proxy on which a step may report. -/
def subject? (m : CourierWorld) : CourierAction → Option Handle
  | .world (.reportSuccess h _) | .world (.reportFailure h _) => some h
  | .depart i | .arrive i _ => m.held? i
  | _ => none

theorem pool_collect (m : CourierWorld) (i : CourierId) (call : CallId) :
    (m.collect i call).pool = m.pool := by
  rw [collect]
  split <;> rfl

theorem inUse_attempt (hh : m.pool.state? h = some .inUse) :
    (m.attempt i).pool.state? h = some .inUse := by
  have hasked := m.world.inUse_perform (a := .get none) (by simp [World.concern]) hh
  rw [attempt]
  dsimp only
  rw [pool_collect]
  exact hasked

theorem inUse_fail {verdict : Verdict} {failure : CourierFailure} (hne : h ≠ k)
    (hh : m.pool.state? h = some .inUse) :
    (m.fail i k verdict failure).pool.state? h = some .inUse := by
  cases hc : m.couriers[i]? with
  | none =>
    rw [fail, hc]
    exact hh
  | some c =>
    have hnoted : (m.noteFailure i k verdict failure (c.failures + 1)).pool.state? h =
        some .inUse := by
      refine World.inUse_perform (a := .reportFailure k verdict) _ ?_ hh
      intro hk
      cases hk
      exact hne rfl
    rw [fail_eq hc]
    dsimp only
    split_ifs
    · exact hnoted
    · exact inUse_attempt hnoted

theorem inUse_settleCall {ending : CallId → Action}
    (hending : ∀ call, ending call = .resume call ∨ ending call = .expire call)
    (hh : m.pool.state? h = some .inUse) :
    (m.settleCall i ending).pool.state? h = some .inUse := by
  rw [settleCall]
  split
  · next call _ =>
    have hended : (m.world.perform (ending call)).pool.state? h = some .inUse := by
      rcases hending call with he | he
      · rw [he]
        exact m.world.inUse_perform (by simp [World.concern]) hh
      · rw [he]
        exact m.world.inUse_perform (by simp [World.concern]) hh
    rw [resume]
    split
    · rw [pool_collect]
      exact hended
    · exact hended
  · exact hh

theorem inUse_perform (ha : m.subject? a ≠ some h) (hh : m.pool.state? h = some .inUse) :
    (m.perform a).pool.state? h = some .inUse := by
  cases a with
  | world a =>
    apply m.world.inUse_perform _ hh
    cases a with
    | reportSuccess k | reportFailure k =>
      intro hk
      cases hk
      exact ha rfl
    | take | conclude =>
      simp only [World.concern]
      split <;> simp
    | _ => simp [World.concern]
  | send parcel =>
    rw [perform, send]
    dsimp only
    split_ifs
    · exact inUse_attempt hh
    · exact hh
  | resume i => exact inUse_settleCall (fun _ => .inl rfl) hh
  | expire i => exact inUse_settleCall (fun _ => .inr rfl) hh
  | depart i =>
    rw [perform]
    by_cases hpacing : ∃ parcel failures k since,
        m.couriers[i]? = some ⟨parcel, failures, .pacing k since⟩
    · obtain ⟨parcel, failures, k, since, hc⟩ := hpacing
      have hne : h ≠ k := by
        rintro rfl
        exact ha (by simp only [subject?, held?, hc])
      rw [depart_eq hc]
      split
      · exact hh
      · exact inUse_fail hne hh
    · rw [depart]
      split
      · next hc => exact absurd ⟨_, _, _, _, hc⟩ hpacing
      · exact hh
  | arrive i delivery =>
    rw [perform]
    by_cases hflying : ∃ parcel failures k since,
        m.couriers[i]? = some ⟨parcel, failures, .inFlight k since⟩
    · obtain ⟨parcel, failures, k, since, hc⟩ := hflying
      have hne : h ≠ k := by
        rintro rfl
        exact ha (by simp only [subject?, held?, hc])
      rw [arrive_eq hc]
      split
      · apply m.world.inUse_perform (a := .reportSuccess k _) _ hh
        intro hk
        cases hk
        exact hne rfl
      · exact inUse_fail hne hh
    · rw [arrive]
      split
      · next hc => exact absurd ⟨_, _, _, _, hc⟩ hflying
      · exact hh
  | abandon i =>
    rw [perform, abandon]
    split
    · next call _ => exact m.world.inUse_perform (a := .abandon call) (by simp [World.concern]) hh
    · exact hh
    · exact hh
    · exact hh

def Unreported (h : Handle) : CourierWorld → List CourierAction → Prop
  | _, [] => True
  | m, a :: rest => m.subject? a ≠ some h ∧ Unreported h (m.perform a) rest

instance Unreported.decidable (h : Handle) :
    ∀ (m : CourierWorld) (actions : List CourierAction), Decidable (Unreported h m actions)
  | _, [] => .isTrue trivial
  | m, a :: rest =>
    have := Unreported.decidable h (m.perform a) rest
    inferInstanceAs (Decidable (m.subject? a ≠ some h ∧ Unreported h (m.perform a) rest))

theorem inUse_until_reported {actions : List CourierAction} (hrun : m.run? actions = some v)
    (hu : Unreported h m actions) (hh : m.pool.state? h = some .inUse) :
    v.pool.state? h = some .inUse := by
  induction actions generalizing m with
  | nil =>
    cases hrun
    exact hh
  | cons a rest ih =>
    rw [run?] at hrun
    split_ifs at hrun
    exact ih hrun hu.2 (inUse_perform hu.1 hh)

/-! ### Going away -/

theorem actor_ne_of_abandoned (hc : m.couriers[i]? = some ⟨parcel, failures, .abandoned holding⟩)
    (he : m.Enabled a = true) : m.actor? a ≠ some i := by
  intro ha
  cases a with
  | world => cases ha
  | send =>
    cases ha
    rw [Array.getElem?_size] at hc
    cases hc
  | resume | expire | depart | arrive | abandon =>
    cases ha
    simp [Enabled, call?, hc] at he

theorem conducted_of_abandoned {actions : List CourierAction} (hrun : m.run? actions = some v)
    (hc : m.couriers[i]? = some ⟨parcel, failures, .abandoned holding⟩) :
    Conducted i m actions [] := by
  induction actions generalizing m with
  | nil => exact .rest m
  | cons a rest ih =>
    rw [run?] at hrun
    split_ifs at hrun with he
    have hactor := actor_ne_of_abandoned hc he
    exact .other hactor (ih hrun ((getElem?_perform hactor).trans hc))

theorem Conducted.append {first last : List CourierAction} {ds es : List Dealing}
    (hfirst : Conducted i m first ds) (hrun : m.run? first = some v)
    (hlast : Conducted i v last es) : Conducted i m (first ++ last) (ds ++ es) := by
  induction hfirst with
  | rest m =>
    cases hrun
    exact hlast
  | own ha hnow _ ih =>
    rw [run?] at hrun
    split_ifs at hrun
    rw [List.cons_append, List.append_assoc]
    exact .own ha hnow (ih hrun)
  | other ha _ ih =>
    rw [run?] at hrun
    split_ifs at hrun
    exact .other ha (ih hrun)

/-- A courier that holds a proxy has taken it, after attempts that failed, and has not
reported on it. -/
theorem Standing.of_held {retries : Nat} {c : Courier} {ds : List Dealing}
    {ys : List CourierResult} (hs : Standing retries c ds ys) (hc : m.couriers[i]? = some c)
    (hheld : m.held? i = some h) : ∃ (trials : List Trial) (call : CallId),
      trials.length ≤ retries ∧
      ds = trials.flatMap Trial.dealings ++ [.ask call, .take call h] := by
  obtain ⟨parcel, failures, stage⟩ := c
  rw [held?, hc] at hheld
  cases stage with
  | pacing | inFlight =>
    cases hheld
    obtain ⟨trials, call, ht, hds⟩ := hs
    exact ⟨trials, call, ht.counted ▸ ht.few, hds⟩
  | waiting | returned | abandoned => cases hheld

theorem abandon_of_held (hheld : m.held? i = some h) : ∃ parcel failures,
    (m.abandon i).world = m.world ∧
      (m.abandon i).couriers[i]? = some ⟨parcel, failures, .abandoned (some h)⟩ := by
  cases hc : m.couriers[i]? with
  | none =>
    rw [held?, hc] at hheld
    cases hheld
  | some c =>
    obtain ⟨parcel, failures, stage⟩ := c
    rw [held?, hc] at hheld
    cases stage with
    | pacing | inFlight =>
      cases hheld
      rw [abandon, hc]
      exact ⟨parcel, failures, rfl, getElem?_setStage hc _⟩
    | waiting | returned | abandoned => cases hheld

end CourierWorld

open CourierWorld in
/-- A courier whose caller goes away while it holds a proxy never reports on it: it asked,
took and reported for each attempt that failed before, and then it asked and took this proxy.
The proxy stays in use as long as nobody else reports on it. -/
theorem held_for_good_by_going_away (m : CourierWorld) (parcel : Parcel)
    (actions later : List CourierAction) {v x : CourierWorld} {h : Handle}
    (hrun : m.run? (.send parcel :: actions) = some v)
    (hheld : v.held? m.couriers.size = some h)
    (hlater : v.run? (.abandon m.couriers.size :: later) = some x) :
    (∃ (trials : List Trial) (call : CallId), trials.length ≤ m.pool.settings.retryCount ∧
      Conducted m.couriers.size m
        (.send parcel :: actions ++ .abandon m.couriers.size :: later)
        (trials.flatMap Trial.dealings ++ [.ask call, .take call h])) ∧
    (v.pool.state? h = some .inUse → Unreported h (v.abandon m.couriers.size) later →
      x.pool.state? h = some .inUse) := by
  obtain ⟨parcel', failures, hworld, hgone⟩ := abandon_of_held hheld
  have hrest : (m.perform (.send parcel)).run? actions = some v := by
    simpa [run?, Enabled] using hrun
  have hafter : (v.abandon m.couriers.size).run? later = some x := by
    rw [run?] at hlater
    split_ifs at hlater
    exact hlater
  constructor
  · obtain ⟨now, d, hconduct, hd, -, hs⟩ := send_proceeds m parcel
    have hsettings : (m.perform (.send parcel)).pool.settings.retryCount =
        m.pool.settings.retryCount := by
      rw [settings_perform]
    obtain ⟨new, e, hnew, he, -, hstands⟩ := run_stands hrest hd hs hsettings
    obtain ⟨trials, call, hfew, hds⟩ := hstands.of_held he hheld
    have hbefore : Conducted m.couriers.size m (.send parcel :: actions) (now ++ new) :=
      .own rfl hconduct hnew
    have hleft : Conducted m.couriers.size v (.abandon m.couriers.size :: later) [] := by
      have hquiet : Conduct v.world [] (v.perform (.abandon m.couriers.size)).world := by
        rw [perform, hworld]
        exact .rest v.world
      exact .own rfl hquiet (conducted_of_abandoned hafter hgone)
    refine ⟨trials, call, hfew, ?_⟩
    rw [← hds]
    simpa using hbefore.append hrun hleft
  · intro hh hu
    apply inUse_until_reported hafter hu
    rw [pool, hworld]
    exact hh

open CourierWorld in
/-- The caller goes away while the request is in flight. -/
theorem held_for_good_in_flight :
    ∃ m v, (ofWorld (.opening .standard ["s"] (.roundRobin 0) 0 [])).run?
        [.world .start, .world (.supplyPass 0 (.ok [.plain "a" 1 .http])), .world (.take 0),
          .world (.conclude 0 (.success 0 .zero 200))] = some m ∧
      m.run? [.send (.toHost "c"), .depart 0] = some v ∧
      ∀ later x, v.run? (.abandon 0 :: later) = some x → Unreported 0 (v.abandon 0) later →
        x.pool.state? 0 = some .inUse := by
  have hrun : ((ofWorld (.opening .standard ["s"] (.roundRobin 0) 0 [])).run?
        [.world .start, .world (.supplyPass 0 (.ok [.plain "a" 1 .http])), .world (.take 0),
          .world (.conclude 0 (.success 0 .zero 200))]).map
      (fun m => decide (m.couriers.size = 0 ∧
        (m.run? [.send (.toHost "c"), .depart 0]).map (fun v =>
          decide (v.held? 0 = some 0 ∧ v.pool.state? 0 = some .inUse)) = some true)) =
      some true := by
    decide +kernel
  obtain ⟨m, hm, hfacts⟩ := Option.map_eq_some_iff.mp hrun
  obtain ⟨hnobody, hsent⟩ := of_decide_eq_true hfacts
  obtain ⟨v, hv, hfacts⟩ := Option.map_eq_some_iff.mp hsent
  obtain ⟨hheld, hh⟩ := of_decide_eq_true hfacts
  refine ⟨m, v, hm, hv, fun later x hlater hu => ?_⟩
  obtain ⟨-, hkept⟩ := held_for_good_by_going_away m (.toHost "c") [.depart 0] later hv
    (by rw [hnobody]; exact hheld) (by rw [hnobody]; exact hlater)
  exact hkept hh (by rw [hnobody]; exact hu)

end ProxyLease
