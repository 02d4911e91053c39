import ProxyLease.Proofs.Courier.Conduct

/-!
# Accounts of couriers

A courier asks for a proxy, takes it, makes its attempt and reports on it before it asks
again. It returns the first answer it gets. As many failed attempts as there are retries
are followed by another one; if that fails too, the courier returns its failure. It also
returns when the pool has no proxy for it, with nothing left to report. A parcel that cannot
be sent twice comes back before the pool is asked for anything.
-/

namespace ProxyLease

/-- A failed attempt: the request for a proxy, what it brought and what went wrong. -/
structure Trial where
  call : CallId
  proxy : Handle
  failure : CourierFailure

namespace Trial

def dealings (t : Trial) : List Dealing :=
  [.ask t.call, .take t.call t.proxy, .report t.proxy (.failure t.failure.verdict)]

def outcome (t : Trial) : CourierResult := .error t.failure

end Trial

/-- What a courier did, what its attempts came to and what it returned, by its four ways to
return. -/
inductive Accounted (retries : Nat) (parcel : Parcel) :
    List Dealing → List CourierResult → CourierResult → Prop
  | refused (once : parcel.repeatable = false) :
      Accounted retries parcel [] [] (.error .notRepeatable)
  | delivered (again : parcel.repeatable = true) (trials : List Trial)
      (few : trials.length ≤ retries) (call : CallId) (proxy : Handle) (elapsed : Duration)
      (answer : Response) (accepted : answer.status ≠ 407) :
      Accounted retries parcel
        (trials.flatMap Trial.dealings ++
          [.ask call, .take call proxy, .report proxy (.success elapsed)])
        (trials.map Trial.outcome ++ [.ok answer]) (.ok answer)
  | exhausted (again : parcel.repeatable = true) (trials : List Trial)
      (full : trials.length = retries) (last : Trial) :
      Accounted retries parcel ((trials ++ [last]).flatMap Trial.dealings)
        ((trials ++ [last]).map Trial.outcome) (.error last.failure)
  | starved (again : parcel.repeatable = true) (trials : List Trial)
      (few : trials.length ≤ retries) (call : CallId) (failure : PoolFailure) :
      Accounted retries parcel
        (trials.flatMap Trial.dealings ++ [.ask call, .miss call failure])
        (trials.map Trial.outcome) (.error (.pool failure))

namespace Accounted

variable {retries : Nat} {parcel : Parcel} {ds : List Dealing} {ys : List CourierResult}
  {result : CourierResult}

/-- Every proxy that was taken was reported, once each and in the same order. -/
theorem reports_what_it_takes (ha : Accounted retries parcel ds ys result) :
    ds.filterMap Dealing.reported? = ds.filterMap Dealing.taken? := by
  have htrials (trials : List Trial) :
      (trials.flatMap Trial.dealings).filterMap Dealing.reported? =
        (trials.flatMap Trial.dealings).filterMap Dealing.taken? := by
    induction trials with
    | nil => rfl
    | cons t rest ih =>
      simp [Trial.dealings, List.filterMap_cons, Dealing.reported?, Dealing.taken?, ih]
  cases ha with
  | refused => rfl
  | delivered | starved =>
    simp [List.filterMap_cons, Dealing.reported?, Dealing.taken?, htrials]
  | exhausted => exact htrials _

theorem asks_le (ha : Accounted retries parcel ds ys result) :
    ds.countP Dealing.isAsk ≤ retries + 1 := by
  have htrials (trials : List Trial) :
      (trials.flatMap Trial.dealings).countP Dealing.isAsk = trials.length := by
    induction trials with
    | nil => rfl
    | cons t rest ih =>
      simp [Trial.dealings, List.countP_cons, Dealing.isAsk, ih]
  cases ha with
  | refused => simp
  | delivered | starved =>
    simp only [List.countP_append, htrials, List.countP_cons, List.countP_nil, Dealing.isAsk,
      if_true, Bool.false_eq_true, if_false]
    omega
  | exhausted =>
    rw [htrials, List.length_append, List.length_singleton]
    omega

end Accounted

/-! ### Requests -/

namespace World

variable {w : World} {call : CallId}

def Ended (w : World) (call : CallId) : Prop :=
  (∃ h, w.calls[call]? = some (.returned h)) ∨ ∃ f, w.calls[call]? = some (.refused f)

theorem ended_ofResult {result : Except PoolFailure Handle}
    (hc : w.calls[call]? = some (Call.ofResult result)) : w.Ended call := by
  cases result with
  | ok h => exact .inl ⟨h, hc⟩
  | error f => exact .inr ⟨f, hc⟩

theorem ended_or_waiting_of_get (w : World) (timeout : Option Duration) :
    (w.perform (.get timeout)).Ended w.calls.size ∨ ∃ t wait deadline,
      (w.perform (.get timeout)).calls[w.calls.size]? = some (.waiting t wait deadline) := by
  obtain ⟨begun, q, hbegun⟩ : ∃ begun q, w.pool.beginGet timeout = (begun, q) := ⟨_, _, rfl⟩
  rw [perform, get, hbegun]
  cases begun with
  | done result =>
    left
    apply ended_ofResult
    exact Array.getElem?_push_size
  | queued t wait =>
    right
    exact ⟨t, wait, _, Array.getElem?_push_size⟩

theorem ended_endCall {t : Ticket} {wait : Duration} {deadline : Instant} {cause : WaitEnd}
    (hw : w.calls[call]? = some (.waiting t wait deadline)) :
    (w.endCall call cause).Ended call := by
  have hlt : call < w.calls.size := (Array.getElem?_eq_some_iff.mp hw).1
  have hset : (w.endCall call cause).calls[call]? =
      some (Call.ofResult (w.pool.endGet t cause).1) := by
    rw [endCall, hw]
    exact Array.getElem?_setIfInBounds_self_of_lt hlt
  exact ended_ofResult hset

theorem settled_of_enabled {a : Action} (ha : a = .resume call ∨ a = .expire call)
    (hen : w.Enabled a = true) : Settled call w (w.perform a) ∧ (w.perform a).Ended call := by
  rcases ha with rfl | rfl
  · refine ⟨.resumed w, ?_⟩
    rw [Enabled] at hen
    split at hen
    · next hw => exact ended_endCall hw
    · cases hen
  · refine ⟨.expired w, ?_⟩
    rw [Enabled] at hen
    split at hen
    · next hw =>
      rw [perform, hw]
      exact ended_endCall hw
    · cases hen

end World

namespace CourierWorld

variable {m n v : CourierWorld} {i : CourierId} {c : Courier} {retries : Nat} {parcel : Parcel}
  {ds : List Dealing} {ys : List CourierResult} {trials : List Trial}

def result? (m : CourierWorld) (i : CourierId) : Option CourierResult :=
  match m.couriers[i]? with
  | some ⟨_, _, .returned result⟩ => some result
  | _ => none

/-! ### Where a courier stands -/

/-- All attempts so far failed, and another one is due or under way. -/
structure Tried (retries : Nat) (parcel : Parcel) (failures : Nat) (trials : List Trial)
    (ys : List CourierResult) : Prop where
  again : parcel.repeatable = true
  counted : trials.length = failures
  few : failures ≤ retries
  outcomes : ys = trials.map Trial.outcome

/-- Where a courier stands after some dealings and outcomes. -/
def Standing (retries : Nat) (c : Courier) (ds : List Dealing)
    (ys : List CourierResult) : Prop :=
  match c.stage with
  | .waiting call =>
    ∃ trials, Tried retries c.parcel c.failures trials ys ∧
      ds = trials.flatMap Trial.dealings ++ [.ask call]
  | .pacing h _ | .inFlight h _ =>
    ∃ trials call, Tried retries c.parcel c.failures trials ys ∧
      ds = trials.flatMap Trial.dealings ++ [.ask call, .take call h]
  | .returned result => Accounted retries c.parcel ds ys result
  | .abandoned _ => True

/-- By what it does from one world on, a courier comes to stand somewhere. -/
def Proceeds (retries : Nat) (i : CourierId) (parcel : Parcel) (w : World) (n : CourierWorld)
    (ds : List Dealing) (ys : List CourierResult) : Prop :=
  ∃ new c, Conduct w new n.world ∧ n.couriers[i]? = some c ∧ c.parcel = parcel ∧
    Standing retries c (ds ++ new) ys

namespace Proceeds

variable {w : World}

theorem ask (hp : Proceeds retries i parcel (w.perform (.get none)) n
    (ds ++ [.ask w.calls.size]) ys) : Proceeds retries i parcel w n ds ys := by
  obtain ⟨new, c, hconduct, hc, hparcel, hs⟩ := hp
  rw [List.append_assoc] at hs
  exact ⟨_, c, hconduct.ask, hc, hparcel, hs⟩

theorem report (h : Handle) (account : Account)
    (hp : Proceeds retries i parcel (w.perform (account.about h)) n
      (ds ++ [.report h account]) ys) : Proceeds retries i parcel w n ds ys := by
  obtain ⟨new, c, hconduct, hc, hparcel, hs⟩ := hp
  rw [List.append_assoc] at hs
  exact ⟨_, c, hconduct.report, hc, hparcel, hs⟩

theorem remark (level : LogLevel) (text : String)
    (hp : Proceeds retries i parcel (w.mapPool (·.note level text)) n ds ys) :
    Proceeds retries i parcel w n ds ys := by
  obtain ⟨new, c, hconduct, hc, hparcel, hs⟩ := hp
  exact ⟨new, c, hconduct.remark level text, hc, hparcel, hs⟩

theorem quiet {a : CourierAction} (hp : Proceeds retries i parcel w n ds ys)
    (ha : m.outcome? a = none) :
    Proceeds retries i parcel w n ds (ys ++ (m.outcome? a).toList) := by
  rwa [ha, Option.toList_none, List.append_nil]

end Proceeds

theorem getElem?_setStage (hc : m.couriers[i]? = some c) (stage : CourierStage) :
    (m.setStage i stage).couriers[i]? = some { c with stage } := by
  simp [setStage, Array.getElem?_modify, hc]

/-! ### Steps -/

theorem collect_proceeds {w : World} {call : CallId} (hc : m.couriers[i]? = some c)
    (ht : Tried retries c.parcel c.failures trials ys) (hsettled : Settled call w m.world)
    (hended : m.world.Ended call) :
    Proceeds retries i c.parcel w (m.collect i call)
      (trials.flatMap Trial.dealings ++ [.ask call]) ys := by
  rcases hended with ⟨h, hcall⟩ | ⟨f, hcall⟩
  · have hcollect : m.collect i call = m.setStage i (.pacing h m.world.now) := by
      rw [collect, hcall]
    rw [hcollect]
    refine ⟨[.take call h], _, .take hsettled hcall (.rest _), getElem?_setStage hc _, rfl, ?_⟩
    exact ⟨trials, call, ht, by simp⟩
  · have hcollect : m.collect i call = m.setStage i (.returned (.error (.pool f))) := by
      rw [collect, hcall]
    rw [hcollect]
    refine ⟨[.miss call f], _, .miss hsettled hcall (.rest _), getElem?_setStage hc _, rfl, ?_⟩
    have hfew : trials.length ≤ retries := ht.counted ▸ ht.few
    simpa [Standing, ht.outcomes] using Accounted.starved ht.again trials hfew call f

theorem attempt_proceeds (hc : m.couriers[i]? = some c)
    (ht : Tried retries c.parcel c.failures trials ys) :
    Proceeds retries i c.parcel m.world (m.attempt i) (trials.flatMap Trial.dealings) ys := by
  let asked : CourierWorld := { m with world := m.world.perform (.get none) }
  have hattempt : m.attempt i = asked.collect i m.world.calls.size := rfl
  rw [hattempt]
  apply Proceeds.ask
  rcases m.world.ended_or_waiting_of_get none with hended | ⟨t, wait, deadline, hcall⟩
  · exact collect_proceeds (m := asked) hc ht (.already _) hended
  · have hcollect : asked.collect i m.world.calls.size =
        asked.setStage i (.waiting m.world.calls.size) := by
      rw [collect, show asked.world.calls[m.world.calls.size]? = _ from hcall]
    rw [hcollect]
    refine ⟨[], _, .rest _, getElem?_setStage (m := asked) hc _, rfl, ?_⟩
    exact ⟨trials, ht, by simp⟩

theorem fail_proceeds {call : CallId} {h : Handle} {failure : CourierFailure}
    (hc : m.couriers[i]? = some c) (ht : Tried retries c.parcel c.failures trials ys)
    (hr : m.pool.settings.retryCount = retries) :
    Proceeds retries i c.parcel m.world (m.fail i h failure.verdict failure)
      (trials.flatMap Trial.dealings ++ [.ask call, .take call h]) (ys ++ [.error failure]) := by
  let last : Trial := ⟨call, h, failure⟩
  have hdealings : trials.flatMap Trial.dealings ++ [.ask call, .take call h] ++
      [.report h (.failure failure.verdict)] = (trials ++ [last]).flatMap Trial.dealings := by
    simp [Trial.dealings, last]
  have houtcomes : ys ++ [.error failure] = (trials ++ [last]).map Trial.outcome := by
    simp [ht.outcomes, Trial.outcome, last]
  have hnoted : (m.noteFailure i h failure.verdict failure (c.failures + 1)).couriers[i]? =
      some { c with failures := c.failures + 1 } := by
    simp [noteFailure, Array.getElem?_modify, hc]
  rw [fail_eq hc, hr]
  apply Proceeds.remark .warn ("Request failed with proxy " ++ m.pool.proxyText h ++
    " (attempt " ++ toString (c.failures + 1) ++ "): " ++ failure.message)
  apply Proceeds.report h (.failure failure.verdict)
  rw [hdealings, houtcomes]
  dsimp only
  split_ifs with hfull
  · refine ⟨[], _, .rest _, getElem?_setStage hnoted _, rfl, ?_⟩
    have hlength : trials.length = retries := by
      have hcounted := ht.counted
      have hfew := ht.few
      omega
    simpa [Standing] using Accounted.exhausted ht.again trials hlength last
  · refine attempt_proceeds hnoted ⟨ht.again, ?_, Nat.not_lt.mp hfull, rfl⟩
    simp [ht.counted]

theorem depart_eq {failures : Nat} {h : Handle} {since : Instant}
    (hc : m.couriers[i]? = some ⟨parcel, failures, .pacing h since⟩) :
    m.depart i = match m.pool.obstacle? h parcel with
      | none => m.setStage i (.inFlight h since)
      | some failure => m.fail i h failure.verdict failure := by
  rw [depart, hc, Pool.obstacle?]
  dsimp only
  split_ifs
  · cases parcel.address.target <;> rfl
  · rfl

theorem arrive_eq {failures : Nat} {h : Handle} {since : Instant}
    (hc : m.couriers[i]? = some ⟨parcel, failures, .inFlight h since⟩) (delivery : Delivery) :
    m.arrive i delivery = match delivery.outcome (m.pool.proxyText h) parcel.exchangeText with
      | .ok answer =>
        { m with world := m.world.perform (.reportSuccess h (.since since m.world.now)) }.setStage i
          (.returned (.ok answer))
      | .error failure => m.fail i h failure.verdict failure := by
  rw [arrive, hc]
  cases delivery with
  | answered answer =>
    rw [Delivery.outcome]
    dsimp only
    split_ifs <;> rfl
  | timedOut | refused | broken => rfl

theorem depart_proceeds {failures : Nat} {h : Handle} {since : Instant}
    (hc : m.couriers[i]? = some ⟨parcel, failures, .pacing h since⟩)
    (hs : Standing retries ⟨parcel, failures, .pacing h since⟩ ds ys)
    (hr : m.pool.settings.retryCount = retries) :
    Proceeds retries i parcel m.world (m.depart i) ds
      (ys ++ ((m.pool.obstacle? h parcel).map Except.error).toList) := by
  obtain ⟨trials, call, ht, rfl⟩ := hs
  rw [depart_eq hc]
  cases m.pool.obstacle? h parcel with
  | none =>
    refine ⟨[], _, .rest _, getElem?_setStage hc _, rfl, ?_⟩
    exact ⟨trials, call, by simpa using ht, by simp⟩
  | some failure => exact fail_proceeds hc ht hr

theorem arrive_proceeds {failures : Nat} {h : Handle} {since : Instant} {delivery : Delivery}
    (hc : m.couriers[i]? = some ⟨parcel, failures, .inFlight h since⟩)
    (hs : Standing retries ⟨parcel, failures, .inFlight h since⟩ ds ys)
    (hr : m.pool.settings.retryCount = retries) :
    Proceeds retries i parcel m.world (m.arrive i delivery) ds
      (ys ++ [delivery.outcome (m.pool.proxyText h) parcel.exchangeText]) := by
  obtain ⟨trials, call, ht, rfl⟩ := hs
  rw [arrive_eq hc]
  cases ho : delivery.outcome (m.pool.proxyText h) parcel.exchangeText with
  | error failure => exact fail_proceeds hc ht hr
  | ok answer =>
    let elapsed := Duration.since since m.world.now
    let told : CourierWorld := { m with world := m.world.perform (.reportSuccess h elapsed) }
    apply Proceeds.report h (.success elapsed)
    refine ⟨[], _, .rest _, getElem?_setStage (m := told) hc _, rfl, ?_⟩
    have hfew : trials.length ≤ retries := ht.counted ▸ ht.few
    simpa [Standing, ht.outcomes] using Accounted.delivered ht.again trials hfew call h elapsed
      answer (Delivery.status_of_outcome ho)

theorem stage_of_call {call : CallId} (hc : m.couriers[i]? = some c)
    (hcall : m.call? i = some call) : c.stage = .waiting call := by
  rw [call?, hc] at hcall
  split at hcall
  · next heq =>
    cases heq
    cases hcall
    rfl
  · cases hcall

theorem settleCall_proceeds {ending : CallId → Action}
    (hending : ∀ call, ending call = .resume call ∨ ending call = .expire call)
    (hen : (m.call? i).any (fun call => m.world.Enabled (ending call)) = true)
    (hc : m.couriers[i]? = some c) (hs : Standing retries c ds ys) :
    Proceeds retries i c.parcel m.world (m.settleCall i ending) ds ys := by
  obtain ⟨call, hcall, hen⟩ := (Option.any_eq_true _ _).mp hen
  obtain ⟨hsettled, hended⟩ := World.settled_of_enabled (hending call) hen
  obtain ⟨parcel, failures, stage⟩ := c
  have hstage : stage = .waiting call := stage_of_call hc hcall
  subst hstage
  obtain ⟨trials, ht, rfl⟩ := hs
  let ended : CourierWorld := { m with world := m.world.perform (ending call) }
  have hsettle : m.settleCall i ending = ended.collect i call := by
    simp only [settleCall, call?, hc, resume]
    rfl
  rw [hsettle]
  exact collect_proceeds (m := ended) hc ht hsettled hended

theorem abandon_proceeds (hc : m.couriers[i]? = some c) (hs : Standing retries c ds ys) :
    Proceeds retries i c.parcel m.world (m.abandon i) ds ys := by
  obtain ⟨parcel, failures, stage⟩ := c
  cases stage with
  | waiting call =>
    rw [abandon, hc]
    let left : CourierWorld := { m with world := m.world.perform (.abandon call) }
    exact ⟨[.leave call], _, .leave (.rest _), getElem?_setStage (m := left) hc _, rfl, trivial⟩
  | pacing | inFlight =>
    rw [abandon, hc]
    exact ⟨[], _, .rest _, getElem?_setStage hc _, rfl, trivial⟩
  | returned | abandoned =>
    rw [abandon, hc]
    exact ⟨[], _, .rest _, hc, rfl, by simpa using hs⟩

/-- Whatever a courier does, its dealings and outcomes say where it stands. -/
theorem own_proceeds {a : CourierAction} (ha : m.actor? a = some i) (hen : m.Enabled a = true)
    (hc : m.couriers[i]? = some c) (hs : Standing retries c ds ys)
    (hr : m.pool.settings.retryCount = retries) :
    Proceeds retries i c.parcel m.world (m.perform a) ds (ys ++ (m.outcome? a).toList) := by
  cases a with
  | world => cases ha
  | send =>
    cases ha
    rw [Array.getElem?_size] at hc
    cases hc
  | resume =>
    cases ha
    exact (settleCall_proceeds (fun _ => .inl rfl) hen hc hs).quiet rfl
  | expire =>
    cases ha
    exact (settleCall_proceeds (fun _ => .inr rfl) hen hc hs).quiet rfl
  | depart =>
    cases ha
    obtain ⟨parcel, failures, stage⟩ := c
    cases stage with
    | pacing h since =>
      rw [outcome?, hc]
      exact depart_proceeds hc hs hr
    | waiting | inFlight | returned | abandoned =>
      rw [Enabled, hc] at hen
      cases hen
  | arrive _ delivery =>
    cases ha
    obtain ⟨parcel, failures, stage⟩ := c
    cases stage with
    | inFlight h since =>
      rw [outcome?, hc]
      exact arrive_proceeds hc hs hr
    | waiting | pacing | returned | abandoned =>
      rw [Enabled, hc] at hen
      cases hen
  | abandon =>
    cases ha
    exact (abandon_proceeds hc hs).quiet rfl

/-! ### Runs -/

theorem run_stands {actions : List CourierAction} (hrun : m.run? actions = some v)
    (hc : m.couriers[i]? = some c) (hs : Standing retries c ds ys)
    (hr : m.pool.settings.retryCount = retries) :
    ∃ new d, Conducted i m actions new ∧ v.couriers[i]? = some d ∧ d.parcel = c.parcel ∧
      Standing retries d (ds ++ new) (ys ++ outcomes i m actions) := by
  induction actions generalizing m c ds ys with
  | nil =>
    cases hrun
    exact ⟨[], c, .rest _, hc, rfl, by simpa [outcomes] using hs⟩
  | cons a rest ih =>
    rw [run?] at hrun
    split_ifs at hrun with hen
    have hsettings : (m.perform a).pool.settings.retryCount = retries := by
      rw [settings_perform, hr]
    by_cases ha : m.actor? a = some i
    · obtain ⟨now, d, hconduct, hd, hparcel, hstands⟩ := own_proceeds ha hen hc hs hr
      obtain ⟨later, e, hlater, he, hkept, hend⟩ := ih hrun hd hstands hsettings
      refine ⟨now ++ later, e, .own ha hconduct hlater, he, hkept.trans hparcel, ?_⟩
      rwa [outcomes, if_pos ha, ← List.append_assoc, ← List.append_assoc]
    · have hother : (m.perform a).couriers[i]? = some c := by
        rw [getElem?_perform ha, hc]
      obtain ⟨later, e, hlater, he, hkept, hend⟩ := ih hrun hother hs hsettings
      refine ⟨later, e, .other ha hlater, he, hkept, ?_⟩
      rwa [outcomes, if_neg ha, List.nil_append]

/-- A courier that is sent off begins with its first attempt, unless its parcel cannot be
sent twice. -/
theorem send_proceeds (m : CourierWorld) (parcel : Parcel) :
    Proceeds m.pool.settings.retryCount m.couriers.size parcel m.world (m.send parcel).2 [] [] := by
  cases hagain : parcel.repeatable with
  | true =>
    let hired : CourierWorld := { m with couriers := m.couriers.push ⟨parcel, 0, .abandoned none⟩ }
    have hsend : (m.send parcel).2 = hired.attempt m.couriers.size := by
      rw [send, if_pos hagain]
    have hc : hired.couriers[m.couriers.size]? = some ⟨parcel, 0, .abandoned none⟩ :=
      Array.getElem?_push_size
    rw [hsend]
    have ht : Tried m.pool.settings.retryCount parcel 0 [] [] :=
      ⟨hagain, rfl, Nat.zero_le _, rfl⟩
    exact attempt_proceeds hc ht
  | false =>
    have hsend : (m.send parcel).2 = { m with
        couriers := m.couriers.push ⟨parcel, 0, .returned (.error .notRepeatable)⟩ } := by
      simp [send, hagain]
    rw [hsend]
    exact ⟨[], _, .rest _, Array.getElem?_push_size, rfl, Accounted.refused hagain⟩

theorem stage_of_result {result : CourierResult} (hc : m.couriers[i]? = some c)
    (hresult : m.result? i = some result) :
    c.stage = .returned result := by
  rw [result?, hc] at hresult
  split at hresult
  · next heq =>
    cases heq
    cases hresult
    rfl
  · cases hresult

theorem world_of_send (m : CourierWorld) {parcel : Parcel} (hp : parcel.repeatable = false) :
    (m.perform (.send parcel)).world = m.world := by
  simp [perform, send, hp]

end CourierWorld

open CourierWorld in
/-- A courier that returned has accounted for every proxy it took. It asked for one, took it
and reported how the attempt went, over and over, with no more failed attempts than there
are retries before the last one. What it returned is the first answer, the failure of the
last attempt when all failed, or the refusal of a request. A parcel that cannot be sent
twice was refused with the world as it was. -/
theorem courier_accounts (m : CourierWorld) (parcel : Parcel) (actions : List CourierAction)
    {v : CourierWorld} (hrun : m.run? (.send parcel :: actions) = some v)
    {result : CourierResult} (hresult : v.result? m.couriers.size = some result) :
    (∃ dealings, Conducted m.couriers.size m (.send parcel :: actions) dealings ∧
      Accounted m.pool.settings.retryCount parcel dealings
        (outcomes m.couriers.size m (.send parcel :: actions)) result) ∧
    (parcel.repeatable = false → (m.perform (.send parcel)).world = m.world) := by
  refine ⟨?_, world_of_send m⟩
  have hrest : (m.perform (.send parcel)).run? actions = some v := by
    simpa [run?, Enabled] using hrun
  obtain ⟨now, d, hconduct, hd, hparcel, hs⟩ := send_proceeds m parcel
  have hsettings : (m.perform (.send parcel)).pool.settings.retryCount =
      m.pool.settings.retryCount := by
    rw [settings_perform]
  obtain ⟨later, e, hlater, he, hkept, hend⟩ := run_stands hrest hd hs hsettings
  refine ⟨now ++ later, .own rfl hconduct hlater, ?_⟩
  rw [Standing, stage_of_result he hresult, hkept, hparcel] at hend
  simpa [outcomes, outcome?] using hend

def Parcel.toHost (host : String) : Parcel where
  address := ⟨"http".toList, some ⟨[], none, some (.domain host.toList), none⟩,
    .hierarchical [[]], none, none⟩
  repeatable := true

/-- The first attempt takes too long, and the second one brings an answer. -/
def secondTry : List CourierAction :=
  [.send (.toHost "c"), .depart 0, .arrive 0 .timedOut, .depart 0,
    .arrive 0 (.answered ⟨200, [], ""⟩)]

open CourierWorld in
/-- A courier fails through the first of two proxies and returns the answer it gets through
the second. -/
theorem courier_accounts_for_a_second_try :
    ∃ m v answer dealings, (ofWorld (.opening .standard ["s"] (.roundRobin 0) 0 [])).run?
        [.world .start, .world (.supplyPass 0 (.ok [.plain "a" 1 .http, .plain "b" 1 .http])),
          .world (.take 0), .world (.conclude 0 (.success 0 .zero 200)),
          .world (.take 0), .world (.conclude 0 (.success 0 .zero 200))] = some m ∧
      m.run? secondTry = some v ∧ v.result? 0 = some (.ok answer) ∧
      Conducted 0 m secondTry dealings ∧
      Accounted 3 (.toHost "c") dealings (outcomes 0 m secondTry) (.ok answer) := by
  have hrun : ((ofWorld (.opening .standard ["s"] (.roundRobin 0) 0 [])).run?
        [.world .start, .world (.supplyPass 0 (.ok [.plain "a" 1 .http, .plain "b" 1 .http])),
          .world (.take 0), .world (.conclude 0 (.success 0 .zero 200)),
          .world (.take 0), .world (.conclude 0 (.success 0 .zero 200))]).map
      (fun m => decide (m.couriers.size = 0 ∧ m.pool.settings.retryCount = 3 ∧
        ((m.run? secondTry).bind (·.result? 0)).map (·.isOk) = some true)) = some true := by
    decide +kernel
  obtain ⟨m, hm, hfacts⟩ := Option.map_eq_some_iff.mp hrun
  obtain ⟨hnobody, hretries, hback⟩ := of_decide_eq_true hfacts
  obtain ⟨result, hresult, hok⟩ := Option.map_eq_some_iff.mp hback
  obtain ⟨v, hv, hresult⟩ := Option.bind_eq_some_iff.mp hresult
  cases result with
  | error failure => cases hok
  | ok answer =>
    obtain ⟨⟨dealings, hconducted, haccounted⟩, _⟩ := courier_accounts m (.toHost "c") _ hv
      (by rw [hnobody]; exact hresult)
    rw [hnobody] at hconducted haccounted
    rw [hretries] at haccounted
    exact ⟨m, v, answer, dealings, hm, hv, hresult, hconducted, haccounted⟩

end ProxyLease
