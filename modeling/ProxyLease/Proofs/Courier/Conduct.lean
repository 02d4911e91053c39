import ProxyLease.Courier.Step
import ProxyLease.Proofs.Lease.Ledger
import ProxyLease.Proofs.Pool.Uses

/-!
# What couriers do

A courier deals with its pool in requests for proxies and in reports about them. A conduct
is a list of such dealings that leads from one world to another, and what a courier did in
a run is the conduct of its own steps. Its attempts come to answers or to failures, each of
which is an exchange that went wrong or an obstacle before it. No step of anybody else
touches a courier.
-/

namespace ProxyLease

/-- Something a courier does to its pool or learns from it. -/
inductive Dealing where
  | ask (call : CallId)
  | take (call : CallId) (proxy : Handle)
  | miss (call : CallId) (failure : PoolFailure)
  /-- The caller goes away while the courier waits. -/
  | leave (call : CallId)
  | report (proxy : Handle) (account : Account)

/-- A request for a proxy has ended already, or it is ended. -/
inductive Settled (call : CallId) : World → World → Prop
  | already (w : World) : Settled call w w
  | resumed (w : World) : Settled call w (w.perform (.resume call))
  | expired (w : World) : Settled call w (w.perform (.expire call))

/-- Dealings that lead from one world to another, with remarks in the log between them. -/
inductive Conduct : World → List Dealing → World → Prop
  | rest (w : World) : Conduct w [] w
  | remark {w v : World} {ds : List Dealing} (level : LogLevel) (text : String)
      (after : Conduct (w.mapPool (·.note level text)) ds v) : Conduct w ds v
  | ask {w v : World} {ds : List Dealing} (after : Conduct (w.perform (.get none)) ds v) :
      Conduct w (.ask w.calls.size :: ds) v
  | take {w u v : World} {ds : List Dealing} {call : CallId} {proxy : Handle}
      (settled : Settled call w u) (found : u.calls[call]? = some (.returned proxy))
      (after : Conduct u ds v) : Conduct w (.take call proxy :: ds) v
  | miss {w u v : World} {ds : List Dealing} {call : CallId} {failure : PoolFailure}
      (settled : Settled call w u) (refused : u.calls[call]? = some (.refused failure))
      (after : Conduct u ds v) : Conduct w (.miss call failure :: ds) v
  | leave {w v : World} {ds : List Dealing} {call : CallId}
      (after : Conduct (w.perform (.abandon call)) ds v) : Conduct w (.leave call :: ds) v
  | report {w v : World} {ds : List Dealing} {proxy : Handle} {account : Account}
      (after : Conduct (w.perform (account.about proxy)) ds v) :
      Conduct w (.report proxy account :: ds) v

def Dealing.isAsk : Dealing → Bool
  | .ask _ => true
  | _ => false

def Dealing.taken? : Dealing → Option Handle
  | .take _ h => some h
  | _ => none

def Dealing.reported? : Dealing → Option Handle
  | .report h _ => some h
  | _ => none

/-- The use that a dealing reports, and whether it went well. -/
def Dealing.use? : Dealing → Option (Handle × Bool)
  | .report h (.success _) => some (h, true)
  | .report h (.failure _) => some (h, false)
  | _ => none

theorem World.endCall_quiet (w : World) (call : CallId) (cause : WaitEnd) :
    (w.endCall call cause).calls.size = w.calls.size ∧
      (w.endCall call cause).pool.uses = w.pool.uses := by
  unfold endCall
  split
  · exact ⟨Array.size_setIfInBounds, Pool.uses_leaveLine _ _⟩
  · exact ⟨rfl, rfl⟩

theorem World.abandon_quiet (w : World) (call : CallId) :
    (w.abandon call).calls.size = w.calls.size ∧ (w.abandon call).pool.uses = w.pool.uses := by
  unfold abandon
  split
  · exact ⟨Array.size_setIfInBounds, Pool.uses_leaveLine _ _⟩
  · exact ⟨rfl, rfl⟩

theorem Settled.quiet {call : CallId} {w v : World} (hs : Settled call w v) :
    v.calls.size = w.calls.size ∧ v.pool.uses = w.pool.uses := by
  cases hs with
  | already => exact ⟨rfl, rfl⟩
  | resumed => exact w.endCall_quiet call .answered
  | expired =>
    rw [World.perform]
    split
    · exact w.endCall_quiet call _
    · exact ⟨rfl, rfl⟩

/-- Nothing is left out of a conduct: it begins as many requests as were begun, and its
reports are the uses that the trace tells. -/
theorem Conduct.complete {w v : World} {ds : List Dealing} (hc : Conduct w ds v) :
    v.calls.size = w.calls.size + ds.countP Dealing.isAsk ∧
      v.pool.uses = w.pool.uses ++ ds.filterMap Dealing.use? := by
  induction hc with
  | rest => simp
  | remark level text _ ih =>
    refine ⟨ih.1, ih.2.trans ?_⟩
    simp [World.mapPool, Pool.note, Pool.uses_emit, Event.use?]
  | @ask w v ds _ ih =>
    have hcalls : (w.perform (.get none)).calls.size = w.calls.size + 1 := Array.size_push _
    have huses : (w.perform (.get none)).pool.uses = w.pool.uses := Pool.uses_beginGet _ _
    rw [hcalls, huses] at ih
    constructor
    · rw [ih.1, List.countP_cons_of_pos rfl]
      omega
    · simpa [List.filterMap_cons, Dealing.use?] using ih.2
  | take settled _ _ ih | miss settled _ _ ih =>
    rw [settled.quiet.1, settled.quiet.2] at ih
    simpa [List.filterMap_cons, Dealing.isAsk, Dealing.use?] using ih
  | @leave w v ds call _ ih =>
    have hquiet := w.abandon_quiet call
    rw [World.perform, hquiet.1, hquiet.2] at ih
    simpa [List.filterMap_cons, Dealing.isAsk, Dealing.use?] using ih
  | @report w v ds h account _ ih =>
    cases account with
    | success elapsed =>
      have hcalls : (w.perform (.reportSuccess h elapsed)).calls = w.calls := rfl
      have huses : (w.perform (.reportSuccess h elapsed)).pool.uses = w.pool.uses ++ [(h, true)] :=
        Pool.uses_reportSuccess _ _ _
      rw [Account.about, hcalls, huses] at ih
      simpa [List.filterMap_cons, Dealing.isAsk, Dealing.use?] using ih
    | failure verdict =>
      have hcalls : (w.perform (.reportFailure h verdict)).calls = w.calls := rfl
      have huses : (w.perform (.reportFailure h verdict)).pool.uses =
          w.pool.uses ++ [(h, false)] := Pool.uses_reportFailure _ _ _
      rw [Account.about, hcalls, huses] at ih
      simpa [List.filterMap_cons, Dealing.isAsk, Dealing.use?] using ih

/-! ### What attempts come to -/

def CourierFailure.verdict : CourierFailure → Verdict
  | .authentication _ => .authenticationFailed
  | .transport .timeout _ => .timeout
  | .transport .connect _ => .connectionFailed
  | .transport .other _ | .notRepeatable | .pool _ => .exception

def Parcel.exchangeText (parcel : Parcel) : String :=
  match parcel.address.target with
  | .ok url => exchangeFailure url
  | .error flaw => flaw.message

/-- What an attempt comes to, and what a courier returns. -/
abbrev CourierResult := Except CourierFailure Response

/-- What an attempt comes to by a delivery: any answer but a demand for authentication is
accepted. -/
def Delivery.outcome (proxy text : String) : Delivery → CourierResult
  | .answered answer =>
    if answer.status = 407 then .error (.authentication proxy) else .ok answer
  | .timedOut => .error (.transport .timeout text)
  | .refused => .error (.transport .connect text)
  | .broken => .error (.transport .other text)

theorem Delivery.status_of_outcome {delivery : Delivery} {proxy text : String}
    {answer : Response} (ho : delivery.outcome proxy text = .ok answer) :
    answer.status ≠ 407 := by
  cases delivery with
  | answered reply =>
    rw [outcome] at ho
    split_ifs at ho with h407
    cases ho
    exact h407
  | timedOut | refused | broken => cases ho

/-- Why a parcel cannot be put on its way through a proxy. -/
def Pool.obstacle? (p : Pool) (h : Handle) (parcel : Parcel) : Option CourierFailure :=
  if ((p.record? h).map fun r => r.endpoint.url.isOk).getD false then
    match parcel.address.target with
    | .ok _ => none
    | .error flaw => some (.transport .other flaw.message)
  else some (.transport .other RequestFlaw.unusable.message)

namespace CourierWorld

variable {m n k : CourierWorld} {i j : CourierId}

def actor? (m : CourierWorld) : CourierAction → Option CourierId
  | .world _ => none
  | .send _ => some m.couriers.size
  | .resume i | .expire i | .depart i | .arrive i _ | .abandon i => some i

def outcome? (m : CourierWorld) : CourierAction → Option CourierResult
  | .depart i =>
    match m.couriers[i]? with
    | some ⟨parcel, _, .pacing h _⟩ => (m.pool.obstacle? h parcel).map .error
    | _ => none
  | .arrive i delivery =>
    match m.couriers[i]? with
    | some ⟨parcel, _, .inFlight h _⟩ =>
      some (delivery.outcome (m.pool.proxyText h) parcel.exchangeText)
    | _ => none
  | _ => none

def outcomes (i : CourierId) :
    CourierWorld → List CourierAction → List CourierResult
  | _, [] => []
  | m, a :: rest =>
    (if m.actor? a = some i then (m.outcome? a).toList else []) ++ outcomes i (m.perform a) rest

/-- What a courier does in a run: the conduct of its own steps. -/
inductive Conducted (i : CourierId) : CourierWorld → List CourierAction → List Dealing → Prop
  | rest (m : CourierWorld) : Conducted i m [] []
  | own {m : CourierWorld} {a : CourierAction} {rest : List CourierAction}
      {now later : List Dealing} (actor : m.actor? a = some i)
      (conduct : Conduct m.world now (m.perform a).world)
      (after : Conducted i (m.perform a) rest later) : Conducted i m (a :: rest) (now ++ later)
  | other {m : CourierWorld} {a : CourierAction} {rest : List CourierAction}
      {later : List Dealing} (actor : m.actor? a ≠ some i)
      (after : Conducted i (m.perform a) rest later) : Conducted i m (a :: rest) later

/-! ### Reports of failed attempts -/

/-- Remarks on a failed attempt, reports it and counts it. -/
def noteFailure (m : CourierWorld) (i : CourierId) (h : Handle) (verdict : Verdict)
    (failure : CourierFailure) (failures : Nat) : CourierWorld :=
  let remark := "Request failed with proxy " ++ m.pool.proxyText h ++ " (attempt " ++
    toString failures ++ "): " ++ failure.message
  ⟨(m.world.mapPool (·.note .warn remark)).perform (.reportFailure h verdict),
    m.couriers.modify i fun c => { c with failures }⟩

theorem fail_eq {c : Courier} (hc : m.couriers[i]? = some c) {h : Handle} {verdict : Verdict}
    {failure : CourierFailure} :
    m.fail i h verdict failure =
      let noted := m.noteFailure i h verdict failure (c.failures + 1)
      if m.pool.settings.retryCount < c.failures + 1 then
        noted.setStage i (.returned (.error failure))
      else noted.attempt i := by
  rw [fail, hc]
  rfl

/-! ### What a step leaves alone -/

/-- Only one courier changes, and the settings of the pool do not. -/
structure Spares (i : CourierId) (m n : CourierWorld) : Prop where
  others : ∀ j ≠ i, n.couriers[j]? = m.couriers[j]?
  settings : n.pool.settings = m.pool.settings

namespace Spares

theorem refl (i : CourierId) (m : CourierWorld) : Spares i m m := ⟨fun _ _ => rfl, rfl⟩

theorem trans (hmn : Spares i m n) (hnk : Spares i n k) : Spares i m k :=
  ⟨fun j hj => (hnk.others j hj).trans (hmn.others j hj), hnk.settings.trans hmn.settings⟩

theorem modify (i : CourierId) (m : CourierWorld) (f : Courier → Courier) :
    Spares i m { m with couriers := m.couriers.modify i f } :=
  ⟨fun j hj => by simp [Array.getElem?_modify, hj.symm], rfl⟩

theorem setStage (i : CourierId) (m : CourierWorld) (stage : CourierStage) :
    Spares i m (m.setStage i stage) := modify i m _

theorem perform (i : CourierId) (m : CourierWorld) (a : Action) :
    Spares i m { m with world := m.world.perform a } :=
  ⟨fun _ _ => rfl, World.settings_perform m.world a⟩

theorem collect (i : CourierId) (m : CourierWorld) (call : CallId) :
    Spares i m (m.collect i call) := by
  rw [CourierWorld.collect]
  split
  · exact setStage i m _
  · exact setStage i m _
  · exact setStage i m _
  · exact refl i m

theorem attempt (i : CourierId) (m : CourierWorld) : Spares i m (m.attempt i) :=
  (perform i m (.get none)).trans (collect i _ _)

theorem noteFailure (i : CourierId) (m : CourierWorld) (h : Handle) (verdict : Verdict)
    (failure : CourierFailure) (failures : Nat) :
    Spares i m (m.noteFailure i h verdict failure failures) := by
  have hsettings : (m.noteFailure i h verdict failure failures).pool.settings =
      m.pool.settings := World.settings_perform _ (.reportFailure h verdict)
  exact ⟨(modify i m _).others, hsettings⟩

theorem fail (i : CourierId) (m : CourierWorld) (h : Handle) (verdict : Verdict)
    (failure : CourierFailure) : Spares i m (m.fail i h verdict failure) := by
  cases hc : m.couriers[i]? with
  | none =>
    rw [CourierWorld.fail, hc]
    exact refl i m
  | some c =>
    rw [fail_eq hc]
    have hnoted := noteFailure i m h verdict failure (c.failures + 1)
    split_ifs
    · exact hnoted.trans (setStage i _ _)
    · exact hnoted.trans (attempt i _)

theorem depart (i : CourierId) (m : CourierWorld) : Spares i m (m.depart i) := by
  rw [CourierWorld.depart]
  split
  · dsimp only
    split_ifs
    · split
      · exact setStage i m _
      · exact fail i m _ _ _
    · exact fail i m _ _ _
  · exact refl i m

theorem arrive (i : CourierId) (m : CourierWorld) (delivery : Delivery) :
    Spares i m (m.arrive i delivery) := by
  rw [CourierWorld.arrive]
  split
  · cases delivery with
    | answered answer =>
      dsimp only
      split_ifs
      · exact fail i m _ _ _
      · exact (perform i m (.reportSuccess _ _)).trans (setStage i _ _)
    | timedOut | refused | broken => exact fail i m _ _ _
  · exact refl i m

theorem settleCall (i : CourierId) (m : CourierWorld) (ending : CallId → Action) :
    Spares i m (m.settleCall i ending) := by
  rw [CourierWorld.settleCall]
  split
  · next call _ =>
    refine (perform i m (ending call)).trans ?_
    rw [resume]
    split
    · exact collect i _ _
    · exact refl i _
  · exact refl i m

theorem abandon (i : CourierId) (m : CourierWorld) : Spares i m (m.abandon i) := by
  rw [CourierWorld.abandon]
  split
  · next call _ => exact (perform i m (.abandon call)).trans (setStage i _ _)
  · exact setStage i m _
  · exact setStage i m _
  · exact refl i m

theorem push (m : CourierWorld) (c : Courier) :
    Spares m.couriers.size m { m with couriers := m.couriers.push c } :=
  ⟨fun j hj => by rw [Array.getElem?_push, if_neg hj], rfl⟩

theorem send (m : CourierWorld) (parcel : Parcel) :
    Spares m.couriers.size m (m.send parcel).2 := by
  rw [CourierWorld.send]
  dsimp only
  split_ifs
  · exact (push m _).trans (attempt _ _)
  · exact push m _

end Spares

theorem perform_spares {a : CourierAction} (ha : m.actor? a = some i) :
    Spares i m (m.perform a) := by
  cases a with
  | world => cases ha
  | send parcel =>
    cases ha
    exact Spares.send m parcel
  | resume | expire =>
    cases ha
    exact Spares.settleCall i m _
  | depart =>
    cases ha
    exact Spares.depart i m
  | arrive _ delivery =>
    cases ha
    exact Spares.arrive i m delivery
  | abandon =>
    cases ha
    exact Spares.abandon i m

theorem exists_world_of_actor {a : CourierAction} (ha : m.actor? a = none) :
    ∃ action, a = .world action := by
  cases a with
  | world action => exact ⟨action, rfl⟩
  | send | resume | expire | depart | arrive | abandon => cases ha

theorem getElem?_perform {a : CourierAction} (ha : m.actor? a ≠ some i) :
    (m.perform a).couriers[i]? = m.couriers[i]? := by
  cases hactor : m.actor? a with
  | none =>
    obtain ⟨action, rfl⟩ := exists_world_of_actor hactor
    rfl
  | some j =>
    have hij : i ≠ j := by
      rintro rfl
      exact ha hactor
    exact (perform_spares hactor).others i hij

theorem settings_perform (m : CourierWorld) (a : CourierAction) :
    (m.perform a).pool.settings = m.pool.settings := by
  cases hactor : m.actor? a with
  | none =>
    obtain ⟨action, rfl⟩ := exists_world_of_actor hactor
    exact World.settings_perform m.world action
  | some i => exact (perform_spares hactor).settings

end CourierWorld
end ProxyLease
