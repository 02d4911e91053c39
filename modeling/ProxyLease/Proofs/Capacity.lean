import ProxyLease.Proofs.Queue
import ProxyLease.Proofs.Total
import ProxyLease.Proofs.World.Asking

/-!
# The capacity of a pool

Passes ask, wait and take answers in while everything else goes on. A question is sized by
the room of the moment, which may be gone when the answer comes, so an answer is cut off
again where the pool is full. Whoever comes in is new, and nobody who was there before
notices.
-/

namespace ProxyLease

/-- Whether a step is an answer to the pass of a caller. -/
def Action.answers (i : PassId) : Action → Bool
  | .supplyPass j _ => j == i
  | _ => false

namespace Pool.Intake

variable {p q : Pool} {h : Handle} {offered : List Endpoint} {n : Nat}

theorem mem_available (hi : Intake offered n p q) (he : p.Enrolled) :
    h ∈ q.proxiesIn .available ↔ h ∈ p.proxiesIn .available := by
  rw [mem_proxiesIn, mem_proxiesIn]
  constructor
  · rintro ⟨hq, hs⟩
    obtain ⟨e, hentry, rfl⟩ := List.mem_map.mp hq
    by_cases hp : e ∈ p.registry.entries
    · have hlt := he.lt_size (List.mem_map_of_mem hp)
      have hr : p.record? e.2 = some p.records[e.2] := Array.getElem?_eq_getElem hlt
      rw [state?, hi.record _ _ hr] at hs
      exact ⟨List.mem_map_of_mem hp, by rw [state?, hr, hs]⟩
    · obtain ⟨_, _, x, _, _, hr⟩ := hi.newcomers e hentry hp
      rw [state?, hr] at hs
      cases hs
  · rintro ⟨hp, hs⟩
    obtain ⟨e, hentry, rfl⟩ := List.mem_map.mp hp
    obtain ⟨r, hr, hrs⟩ := exists_record_of_state hs
    exact ⟨List.mem_map_of_mem (hi.entries hentry), by rw [state?, hi.record _ _ hr, ← hrs]; rfl⟩

theorem mem_range_of_new (hi : Intake offered n p q) (he : p.Enrolled) {e : String × Handle}
    (hq : e ∈ q.registry.entries) (hp : e ∉ p.registry.entries) :
    e.2 ∈ List.range' p.records.size n := by
  have hh : e.2 ∈ q.registry.handles := List.mem_map_of_mem hq
  rw [hi.handles.mem_iff, List.mem_append] at hh
  refine hh.resolve_right fun hold => ?_
  have hnone := (hi.newcomers e hq hp).2.1
  rw [record?, Array.getElem?_eq_getElem (he.lt_size hold)] at hnone
  cases hnone

end Pool.Intake

namespace World

variable {w v : World} {x : Asker} {state : Asking} {i : PassId} {a : Action}

/-- The proxies that a step registers. -/
def newcomers (w : World) (a : Action) : List Handle :=
  (w.perform a).pool.registry.handles.filter (· ∉ w.pool.registry.handles)

/-- How many proxies the answers to a pass register in the course of some steps. -/
def insertedBy (w : World) (i : PassId) : List Action → Nat
  | [] => 0
  | a :: rest =>
    (if a.answers i then (w.newcomers a).length else 0) + (w.perform a).insertedBy i rest

/-- What an answer does to a world: nothing that is known is touched, and whoever comes in
is new, pending and met among the endpoints of the answer. It is queued unless as many
proxies are available as the ceiling says, and that number does not change meanwhile. -/
structure TakesIn (offered : List Endpoint) (w v : World) : Prop where
  entries : ∀ e ∈ w.pool.registry.entries, e ∈ v.pool.registry.entries
  records : ∀ h r, w.pool.record? h = some r → v.pool.record? h = some r
  available : ∀ h, h ∈ v.pool.proxiesIn .available ↔ h ∈ w.pool.proxiesIn .available
  unknown : ∀ e ∈ v.pool.registry.entries, e ∉ w.pool.registry.entries →
    (∀ d ∈ w.pool.registry.entries, d.1 ≠ e.1) ∧ w.pool.record? e.2 = none
  fresh : ∀ e ∈ v.pool.registry.entries, e ∉ w.pool.registry.entries →
    ∃ x ∈ offered, x.id = e.1 ∧ v.pool.record? e.2 =
      some (.fresh x w.now (burstOf w.pool.settings.maxRequestsPerSecond))
  queued : ∀ e ∈ v.pool.registry.entries, e ∉ w.pool.registry.entries →
    (e.2 ∈ v.pool.queue ↔ ∀ ceiling, w.pool.settings.maxAvailableForValidation = some ceiling →
      (w.pool.proxiesIn .available).length < ceiling)

/-! ### The total -/

theorem capacity_perform (he : w.Enabled a = true) (hb : w.pool.Books True)
    (hw : w.pool.census.total ≤ w.pool.settings.maxPoolSize) :
    (w.perform a).pool.census.total ≤ w.pool.settings.maxPoolSize := by
  by_cases harrival : w.concern a = .acquisition
  · obtain ⟨x, answer, state, rfl, hx⟩ := exists_supply_of_concern he harrival
    rw [(perform_supply hx answer).1]
    exact Pool.total_answered_le state answer hw
  · exact Nat.le_trans (w.total_perform_le harrival hb) hw

/-! ### What is asked -/

/-- A new question asks for at least one endpoint and for no more than fit, and the trace
tells it last. -/
theorem asked_within (hx : (w.perform a).asking? x = some state) (hnew : w.asking? x ≠ some state) :
    1 ≤ state.count ∧ state.count ≤ (w.perform a).pool.room ∧
      (0 < (w.perform a).pool.settings.fetchBatchSize →
        state.count ≤ (w.perform a).pool.settings.fetchBatchSize) ∧
      (w.perform a).pool.trace.back? =
        some (.fetch ((w.perform a).pool.sourceName state.source) state.count) := by
  obtain ⟨p, pass, hstate, hpool⟩ := (asked_of_perform w hx).resolve_left hnew
  obtain ⟨rfl, _, hroom, hask⟩ := Pool.proceed_ask hstate
  obtain ⟨hpos, hfits, hbatch⟩ := Pool.askCount_bounds hroom
  rw [hpool, hask]
  refine ⟨hpos, hfits, hbatch, ?_⟩
  exact Array.back?_push

/-- A pass asks its sources one after the other. -/
def InTurn (w : World) : Prop :=
  ∀ x state, w.asking? x = some state → state.source = state.pass.answered

theorem inTurn_perform (w : World) (a : Action) (hw : w.InTurn) : (w.perform a).InTurn := by
  intro x state hx
  rcases asked_of_perform w hx with hold | ⟨p, pass, hstate, _⟩
  · exact hw x state hold
  · rw [(Pool.proceed_ask hstate).1]

/-! ### What comes in -/

theorem length_newcomers {offered : List Endpoint} {n : Nat} (he : w.pool.Enrolled)
    (hi : Pool.Intake offered n w.pool (w.perform a).pool) : (w.newcomers a).length = n := by
  rw [newcomers, (hi.handles.filter _).length_eq, List.filter_append, List.length_append]
  have hnew : (List.range' w.pool.records.size n).filter (· ∉ w.pool.registry.handles) =
      List.range' w.pool.records.size n := by
    rw [List.filter_eq_self]
    intro h hh
    have hle := (List.mem_range'_1.mp hh).1
    exact decide_eq_true fun hold => absurd (he.lt_size hold) (Nat.not_lt.mpr hle)
  have hold : w.pool.registry.handles.filter (· ∉ w.pool.registry.handles) = [] := by
    rw [List.filter_eq_nil_iff]
    intro h hh
    simpa using hh
  rw [hnew, hold, List.length_range', List.length_nil, Nat.add_zero]

theorem addedBy_perform (he : w.Enabled a = true) (hw : w.pool.Enrolled) (i : PassId) :
    (w.perform a).addedBy i =
      w.addedBy i + if a.answers i then (w.newcomers a).length else 0 := by
  by_cases ha : ∀ j answer, a ≠ .supplyPass j answer
  · have hanswers : a.answers i = false := by
      cases a with
      | supplyPass j answer => exact absurd rfl (ha j answer)
      | _ => rfl
    rw [hanswers, (perform_inquiring w ha).added]
    rfl
  · simp only [not_forall, not_not] at ha
    obtain ⟨j, answer, rfl⟩ := ha
    obtain ⟨state, hx⟩ := Option.isSome_iff_exists.mp
      ((enabled_supply w (.pass j) answer).symm.trans he)
    have hj := asking_pass_iff.mp hx
    obtain ⟨call, hcall, _, hadded⟩ := supplyPass_eq hj answer
    obtain ⟨n, hpass, hi⟩ := Pool.answered_intake w.pool state answer
    have hpasses : (w.supplyPass j answer).passes[i]? =
        if j = i then some call else w.passes[i]? := passes_supplyPass hj (by rw [hcall])
    rw [addedBy, perform, hpasses, addedBy, Action.answers]
    by_cases hji : j = i
    · subst hji
      rw [← (perform_supply hx answer).1] at hi
      have hlength : (w.newcomers (.supplyPass j answer)).length = n := length_newcomers hw hi
      simp only [hlength, hj, if_true, Option.map_some, Option.getD_some, hadded,
        hpass, beq_self_eq_true]
      rfl
    · simp [hji]

theorem addedBy_run {actions : List Action} (hrun : w.run? actions = some v) (hw : w.Organized)
    (i : PassId) : v.addedBy i = w.addedBy i + w.insertedBy i actions := by
  induction actions generalizing w with
  | nil =>
    cases hrun
    rfl
  | cons a rest ih =>
    rw [run?] at hrun
    split_ifs at hrun with he
    rw [ih hrun (perform_organized he hw), addedBy_perform he hw.books.enrolled, insertedBy,
      Nat.add_assoc]

/-- A new proxy is admitted to validation unless as many are available as the ceiling says. -/
theorem admits_iff (ho : w.Organized) : w.pool.admitsValidation = true ↔
    ∀ ceiling, w.pool.settings.maxAvailableForValidation = some ceiling →
      (w.pool.proxiesIn .available).length < ceiling := by
  rw [Pool.admitsValidation, ho.books.count_eq (s := .available) nofun]
  split
  · next hnone => simp [hnone]
  · next ceiling hsome => simp [hsome]

theorem takesIn_of_intake {offered : List Endpoint} {n : Nat} (ho : w.Organized)
    (hi : Pool.Intake offered n w.pool v.pool) : TakesIn offered w v := by
  refine ⟨hi.entries, hi.record, fun h => hi.mem_available ho.books.enrolled, ?_, ?_, ?_⟩
  · intro e hv hw
    obtain ⟨hid, hnone, _⟩ := hi.newcomers e hv hw
    exact ⟨hid, hnone⟩
  · intro e hv hw
    obtain ⟨_, _, hfresh⟩ := hi.newcomers e hv hw
    exact hfresh
  · intro e hv hw
    have hnew := hi.mem_range_of_new ho.books.enrolled hv hw
    have hold : e.2 ∉ w.pool.queue := by
      intro hh
      have hs := ho.queued.pending e.2 hh
      rw [Pool.state?, (hi.newcomers e hv hw).2.1] at hs
      cases hs
    rw [hi.queue, ← admits_iff ho]
    split_ifs with hadmits
    · simp [hadmits, hnew]
    · simp [hadmits, hold]

theorem supply_takesIn (ho : w.Organized) (hx : w.asking? x = some state)
    (answer : Except SourceFailure (List Endpoint)) :
    TakesIn (Pool.endpointsOf answer) w (w.perform (x.supply answer)) := by
  obtain ⟨n, _, hi⟩ := Pool.answered_intake w.pool state answer
  rw [← (perform_supply hx answer).1] at hi
  exact takesIn_of_intake ho hi

theorem supply_failure (hx : w.asking? x = some state) (failure : SourceFailure) :
    (∃ trace, (w.perform (x.supply (.error failure))).pool = { w.pool with trace }) ∧
    (state.pass.answered + 1 < w.pool.sources.length → 0 < w.pool.room →
      ∃ count, (w.perform (x.supply (.error failure))).asking? x =
        some ⟨⟨state.pass.answered + 1, state.pass.added⟩, state.pass.answered + 1, count⟩) := by
  obtain ⟨trace, hreceive⟩ := Pool.receive_error w.pool state.pass failure
  obtain ⟨hpool, hnext⟩ := perform_supply hx (.error failure)
  rw [hpool, hnext, Pool.answered_eq, hreceive]
  constructor
  · obtain ⟨later, hproceed⟩ := Pool.proceed_frame { w.pool with trace }
      ⟨state.pass.answered + 1, state.pass.added⟩
    exact ⟨later, hproceed⟩
  · intro hleft hroom
    refine ⟨w.pool.askCount, ?_⟩
    have hgo := Pool.proceed_eq { w.pool with trace } ⟨state.pass.answered + 1, state.pass.added⟩
    rw [hgo, if_pos ⟨hleft, hroom⟩]
    rfl

end World

/-- Over an empty storage and whatever the sources answer and whenever, the total stays
within the capacity; each question asks for at least one endpoint, and for no more than fit
at that moment or the batch size allows; a pass returns how many proxies its answers have
registered; an answer brings in new proxies alone and touches nothing that is known; and a
source that fails brings in nothing and the next one is asked. -/
theorem acquisition_keeps_to_capacity {settings : Settings} {sources : List String}
    {chooser : Chooser} {now : Instant} {actions : List Action} {w : World}
    (hw : (World.opening settings sources chooser now []).run? actions = some w) :
    w.pool.census.total ≤ settings.maxPoolSize ∧
    (∀ a x state, w.Enabled a = true → (w.perform a).asking? x = some state →
      w.asking? x ≠ some state →
        1 ≤ state.count ∧
        state.count ≤ settings.maxPoolSize - (w.perform a).pool.census.total ∧
        (0 < settings.fetchBatchSize → state.count ≤ settings.fetchBatchSize) ∧
        (w.perform a).pool.trace.back? =
          some (.fetch ((w.perform a).pool.sourceName state.source) state.count)) ∧
    (∀ i added, w.passes[i]? = some (.finished added) →
      added = (World.opening settings sources chooser now []).insertedBy i actions) ∧
    (∀ x state answer, w.asking? x = some state →
      w.TakesIn (Pool.endpointsOf answer) (w.perform (x.supply answer))) ∧
    ∀ x state failure, w.asking? x = some state →
      (∃ trace, (w.perform (x.supply (.error failure))).pool = { w.pool with trace }) ∧
      (state.source + 1 < w.pool.sources.length → w.pool.census.total < settings.maxPoolSize →
        ∃ next, (w.perform (x.supply (.error failure))).asking? x = some next ∧
          next.source = state.source + 1 ∧ next.pass.added = state.pass.added) := by
  have hreach : (World.opening settings sources chooser now []).Reaches w := ⟨actions, hw⟩
  have ho := World.organized_of_reaches hreach
  have hsettings := World.settings_of_reaches hreach
  refine ⟨?_, fun a x state he hx hnew => ?_, fun i added hi => ?_, fun x state answer hx => ?_,
    fun x state failure hx => ?_⟩
  · refine hreach.keep_reached (P := fun w => w.pool.census.total ≤ settings.maxPoolSize)
      (fun u a hu he hle => ?_) (Nat.zero_le _)
    rw [← World.settings_of_reaches hu] at hle ⊢
    exact World.capacity_perform he (World.organized_of_reaches hu).books hle
  · have hasked := World.asked_within hx hnew
    rwa [Pool.room, World.settings_perform, hsettings] at hasked
  · have hadded := World.addedBy_run hw
      (World.opening_organized settings sources chooser now) i
    rw [World.addedBy, hi] at hadded
    rw [show added = _ from hadded]
    simp [World.addedBy, World.opening, World.ofPool]
  · exact World.supply_takesIn ho hx answer
  · obtain ⟨hsame, hnext⟩ := World.supply_failure hx failure
    have hturn : w.InTurn := hreach.keep (P := World.InTurn)
      (fun w a _ => World.inTurn_perform w a) (fun x state hx => by cases x <;> cases hx)
    refine ⟨hsame, fun hleft hroom => ?_⟩
    rw [hturn x state hx] at hleft ⊢
    have hroom : 0 < w.pool.room := by
      rw [Pool.room, hsettings]
      omega
    obtain ⟨count, hask⟩ := hnext hleft hroom
    exact ⟨_, hask, rfl, rfl⟩

/-- Two passes are sized by the same room, and the answer that comes second finds none. -/
theorem acquisition_keeps_to_capacity_of_two :
    ∃ actions w, (World.opening { Settings.standard with maxPoolSize := 2 } ["s", "t"]
        (.roundRobin 0) 0 []).run? actions = some w ∧
      actions = [.fetch, .fetch, .supplyPass 0 (.error .download),
        .supplyPass 0 (.ok [.plain "a" 1 .http, .plain "a" 1 .http, .plain "b" 1 .http]),
        .supplyPass 1 (.ok [.plain "b" 1 .http, .plain "c" 1 .http])] ∧
      w.pool.census.total ≤ 2 ∧ w.passes = #[.finished 2, .finished 0] ∧
      2 = (World.opening { Settings.standard with maxPoolSize := 2 } ["s", "t"]
        (.roundRobin 0) 0 []).insertedBy 0 actions := by
  let actions : List Action :=
    [.fetch, .fetch, .supplyPass 0 (.error .download),
      .supplyPass 0 (.ok [.plain "a" 1 .http, .plain "a" 1 .http, .plain "b" 1 .http]),
      .supplyPass 1 (.ok [.plain "b" 1 .http, .plain "c" 1 .http])]
  have hrun : ((World.opening { Settings.standard with maxPoolSize := 2 } ["s", "t"]
      (.roundRobin 0) 0 []).run? actions).map (fun w =>
        decide (w.passes = #[.finished 2, .finished 0])) = some true := by
    decide +kernel
  obtain ⟨w, hw, hfacts⟩ := Option.map_eq_some_iff.mp hrun
  have hpasses := of_decide_eq_true hfacts
  obtain ⟨htotal, _, hreturned, _⟩ := acquisition_keeps_to_capacity hw
  exact ⟨actions, w, hw, rfl, htotal, hpasses, hreturned 0 2 (by rw [hpasses]; rfl)⟩

end ProxyLease
