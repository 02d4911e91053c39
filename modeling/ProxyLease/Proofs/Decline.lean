import Mathlib.Data.Set.Finite.Basic
import ProxyLease.Proofs.Progress
import ProxyLease.Proofs.Threshold
import ProxyLease.Proofs.Upkeep

/-!
# The decline of a pool

A proxy that fails comes back from its rest and fails again, until it is disabled, as long as
it stays young enough for a probe. If one proxy after the other does so, in the end a pool
holds disabled ones only. Nobody takes part in such a run but a source, one worker and the
loop that ends cooldowns.
-/

namespace ProxyLease

namespace Pool

variable {p q : Pool} {h k : Handle} {n : Nat} {o : Outcome} {x : Record Float}

/-- There never were more proxies than a number, and all of them are disabled. -/
def Spent (n : Nat) (p : Pool) : Prop :=
  ∀ h, p.state? h = if h < n then some .disabled else none

/-- All proxies are disabled but the last, and that one is queued while it is pending. -/
structure Spends (n : Nat) (x : Record Float) (p : Pool) : Prop where
  record : p.record? n = some x
  others : ∀ h, h ≠ n → p.state? h = if h < n then some .disabled else none
  queued : x.state = .pending → n ∈ p.queue

namespace Spends

theorem change {y : Record Float} (hp : p.Spends n x)
    (hq : ∀ k, q.record? k = if k = n then some y else p.record? k)
    (hqueued : y.state = .pending → n ∈ q.queue) : q.Spends n y where
  record := by rw [hq, if_pos rfl]
  others h hh := by rw [state?, hq, if_neg hh, ← state?, hp.others h hh]
  queued := hqueued

theorem state (hp : p.Spends n x) : p.state? n = some x.state := by
  rw [state?, hp.record, Option.map_some]

theorem eq_of_state (hp : p.Spends n x) {s : Lifecycle} (hs : p.state? h = some s)
    (hne : s ≠ .disabled) : h = n := by
  by_contra hh
  rw [hp.others h hh] at hs
  split_ifs at hs
  exact hne (Option.some.inj hs).symm

theorem mem_rested (hp : p.Spends n x) (he : p.Enrolled) (hs : x.state = .cooldown)
    {last : Instant} (hlast : x.statistics.lastFailureAt = some last)
    (hrested : p.settings.cooldownDuration ≤ .since last p.now) :
    k ∈ (p.proxiesIn .cooldown).filter p.isRested ↔ k = n := by
  rw [List.mem_filter]
  constructor
  · rintro ⟨hk, -⟩
    exact hp.eq_of_state (mem_proxiesIn.mp hk).2 nofun
  · rintro rfl
    refine ⟨he.mem_proxiesIn (hp.state.trans (congrArg some hs)) nofun nofun, ?_⟩
    rw [isRested_iff]
    refine ⟨x.statistics, ?_, last, hlast, hrested⟩
    rw [statistics?, hp.record, Option.map_some]

end Spends

namespace Spent

theorem size (hp : p.Spent n) : p.records.size = n := by
  have hnext := hp p.records.size
  rw [state?_size] at hnext
  refine le_antisymm (Nat.le_of_not_lt fun hlt => ?_) (Nat.le_of_not_lt fun hlt => ?_)
  · have hnone := hp n
    rw [if_neg (Nat.lt_irrefl n), state?, record?, Array.getElem?_eq_getElem hlt] at hnone
    cases hnone
  · rw [if_pos hlt] at hnext
    cases hnext

theorem mem_handles (hp : p.Spent n) (he : p.Enrolled) : h ∈ p.registry.handles ↔ h < n := by
  refine ⟨fun hh => hp.size ▸ he.lt_size hh, fun hlt => ?_⟩
  exact he.mem_handles ((hp h).trans (if_pos hlt)) nofun nofun

theorem states (hp : p.Spent n) (he : p.Enrolled) : p.states = List.replicate n .disabled := by
  have hhandles : p.registry.handles.Perm (List.range n) := by
    rw [List.perm_ext_iff_of_nodup he.nodup List.nodup_range]
    intro h
    rw [hp.mem_handles he, List.mem_range]
  have hdisabled : p.states = p.registry.handles.filterMap (some ∘ fun _ => .disabled) :=
    List.filterMap_congr fun h hh => (hp h).trans (if_pos ((hp.mem_handles he).mp hh))
  rw [hdisabled, List.filterMap_eq_map, List.map_const', hhandles.length_eq, List.length_range]

theorem total (hp : p.Spent n) (hb : p.Books True) : p.census.total = n := by
  rw [(hb.balanced trivial).total, hp.states hb.enrolled]
  simp [List.countP_replicate]

/-- Nobody is available, so no ceiling keeps new proxies from their probes. -/
theorem admits (hp : p.Spent n) (hb : p.Books True)
    (hceiling : p.settings.maxAvailableForValidation ≠ some 0) : p.admitsValidation = true := by
  have hnone : p.census.count .available = 0 := by
    refine ((hb.balanced trivial).count .available nofun).trans ?_
    rw [hp.states hb.enrolled]
    simp [List.count_replicate]
  unfold admitsValidation
  split
  · rfl
  · next ceiling heq =>
    rw [hnone, decide_eq_true_eq]
    exact Nat.pos_of_ne_zero fun hzero => hceiling (hzero ▸ heq)

theorem enter (hp : p.Spent n) (hadmits : p.admitsValidation = true) {e : Endpoint}
    (ha : p.admit? e = some q) :
    q.Spends n (.fresh e p.now (burstOf p.settings.maxRequestsPerSecond)) where
  record := by rw [record?_register ha, if_pos hp.size.symm]
  others h hh := by rw [state?_register ha, if_neg (hp.size.symm ▸ hh), hp h]
  queued _ := by
    rw [queue_register ha, if_pos hadmits, hp.size]
    exact List.mem_append_right _ (List.mem_singleton_self n)

end Spent

theorem exists_unregistered (p : Pool) : ∃ e : Endpoint, p.registry.get? e.id = none := by
  let named (k : Nat) : Endpoint := .plain (String.ofList (List.replicate k 'a')) 80 .http
  have hinjective : Function.Injective fun k => (named k).id := by
    intro j k hjk
    have hlength := congrArg (fun id : String => id.toList.length) hjk
    simpa [named, Endpoint.id, Endpoint.plain] using hlength
  obtain ⟨id, ⟨k, rfl⟩, hnew⟩ := (Set.infinite_range_of_injective hinjective).exists_notMem_finset
    (p.registry.entries.map (·.1)).toFinset
  refine ⟨named k, get?_eq_none_iff.mpr fun d hd heq => hnew ?_⟩
  rw [List.mem_toFinset]
  exact List.mem_map.mpr ⟨d, hd, heq⟩

theorem record?_endProbe (hs : p.state? h = some .validating) (hx : p.record? h = some x)
    (hbad : o.isSuccess = false) : (p.endProbe h o).record? k = if k = h
      then some (x.judged p.settings (x.statistics.recordValidation o) false)
      else p.record? k := by
  obtain ⟨r, trace, hr, he⟩ := endProbe_of_validating hs o
  have hrun : (p.probed h o).failureRun h = (x.statistics.recordValidation o).failureRun :=
    RecordLaw.failureRun_restat_of_record (p := { p with census := _ }) hx
  rw [hbad, if_neg Bool.false_ne_true] at he
  rw [he, record?_verdict (f := (·.recordValidation o)) hs
    (ne_failureState (by decide) (by decide) _ _) (by rw [hr]; rfl), hrun]
  split_ifs with hk
  · rw [hk, hx]
    rfl
  · rfl

theorem endProbe_frame (hs : p.state? h = some .validating) (hbad : o.isSuccess = false) :
    (p.endProbe h o).sources = p.sources ∧ (p.endProbe h o).now = p.now := by
  obtain ⟨r, trace, hr, he⟩ := endProbe_of_validating hs o
  rw [hbad, if_neg Bool.false_ne_true] at he
  obtain ⟨records, registry, census, trace', hframe⟩ := transfer_frame r h .validating
    (failureState ((p.probed h o).failureRun h) p.settings.maxConsecutiveFailures)
  rw [he, hframe, hr]
  exact ⟨rfl, rfl⟩

end Pool

namespace World

variable {settings : Settings} {u w v : World} {stage next : WorkerStage} {h k : Handle}
  {n run : Nat} {x : Record Float} {a : Action}

/-- A step is no report, and if it ends a probe, the outcome is dated at this time. -/
def IsUnattended (w : World) : Action → Prop
  | .conclude _ outcome => outcome.validatedAt = w.now
  | a => a.isReport = false

def ReachesUnattended : World → World → Prop :=
  Relation.ReflTransGen fun w v => ∃ a, w.IsUnattended a ∧ w.Enabled a = true ∧ w.perform a = v

namespace ReachesUnattended

theorem step (he : w.Enabled a = true) (ha : w.IsUnattended a) :
    w.ReachesUnattended (w.perform a) := Relation.ReflTransGen.single ⟨a, ha, he, rfl⟩

theorem trans (huv : u.ReachesUnattended v) (hvw : v.ReachesUnattended w) :
    u.ReachesUnattended w := Relation.ReflTransGen.trans huv hvw

end ReachesUnattended

/-- A run is under way: its first worker is at some stage, and the loop that ends cooldowns is
due within a period. -/
structure Underway (settings : Settings) (stage : WorkerStage) (w : World) : Prop where
  organized : w.Organized
  configured : w.pool.settings = settings
  sources : w.pool.sources ≠ []
  running : w.pool.running = true
  worker : w.workers[0]? = some ⟨false, stage⟩
  loop : ∃ due, w.loops[2]? = some ⟨.coolDown, due, false, .sleeping⟩ ∧
    due ≤ w.now + (period settings .coolDown).ns

theorem resize_of_nobody (hruns : w.pool.running = true) (hworkers : w.workers = #[])
    (hactive : w.active = []) : w.resize.loops = w.loops ∧
      w.resize.workers = Array.replicate w.pool.concurrency ⟨false, .idle⟩ := by
  have hkept : (List.range w.pool.concurrency).drop w.pool.concurrency = [] :=
    List.drop_of_length_le (Nat.le_of_eq List.length_range)
  rw [resize, if_pos hruns]
  refine ⟨rfl, ?_⟩
  simp [hire, dismiss, cancelWorkers, hworkers, hactive, hkept]

theorem underway_start {sources : List String} (hsources : sources ≠ []) (chooser : Chooser)
    (now : Instant) :
    Underway settings .idle ((opening settings sources chooser now []).perform .start) := by
  have ho := opening_organized settings sources chooser now
  suffices hbegun : ∀ v, (opening settings sources chooser now []).perform .start = v →
      v.pool.sources ≠ [] ∧ v.pool.running = true ∧ v.workers[0]? = some ⟨false, .idle⟩ ∧
        v.loops[2]? = some ⟨.coolDown, now, false, .sleeping⟩ ∧ now ≤ v.now by
    obtain ⟨hkept, hruns, hworker, hloop, hnow⟩ := hbegun _ rfl
    exact ⟨perform_organized rfl ho, settings_perform _ .start, hkept, hruns, hworker, now, hloop,
      Nat.le_trans hnow (Nat.le_add_right _ _)⟩
  rintro v rfl
  have hopen : (opening settings sources chooser now []).pool.sources ≠ [] := hsources
  have hclosed : ¬(opening settings sources chooser now []).pool.running = true := nofun
  rw [perform, start, if_neg hopen, if_neg hclosed]
  extract_lets counted chores looping staffed told
  obtain ⟨hloops, hworkers⟩ := resize_of_nobody (w := looping) rfl rfl rfl
  have hpool : staffed.pool = looping.pool := congrArg Desk.pool (desk_resize looping)
  obtain ⟨trace, hproceed⟩ := Pool.proceed_frame told.pool .start
  have hbegan : told.beginPass.2.pool = { told.pool with trace } := hproceed
  refine ⟨?_, ?_, ?_, ?_, ?_⟩
  · rw [hbegan]
    exact fun hnone => hsources ((congrArg (·.sources) hpool).symm.trans hnone)
  · rw [hbegan]
    exact congrArg (·.running) hpool
  · change staffed.workers[0]? = _
    rw [hworkers, Array.getElem?_replicate, if_pos]
    exact Nat.lt_of_lt_of_le Nat.one_pos (Nat.le_max_right _ _)
  · change staffed.loops[2]? = _
    rw [hloops]
    rfl
  · rw [World.now, hbegan]
    exact Nat.le_of_eq (congrArg (·.now) hpool).symm

namespace Underway

theorem step (hw : Underway settings stage w) (he : w.Enabled a = true) (hstart : a ≠ .start)
    (hstop : a ≠ .stop) (hsources : (w.perform a).pool.sources = w.pool.sources)
    (hworker : (w.perform a).workers[0]? = some ⟨false, next⟩)
    (hloop : ∃ due, (w.perform a).loops[2]? = some ⟨.coolDown, due, false, .sleeping⟩ ∧
      due ≤ (w.perform a).now + (period settings .coolDown).ns) :
    Underway settings next (w.perform a) where
  organized := perform_organized he hw.organized
  configured := (settings_perform w a).trans hw.configured
  sources := hsources ▸ hw.sources
  running := (running_perform w hstart hstop).trans hw.running
  worker := hworker
  loop := hloop

theorem take (hw : Underway settings .idle w) {rest : List Handle}
    (hqueue : w.pool.queue = h :: rest) (hs : w.pool.state? h = some .pending)
    (hyoung : w.pool.ageOf h < settings.proxyTtl) :
    w.Enabled (.take 0) = true ∧ Underway settings (.probing h) (w.perform (.take 0)) ∧
      (w.perform (.take 0)).now = w.now ∧ ∀ k, (w.perform (.take 0)).pool.record? k = if k = h
        then (w.pool.record? k).map fun x => { x with state := .validating }
        else w.pool.record? k := by
  have he : w.Enabled (.take 0) = true := by
    simp [Enabled, hw.worker, hqueue]
  have hne : Lifecycle.pending ≠ .validating := by decide
  let p : Pool := { w.pool with queue := rest }
  obtain ⟨records, registry, census, trace, hframe⟩ :=
    Pool.transfer_frame p h .pending .validating
  have htake : w.perform (.take 0) =
      { w with pool := (p.transfer h .pending .validating).emit (.check h) }.setWorkerStage 0
        (.probing h) := by
    have hold : ¬settings.proxyTtl ≤ w.pool.ageOf h := Nat.not_le.mpr hyoung
    rcases Pool.beginProbe_cases p h with ⟨hn, _⟩ | ⟨_, hle, _⟩ | ⟨_, _, hb⟩
    · exact absurd hs hn
    · exact absurd (hw.configured ▸ hle) hold
    · rw [perform, World.take, hqueue]
      dsimp only
      rw [hb]
      rfl
  refine ⟨he, hw.step he (by simp) (by simp) ?_ ?_ ?_, ?_, fun k => ?_⟩
  · rw [htake, hframe]
    rfl
  · rw [htake, setWorkerStage, Array.getElem?_modify, if_pos rfl, hw.worker]
    rfl
  · rw [htake, hframe]
    exact hw.loop
  · rw [htake, hframe]
    rfl
  · rw [htake]
    exact Pool.record?_transfer (p := p) hs hne

theorem conclude (hw : Underway settings (.probing h) w) (hx : w.pool.record? h = some x) :
    let a := Action.conclude 0 (.timeout w.now .zero)
    w.Enabled a = true ∧ Underway settings .idle (w.perform a) ∧ (w.perform a).now = w.now ∧
      ∀ k, (w.perform a).pool.record? k = if k = h
        then some (x.judged settings (x.statistics.recordValidation (.timeout w.now .zero)) false)
        else w.pool.record? k := by
  intro a
  have hstage : w.workerStage 0 = .probing h := by
    rw [workerStage, hw.worker]
    rfl
  have he : w.Enabled a = true := by simp [a, Enabled, hstage, Outcome.timeout]
  have hs := hw.organized.posted.validating 0 h hstage
  obtain ⟨hsources, htime⟩ := Pool.endProbe_frame hs (o := .timeout w.now .zero) rfl
  have hconclude : w.perform a =
      (w.mapPool (·.endProbe h (.timeout w.now .zero))).setWorkerStage 0 .idle := by
    simp [a, perform, World.conclude, hw.worker]
  have hnow : (w.perform a).now = w.now := by
    rw [hconclude]
    exact htime
  refine ⟨he, hw.step he (by simp) (by simp) ?_ ?_ ?_, hnow, fun k => ?_⟩
  · rw [hconclude]
    exact hsources
  · rw [hconclude, setWorkerStage, Array.getElem?_modify, if_pos rfl, mapPool, hw.worker]
    rfl
  · rw [hnow, hconclude]
    exact hw.loop
  · rw [hconclude, ← hw.configured]
    exact Pool.record?_endProbe hs hx rfl

theorem fail (hw : Underway settings .idle w) (hp : w.pool.Spends n x) (hs : x.state = .pending)
    (hyoung : x.age w.now < settings.proxyTtl) :
    ∃ v, w.ReachesUnattended v ∧ Underway settings .idle v ∧ v.now = w.now ∧ v.pool.Spends n
      (x.judged settings (x.statistics.recordValidation (.timeout w.now .zero)) false) := by
  have hpending : w.pool.state? n = some .pending := hp.state.trans (congrArg some hs)
  obtain ⟨h, rest, hqueue⟩ := List.exists_cons_of_ne_nil (List.ne_nil_of_mem (hp.queued hs))
  obtain rfl : h = n :=
    hp.eq_of_state (hw.organized.queued.pending h (hqueue ▸ List.mem_cons_self)) nofun
  have hage : w.pool.ageOf h < settings.proxyTtl := by
    rw [RecordLaw.ageOf_eq hp.record]
    exact hyoung
  obtain ⟨htake, hbusy, hbegun, hvalidating⟩ := hw.take hqueue hpending hage
  have hrecord := hvalidating h
  rw [if_pos rfl, hp.record] at hrecord
  obtain ⟨hconclude, hidle, hended, hjudged⟩ := hbusy.conclude hrecord
  rw [hbegun] at hconclude hidle hended hjudged
  refine ⟨_, (ReachesUnattended.step htake rfl).trans (.step hconclude hbegun.symm), hidle, hended, ?_⟩
  refine hp.change (fun k => ?_) fun hq => ?_
  · rw [hjudged, hvalidating]
    split_ifs <;> rfl
  · exact absurd hq (Pool.ne_failureState (by decide) (by decide) _ _).symm

theorem tick (hw : Underway settings .idle w) {due : Instant}
    (hloop : w.loops[2]? = some ⟨.coolDown, due, false, .sleeping⟩) (hdue : due ≤ w.now) :
    w.Enabled (.tick 2) = true ∧ Underway settings .idle (w.perform (.tick 2)) ∧
      (w.perform (.tick 2)).now = w.now ∧ Pool.Requeued .cooldown
        ((w.pool.proxiesIn .cooldown).filter w.pool.isRested) w.pool (w.perform (.tick 2)).pool := by
  have he : w.Enabled (.tick 2) = true := by simp [Enabled, hloop, hdue]
  have henrolled := hw.organized.books.enrolled
  have hmoved := Pool.sweep_requeued Pool.isRested Pool.isRested_congr .recover henrolled
    (henrolled.nodup_proxiesIn .cooldown) fun h hh => (Pool.mem_proxiesIn.mp hh).2
  rw [← Pool.requeueRested_eq_sweep, ← tick_coolDown hloop rfl] at hmoved
  have hnow : (w.perform (.tick 2)).now = w.now := hmoved.now
  refine ⟨he, hw.step he (by simp) (by simp) ?_ ?_ ?_, hnow, hmoved⟩
  · obtain ⟨trace, hframe⟩ := hmoved.frame
    rw [hframe]
  · rw [perform, World.tick, hloop]
    exact hw.worker
  · refine ⟨nextTick due w.now (period settings .coolDown), ?_, ?_⟩
    · rw [perform, World.tick, hloop, ← hw.configured]
      change (w.loops.modify 2 _)[2]? = _
      rw [Array.getElem?_modify, if_pos rfl, hloop]
      rfl
    · rw [hnow, nextTick]
      split_ifs
      · exact Nat.le_refl _
      · exact Nat.add_le_add_right hdue _

theorem rest (hw : Underway settings .idle w) (hp : w.pool.Spends n x) (hs : x.state = .cooldown)
    (hlast : x.statistics.lastFailureAt = some w.now) :
    ∃ v, w.ReachesUnattended v ∧ Underway settings .idle v ∧
      v.now = w.now + (period settings .coolDown).ns ∧
      v.pool.Spends n { x with state := .pending } := by
  obtain ⟨due, hloop, hdue⟩ := hw.loop
  have hadvance : w.Enabled (.advance (period settings .coolDown)) = true := rfl
  have hlater : Underway settings .idle (w.perform (.advance (period settings .coolDown))) :=
    hw.step hadvance nofun nofun rfl hw.worker
      ⟨due, hloop, Nat.le_trans hdue (Nat.le_add_right _ _)⟩
  have hstill : (w.perform (.advance (period settings .coolDown))).pool.Spends n x :=
    ⟨hp.record, hp.others, hp.queued⟩
  have hlapse : (w.perform (.advance (period settings .coolDown))).now =
    w.now + (period settings .coolDown).ns := rfl
  obtain ⟨htick, hidle, hnow, hmoved⟩ := hlater.tick hloop hdue
  have hreached := (ReachesUnattended.step hadvance rfl).trans (.step htick rfl)
  generalize w.perform (.advance (period settings .coolDown)) = u at *
  have hrested : u.pool.settings.cooldownDuration ≤ .since w.now u.now := by
    have hperiod := Nat.add_le_add_left (Nat.le_max_left settings.cooldownDuration.ns
      shortestPeriod.ns) w.now
    rw [hlater.configured]
    exact Nat.le_sub_of_add_le' (Nat.le_trans hperiod (Nat.le_of_eq hlapse.symm))
  have hmem (k : Handle) :=
    hstill.mem_rested (k := k) hlater.organized.books.enrolled hs hlast hrested
  refine ⟨_, hreached, hidle, hnow.trans hlapse, hstill.change (fun k => ?_) fun _ => ?_⟩
  · rw [hmoved.record, if_congr (hmem k) rfl rfl]
    split_ifs with hk
    · rw [hk, hstill.record]
      rfl
    · rfl
  · obtain ⟨trace, hframe⟩ := hmoved.frame
    rw [hframe]
    exact List.mem_append_right _ ((hmem n).mpr rfl)

theorem answer (hw : Underway settings .idle w) (hp : w.pool.Spent n) {i : PassId}
    {state : Asking} (hx : w.asking? (.pass i) = some state) (hroom : n < settings.maxPoolSize)
    {e : Endpoint} {q : Pool} (ha : w.pool.admit? e = some q) :
    w.Enabled (.supplyPass i (.ok [e])) = true ∧
      Underway settings .idle (w.perform (.supplyPass i (.ok [e]))) ∧
      ∃ trace, (w.perform (.supplyPass i (.ok [e]))).pool = { q with trace } := by
  have he : w.Enabled (.supplyPass i (.ok [e])) = true :=
    (enabled_supply w (.pass i) _).trans (by rw [hx]; rfl)
  obtain ⟨call, hsupply, -⟩ := supplyPass_eq (asking_pass_iff.mp hx) (.ok [e])
  have hroom' : ¬w.pool.settings.maxPoolSize ≤ w.pool.census.total := by
    rw [hw.configured, hp.total hw.organized.books]
    exact Nat.not_le.mpr hroom
  have hreceive : (w.pool.receive state.pass (.ok [e])).2 = q := by
    change (w.pool.admitAll state.pass.added [e]).2 = q
    rw [Pool.admitAll, if_neg hroom', ha]
    rfl
  obtain ⟨trace, hproceed⟩ := Pool.proceed_frame (w.pool.receive state.pass (.ok [e])).2
    (w.pool.receive state.pass (.ok [e])).1
  have hpool : (answered w.pool state (.ok [e])).2.2 = { q with trace } := by
    rw [Pool.answered_eq, hproceed, hreceive]
  rw [hpool] at hsupply
  have hperform : w.perform (.supplyPass i (.ok [e])) = _ := hsupply
  obtain ⟨registry, queue, _, hq⟩ := Pool.admit?_eq_some ha
  refine ⟨he, hw.step he (by simp) (by simp) ?_ ?_ ?_, trace, ?_⟩
  · rw [hperform, hq]
  · rw [hperform]
    exact hw.worker
  · rw [hperform, hq]
    exact hw.loop
  · rw [hperform]

theorem arrive (hw : Underway settings .idle w) (hp : w.pool.Spent n)
    (hroom : n < settings.maxPoolSize) (hceiling : settings.maxAvailableForValidation ≠ some 0) :
    ∃ v e burst, w.ReachesUnattended v ∧ Underway settings .idle v ∧ v.now = w.now ∧
      v.pool.Spends n (.fresh e w.now burst) := by
  have hbooks := hw.organized.books
  have hfits : 0 < w.pool.room := by
    rw [Pool.room, hw.configured, hp.total hbooks]
    exact Nat.sub_pos_of_lt hroom
  have hgo : (proceed w.pool .start).1 = some ⟨.start, 0, w.pool.askCount⟩ := by
    rw [Pool.proceed_eq, if_pos ⟨List.length_pos_of_ne_nil hw.sources, hfits⟩]
    rfl
  obtain ⟨hx, hpool⟩ := fetch_asks hgo
  rw [(Pool.proceed_ask hgo).2.2.2] at hpool
  have hasked : Underway settings .idle (w.perform .fetch) := by
    refine hw.step rfl nofun nofun ?_ hw.worker ?_
    · rw [hpool]
      rfl
    · rw [World.now, hpool]
      exact hw.loop
  have hspent : (w.perform .fetch).pool.Spent n := by
    rw [hpool]
    exact hp
  have hnow : (w.perform .fetch).now = w.now := by
    rw [World.now, hpool]
    rfl
  have hfetch := ReachesUnattended.step (w := w) (a := .fetch) rfl rfl
  generalize w.perform .fetch = u at *
  obtain ⟨e, hnew⟩ := u.pool.exists_unregistered
  obtain ⟨q, ha⟩ := Option.isSome_iff_exists.mp (Pool.admit?_isSome_iff.mpr hnew)
  obtain ⟨he, hanswered, trace, hcame⟩ := hasked.answer hspent hx hroom ha
  have hqueued := hspent.admits hasked.organized.books (hasked.configured.symm ▸ hceiling)
  have hspends := hspent.enter hqueued ha
  have hsame : q.now = w.now := by
    obtain ⟨registry, queue, _, rfl⟩ := Pool.admit?_eq_some ha
    exact hnow
  refine ⟨_, e, burstOf u.pool.settings.maxRequestsPerSecond, hfetch.trans (.step he rfl), hanswered,
    ?_, ?_⟩
  · rw [World.now, hcame]
    exact hsame
  · rw [hcame, ← hnow]
    exact ⟨hspends.record, hspends.others, hspends.queued⟩

end Underway

/-- The last proxy waits for a probe after some failures in a row, each of which was followed by
a rest of one period. -/
structure Trial (settings : Settings) (n run : Nat) (w : World) : Prop where
  underway : Underway settings .idle w
  proxy : ∃ x, w.pool.Spends n x ∧ x.state = .pending ∧ x.statistics.failureRun = run ∧
    x.createdAt + run * (period settings .coolDown).ns = w.now

/-- The proxies of a run are disabled so far. -/
structure Wasted (settings : Settings) (n : Nat) (w : World) : Prop where
  underway : Underway settings .idle w
  spent : w.pool.Spent n

namespace Trial

theorem failed (hw : Trial settings n run w)
    (hpace : run * (period settings .coolDown).ns < settings.proxyTtl.ns) :
    ∃ v x, w.ReachesUnattended v ∧ Underway settings .idle v ∧ v.pool.Spends n x ∧
      x.state = failureState (run + 1) settings.maxConsecutiveFailures ∧
      x.statistics.failureRun = run + 1 ∧ x.statistics.lastFailureAt = some v.now ∧
      x.createdAt + run * (period settings .coolDown).ns = v.now := by
  obtain ⟨x, hp, hs, hrun, hlived⟩ := hw.proxy
  have hyoung : x.age w.now < settings.proxyTtl := by
    show w.now - x.createdAt < settings.proxyTtl.ns
    rwa [← hlived, Nat.add_sub_cancel_left]
  obtain ⟨v, hreached, hunder, hnow, hspends⟩ := hw.underway.fail hp hs hyoung
  have hfailures := Statistics.failureRun_recordValidation x.statistics (.timeout w.now .zero)
  have hlast := Statistics.lastFailureAt_recordValidation x.statistics (.timeout w.now .zero)
  rw [hrun] at hfailures
  refine ⟨v, _, hreached, hunder, hspends, ?_, hfailures, ?_, ?_⟩
  · rw [Record.judged, hfailures]
    rfl
  · rw [hnow]
    exact hlast
  · rw [hnow]
    exact hlived

/-- A failure below the limit is followed by a rest and another trial. -/
theorem again (hw : Trial settings n run w)
    (hpace : run * (period settings .coolDown).ns < settings.proxyTtl.ns)
    (hlimit : run + 1 < settings.failureLimit) :
    ∃ v, w.ReachesUnattended v ∧ Trial settings n (run + 1) v := by
  obtain ⟨u, x, hfailed, hunder, hp, hs, hrun, hlast, hlived⟩ := hw.failed hpace
  have hrests : x.state = .cooldown := by
    rw [hs, failureState, if_neg]
    intro hle
    have hmax := Nat.max_le.mpr ⟨hle, Nat.le_add_left 1 run⟩
    exact Nat.not_lt.mpr hmax hlimit
  obtain ⟨v, hrested, hidle, hnow, hspends⟩ := hunder.rest hp hrests hlast
  refine ⟨v, hfailed.trans hrested, hidle, _, hspends, rfl, hrun, ?_⟩
  rw [hnow, Nat.succ_mul, ← Nat.add_assoc]
  exact congrArg (· + _) hlived

theorem last (hw : Trial settings n run w)
    (hpace : run * (period settings .coolDown).ns < settings.proxyTtl.ns)
    (hlimit : run + 1 = settings.failureLimit) :
    ∃ v, w.ReachesUnattended v ∧ Wasted settings (n + 1) v := by
  obtain ⟨v, x, hfailed, hunder, hp, hs, -⟩ := hw.failed hpace
  refine ⟨v, hfailed, hunder, fun h => ?_⟩
  by_cases hh : h = n
  · subst hh
    rw [Pool.state?, hp.record, Option.map_some, hs, failureState, if_pos, if_pos]
    · exact Nat.lt_succ_self h
    · rw [hlimit]
      exact Nat.le_max_left _ _
  · rw [hp.others h hh]
    exact if_congr ⟨Nat.lt_succ_of_lt, fun hlt => Nat.lt_of_le_of_ne (Nat.le_of_lt_succ hlt) hh⟩
      rfl rfl

/-- A new proxy fails until it is disabled, if it stays young enough. -/
theorem wasted (hw : Trial settings n 0 w)
    (hpace : (settings.failureLimit - 1) * (period settings .coolDown).ns < settings.proxyTtl.ns) :
    ∃ v, w.ReachesUnattended v ∧ Wasted settings (n + 1) v := by
  have hlimit : 1 ≤ settings.failureLimit := Nat.le_max_right _ _
  have hyoung {run : Nat} (hrun : run < settings.failureLimit) :
      run * (period settings .coolDown).ns < settings.proxyTtl.ns :=
    Nat.lt_of_le_of_lt (Nat.mul_le_mul_right _ (Nat.le_sub_one_of_lt hrun)) hpace
  have htrials : ∀ run < settings.failureLimit,
      ∃ v, w.ReachesUnattended v ∧ Trial settings n run v := by
    intro run
    induction run with
    | zero => exact fun _ => ⟨w, .refl, hw⟩
    | succ run ih =>
      intro hrun
      have hbefore := Nat.lt_of_succ_lt hrun
      obtain ⟨u, hu, htrial⟩ := ih hbefore
      obtain ⟨v, hv, hnext⟩ := htrial.again (hyoung hbefore) hrun
      exact ⟨v, hu.trans hv, hnext⟩
  have hlast := Nat.sub_one_lt_of_lt hlimit
  obtain ⟨u, hu, htrial⟩ := htrials _ hlast
  obtain ⟨v, hv, hwasted⟩ := htrial.last (hyoung hlast) (Nat.sub_add_cancel hlimit)
  exact ⟨v, hu.trans hv, hwasted⟩

end Trial

/-- One proxy after the other is wasted, up to the capacity of the pool. -/
theorem exists_wasted {sources : List String} (hsources : sources ≠ []) (chooser : Chooser)
    (now : Instant) (hceiling : settings.maxAvailableForValidation ≠ some 0)
    (hpace : (settings.failureLimit - 1) * (period settings .coolDown).ns < settings.proxyTtl.ns) :
    ∀ n ≤ settings.maxPoolSize,
      ∃ w, (opening settings sources chooser now []).ReachesUnattended w ∧ Wasted settings n w := by
  intro n
  induction n with
  | zero =>
    intro _
    refine ⟨_, .step (a := .start) rfl rfl, underway_start hsources chooser now, fun h => ?_⟩
    rw [perform, Pool.state?_of_records (start_sameProxies _).1]
    rfl
  | succ n ih =>
    intro hn
    obtain ⟨w, hw, hwasted⟩ := ih (Nat.le_of_succ_le hn)
    obtain ⟨u, e, burst, hu, hunder, hnow, hp⟩ :=
      hwasted.underway.arrive hwasted.spent hn hceiling
    have htrial : Trial settings n 0 u := by
      refine ⟨hunder, _, hp, rfl, rfl, ?_⟩
      rw [Nat.zero_mul, hnow]
      rfl
    obtain ⟨v, hv, hmore⟩ := htrial.wasted hpace
    exact ⟨v, (hw.trans hu).trans hv, hmore⟩

end World
end ProxyLease
