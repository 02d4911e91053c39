import ProxyLease.Proofs.Restored
import ProxyLease.Proofs.Stop
import ProxyLease.Proofs.World.Fate

/-!
# Passes of upkeep

A pass of upkeep sends the registered proxies of one state back to the queue that are due. It
finds all of them and no others, each goes to the end of the queue once, and besides figures
and trace nothing else changes, so a second pass at the same time finds nothing to do. A
proxy in cooldown becomes pending in such a pass and in no other step.
-/

namespace ProxyLease

namespace Pool

variable {c : Concern} {p q r : Pool} {h k : Handle} {s : Lifecycle}
  {due : Pool → Handle → Bool} {moved later : List Handle}

theorem isStale_eq (p : Pool) (h : Handle) :
    p.isStale h = match (p.statistics? h).bind (·.lastValidatedAt) with
      | none => true
      | some last => decide (p.settings.validationInterval ≤ .since last p.now) := by
  have hlast : (p.statistics? h).bind (·.lastValidatedAt) =
      (p.record? h).bind (·.statistics.lastValidatedAt) := by
    rw [statistics?]
    cases p.record? h <;> rfl
  rw [hlast]
  rfl

theorem isStale_iff {a : Statistics Float} (ha : p.statistics? h = some a)
    (hprobed : ∃ last, a.lastValidatedAt = some last) :
    p.isStale h = true ↔ ∃ a, p.statistics? h = some a ∧
      ∃ last, a.lastValidatedAt = some last ∧ p.settings.validationInterval ≤ .since last p.now := by
  obtain ⟨last, hlast⟩ := hprobed
  rw [isStale_eq, ha, Option.bind_some, hlast]
  simp [hlast]

theorem isRested_iff (p : Pool) (h : Handle) :
    p.isRested h = true ↔ ∃ a, p.statistics? h = some a ∧
      ∃ last, a.lastFailureAt = some last ∧ p.settings.cooldownDuration ≤ .since last p.now := by
  rw [isRested_eq]
  cases p.statistics? h with
  | none => simp
  | some a => cases hlast : a.lastFailureAt <;> simp [hlast]

theorem isStale_congr (hstat : q.statistics? h = p.statistics? h)
    (hsettings : q.settings = p.settings) (hnow : q.now = p.now) : q.isStale h = p.isStale h := by
  rw [isStale_eq, isStale_eq, hstat, hsettings, hnow]

/-! ### Passes -/

def atTime (p : Pool) (t : Instant) : Pool := { p with now := t }

/-- Sends the proxies of a list back to the queue that are due. -/
def sweep (p : Pool) (s : Lifecycle) (due : Pool → Handle → Bool) (list : List Handle) : Pool :=
  list.foldl (fun q h => if due q h then q.requeue h s else q) p

theorem requeueStale_eq_sweep (p : Pool) :
    p.requeueStale = p.sweep .available isStale (p.proxiesIn .available) := rfl

theorem requeueRested_eq_sweep (p : Pool) :
    p.requeueRested = p.sweep .cooldown isRested (p.proxiesIn .cooldown) := rfl

/-- Some proxies went from a state to the end of the queue, and the census tells so. Besides
the trace, nothing else is different. -/
structure Requeued (s : Lifecycle) (moved : List Handle) (p q : Pool) : Prop where
  frame : ∃ trace, q = { p with
    records := q.records, census := q.census, queue := p.queue ++ moved, trace }
  record : ∀ k, q.record? k =
    if k ∈ moved then (p.record? k).map fun r => { r with state := .pending } else p.record? k
  census : q.census = moved.foldl (fun c _ => c.change p.now s .pending) p.census

namespace Requeued

theorem refl (s : Lifecycle) (p : Pool) : Requeued s [] p p where
  frame := ⟨p.trace, by rw [List.append_nil]⟩
  record k := by simp
  census := rfl

theorem now (hq : Requeued s moved p q) : q.now = p.now := by
  obtain ⟨trace, he⟩ := hq.frame
  rw [he]

theorem settings (hq : Requeued s moved p q) : q.settings = p.settings := by
  obtain ⟨trace, he⟩ := hq.frame
  rw [he]

theorem registry (hq : Requeued s moved p q) : q.registry = p.registry := by
  obtain ⟨trace, he⟩ := hq.frame
  rw [he]

theorem trans (hpq : Requeued s moved p q) (hqr : Requeued s later q r) :
    Requeued s (moved ++ later) p r where
  frame := by
    obtain ⟨trace, hq⟩ := hpq.frame
    obtain ⟨trace', hr⟩ := hqr.frame
    rw [hq] at hr
    exact ⟨trace', by rw [← List.append_assoc]; exact hr⟩
  record k := by
    rw [hqr.record, hpq.record]
    by_cases hearly : k ∈ moved <;> by_cases hlate : k ∈ later <;>
      simp [hearly, hlate, Function.comp_def]
  census := by
    rw [hqr.census, hpq.census, hpq.now, List.foldl_append]

theorem statistics (hq : Requeued s moved p q) (k : Handle) :
    q.statistics? k = p.statistics? k := by
  rw [statistics?, hq.record, statistics?]
  split_ifs
  · cases p.record? k <;> rfl
  · rfl

theorem state_of_not_mem (hq : Requeued s moved p q) (hk : k ∉ moved) :
    q.state? k = p.state? k := by
  rw [state?, hq.record, if_neg hk, state?]

theorem not_mem_of_state (hq : Requeued s moved p q) (hk : q.state? k = some s)
    (hne : s ≠ .pending) : k ∉ moved := by
  intro hmem
  rw [state?, hq.record, if_pos hmem] at hk
  obtain ⟨r, hr, hs⟩ := Option.map_eq_some_iff.mp hk
  obtain ⟨x, -, rfl⟩ := Option.map_eq_some_iff.mp hr
  exact hne hs.symm

end Requeued

theorem requeue_requeued (he : p.Enrolled) (hs : p.state? h = some s) (hr : Route s .pending) :
    Requeued s [h] p (p.requeue h s) ∧ (p.requeue h s).Enrolled := by
  obtain ⟨id, hid⟩ := exists_id_of_state hs
  have hmem : h ∈ p.registry.handles :=
    he.mem_handles hs hr.source_ne_expired fun hu => absurd hu hr.source_ne_inUse
  have hkept := Registry.update_self he.keyed (he.mem_entries hmem hid)
  have hbooks : Books False (p.transfer h s .pending) :=
    Books.transfer ⟨he, nofun⟩ hs hr.ne hr.source_ne_expired fun hu => absurd hu hr.source_ne_inUse
  rw [requeue_eq hs hr.ne]
  refine ⟨⟨?_, fun k => ?_, ?_⟩, hbooks.enrolled.keyed, hbooks.enrolled.named, hbooks.enrolled.gone⟩
  · rw [transfer_eq hs hid hr.ne, if_neg (by decide), hkept]
    exact ⟨_, rfl⟩
  · simp only [List.mem_singleton]
    exact record?_transfer hs hr.ne
  · rw [transfer_eq hs hid hr.ne]
    rfl

/-- Whether a proxy is due depends on its own statistics, the settings and the time. -/
def DependsOnStatistics (due : Pool → Handle → Bool) : Prop :=
  ∀ {p q : Pool} {h : Handle}, q.statistics? h = p.statistics? h → q.settings = p.settings →
    q.now = p.now → due q h = due p h

theorem sweep_requeued (due : Pool → Handle → Bool) (hdue : DependsOnStatistics due)
    (hr : Route s .pending) {list : List Handle} (he : p.Enrolled) (hlist : list.Nodup)
    (hs : ∀ h ∈ list, p.state? h = some s) :
    Requeued s (list.filter (due p)) p (p.sweep s due list) := by
  induction list generalizing p with
  | nil => exact .refl s p
  | cons h rest ih =>
    obtain ⟨hnew, hrest⟩ := List.nodup_cons.mp hlist
    rw [sweep, List.foldl_cons, List.filter_cons]
    split_ifs with hh
    · obtain ⟨hmoved, he'⟩ := requeue_requeued he (hs h List.mem_cons_self) hr
      have hsame : rest.filter (due (p.requeue h s)) = rest.filter (due p) :=
        List.filter_congr fun k _ => hdue (hmoved.statistics k) hmoved.settings hmoved.now
      have hstates : ∀ k ∈ rest, (p.requeue h s).state? k = some s := by
        intro k hk
        rw [hmoved.state_of_not_mem fun hkh => hnew (List.mem_singleton.mp hkh ▸ hk)]
        exact hs k (List.mem_cons_of_mem h hk)
      rw [← hsame]
      exact hmoved.trans (ih he' hrest hstates)
    · exact ih he hrest fun k hk => hs k (List.mem_cons_of_mem h hk)

theorem sweep_eq_self {list : List Handle} (hnone : ∀ h ∈ list, due p h = false) :
    p.sweep s due list = p := by
  refine List.foldlRecOn (motive := fun q : Pool => q = p) _ _ rfl ?_
  rintro q rfl h hh
  rw [hnone h hh]
  rfl

theorem sweep_again (hr : Route s .pending) (hdue : DependsOnStatistics due)
    (hq : Requeued s ((p.proxiesIn s).filter (due p)) p q) : q.sweep s due (q.proxiesIn s) = q := by
  apply sweep_eq_self
  intro h hh
  obtain ⟨hmem, hstate⟩ := mem_proxiesIn.mp hh
  have hstayed := hq.not_mem_of_state hstate hr.ne
  rw [hdue (hq.statistics h) hq.settings hq.now]
  by_contra hn
  apply hstayed
  refine List.mem_filter.mpr ⟨mem_proxiesIn.mpr ⟨hq.registry ▸ hmem, ?_⟩, by simpa using hn⟩
  rwa [← hq.state_of_not_mem hstayed]

theorem Enrolled.nodup_proxiesIn (he : p.Enrolled) (s : Lifecycle) : (p.proxiesIn s).Nodup :=
  he.nodup.filter _

/-- A pass sends exactly those of the registered proxies in a state back to the queue that are
due, each once, and finds nothing to do the second time. -/
structure Sweeps (pass : Pool → Pool) (s : Lifecycle) (due : Statistics Float → Prop) (p : Pool) :
    Prop where
  exact : ∃ moved : List Handle, Requeued s moved p (pass p) ∧
    (∀ h, h ∈ moved ↔ h ∈ p.proxiesIn s ∧ ∃ a, p.statistics? h = some a ∧ due a) ∧
    (p.queue ++ moved).Nodup
  again : pass (pass p) = pass p

theorem sweeps_of_sweep {pass : Pool → Pool} {isDue : Statistics Float → Prop}
    (due : Pool → Handle → Bool) (hdepends : DependsOnStatistics due)
    (hpass : ∀ p : Pool, pass p = p.sweep s due (p.proxiesIn s)) (hr : Route s .pending)
    (he : p.Enrolled) (hqueued : p.Queued)
    (hdue : ∀ h ∈ p.proxiesIn s, due p h = true ↔ ∃ a, p.statistics? h = some a ∧ isDue a) :
    Sweeps pass s isDue p := by
  have hstates : ∀ h ∈ p.proxiesIn s, p.state? h = some s := fun h hh => (mem_proxiesIn.mp hh).2
  have hmoved := sweep_requeued due hdepends hr he (he.nodup_proxiesIn s) hstates
  constructor
  · refine ⟨_, (hpass p).symm ▸ hmoved, fun h => ?_, ?_⟩
    · rw [List.mem_filter]
      exact and_congr_right fun hh => hdue h hh
    · refine List.nodup_append.mpr ⟨hqueued.nodup, (he.nodup_proxiesIn s).filter _, ?_⟩
      intro h hh k hk
      have hstate := hstates k (List.mem_of_mem_filter hk)
      exact hqueued.ne_of_state hh hstate hr.ne
  · rw [hpass (pass p), hpass p]
    exact sweep_again hr hdepends hmoved

/-! ### Cooldown -/

theorem Beat.cooldown (hb : Beat c p q) (hc : c ≠ .upkeep) (hs : p.state? h = some .cooldown) :
    q.state? h = some .cooldown := by
  cases hb with
  | still hstate => rw [hstate, hs]
  | @move k s t hm hqueue hsource htarget =>
    rw [hm.other, hs]
    rintro rfl
    obtain rfl : s = .cooldown := Option.some.inj (hm.source.symm.trans hs)
    exact htarget (List.mem_singleton.mp hm.next)
  | requeue k hupkeep => exact absurd hupkeep hc
  | register _ hstate =>
    rw [hstate, if_neg, hs]
    rintro rfl
    simp at hs
  | begin k hprobe hb =>
    by_cases hk : h = k
    · subst hk
      cases hb with
      | skip hqueue hn hstate => rw [hstate, hs]
      | expire hqueue hfirst | check hqueue hyoung hfirst =>
        rw [hfirst.source] at hs
        cases hs
    · rw [hb.other hk, hs]

theorem Beats.cooldown (hb : Beats c p q) (hc : c ≠ .upkeep) (hs : p.state? h = some .cooldown) :
    q.state? h = some .cooldown :=
  hb.keep (P := fun q => q.state? h = some .cooldown) (fun hstep => hstep.cooldown hc) hs

end Pool

namespace World

variable {w v : World} {a : Action} {h : Handle} {settings : Settings} {sources : List String}
  {chooser : Chooser} {now : Instant}

theorem pool_tick {i : LoopId} {l : ChoreLoop} (hl : w.loops[i]? = some l) :
    (w.perform (.tick i)).pool = match l.chore with
      | .revalidate => w.pool.requeueStale
      | .coolDown => w.pool.requeueRested
      | .acquire => (proceed w.pool .start).2 := by
  simp only [perform, tick, hl]
  cases l.chore with
  | revalidate | coolDown => rfl
  | acquire =>
    dsimp only
    split <;> rfl

theorem state?_requeueStale {p : Pool} (he : p.Enrolled) (hs : p.state? h = some .cooldown) :
    p.requeueStale.state? h = some .cooldown := by
  have hmoved := Pool.sweep_requeued Pool.isStale Pool.isStale_congr .renew he
    (he.nodup_proxiesIn .available) fun k hk => (Pool.mem_proxiesIn.mp hk).2
  rw [Pool.requeueStale_eq_sweep, hmoved.state_of_not_mem, hs]
  intro hmem
  have hstate := (Pool.mem_proxiesIn.mp (List.mem_of_mem_filter hmem)).2
  rw [hs] at hstate
  cases hstate

theorem tick_of_cooldown_ended (he : w.Enabled a = true) (ho : w.Organized)
    (hs : w.pool.state? h = some .cooldown) (hp : (w.perform a).pool.state? h = some .pending) :
    ∃ i l, a = .tick i ∧ w.loops[i]? = some l ∧ l.chore = .coolDown := by
  have hne : Concern.acquisition ≠ .upkeep := by decide
  by_contra hn
  suffices hstill : (w.perform a).pool.state? h = some .cooldown by
    rw [hstill] at hp
    cases hp
  have hbeats (hc : w.concern a ≠ .upkeep) : (w.perform a).pool.state? h = some .cooldown :=
    (perform_beaten w a ho.addsUp).1.cooldown hc hs
  cases a with
  | tick i =>
    cases hl : w.loops[i]? with
    | none =>
      rw [perform, tick, hl]
      exact hs
    | some l =>
      rw [pool_tick hl]
      cases hchore : l.chore with
      | coolDown => exact absurd ⟨i, l, rfl, hl, hchore⟩ hn
      | revalidate => exact state?_requeueStale ho.books.enrolled hs
      | acquire =>
        have hchanges := Pool.proceed_changes (c := .acquisition) w.pool .start
        exact (hchanges.beaten ho.addsUp).1.cooldown hne hs
  | take i =>
    cases hq : w.pool.queue with
    | nil =>
      rw [perform, take, hq]
      exact hs
    | cons k rest => exact hbeats (by simp [concern, hq])
  | conclude i o =>
    obtain ⟨k, _, _, _, hconcern, _⟩ := conclude_of_enabled he
    exact hbeats (by simp [hconcern])
  | supplyPass | supplyLoop | tryGet | get | reportSuccess | reportFailure =>
    exact hbeats (by simp [concern])
  | _ =>
    rw [Pool.state?_of_records (perform_sameProxies w rfl rfl).1]
    exact hs

/-- An available proxy was probed once, and one in cooldown has failed. -/
def Dated (r : Record Float) : Prop :=
  (r.state = .available ∨ r.state = .inUse → ∃ last, r.statistics.lastValidatedAt = some last) ∧
    (r.state = .cooldown → ∃ last, r.statistics.lastFailureAt = some last)

theorem datedLaw (settings : Settings) : RecordLaw .free settings fun _ _ => Dated where
  fresh _ e now burst := ⟨by simp [Record.fresh], by simp [Record.fresh]⟩
  later _ hr := hr
  fate := by
    rintro _ now r r' hfate ⟨hvalidated, hfailed⟩
    cases hfate with
    | probe | expire | renew | recover => exact ⟨by simp, by simp⟩
    | handOut hs => exact ⟨fun _ => hvalidated (.inl hs), by simp⟩
    | judge o ho hends hs =>
      refine ⟨fun _ => ⟨_, Statistics.lastValidatedAt_recordValidation _ o⟩, fun hcooldown => ?_⟩
      rw [Record.judged, Statistics.lastFailureAt_recordValidation]
      cases hgood : o.isSuccess with
      | true => simp [Record.judged, hgood] at hcooldown
      | false => exact ⟨_, rfl⟩
    | giveBack good elapsed verdict hs =>
      refine ⟨fun _ => ?_, fun hcooldown => ?_⟩
      · rw [Record.judged, Statistics.lastValidatedAt_recordUse]
        exact hvalidated (.inr hs)
      · rw [Record.judged, Statistics.lastFailureAt_recordUse]
        cases good with
        | true => simp [Record.judged] at hcooldown
        | false => exact ⟨_, rfl⟩
    | note good elapsed verdict =>
      refine ⟨fun hs => ?_, fun hs => ?_⟩
      · rw [Statistics.lastValidatedAt_recordUse]
        exact hvalidated hs
      · rw [Statistics.lastFailureAt_recordUse]
        cases good with
        | true => exact hfailed hs
        | false => exact ⟨_, rfl⟩

theorem dated_of_reaches (hw : (opening settings sources chooser now []).Reaches w)
    {r : Record Float} (hr : w.pool.record? h = some r) : Dated r :=
  obeys_of_reaches (datedLaw settings) hw h r hr

end World

/-- Whatever has happened to a pool over an empty storage, and whatever time it is: the pass
over available proxies sends exactly those back to the queue whose last probe is too old, and
the pass over proxies in cooldown exactly those whose last failure is long enough ago. The
missing times that both passes make provisions for do not occur. A proxy in cooldown becomes
pending in a pass of its own loop only. -/
theorem upkeep_sweeps_exactly {settings : Settings} {sources : List String} {chooser : Chooser}
    {now : Instant} {w : World} (hw : (World.opening settings sources chooser now []).Reaches w) :
    (∀ t : Instant,
      Pool.Sweeps Pool.requeueStale .available
        (fun a => ∃ last, a.lastValidatedAt = some last ∧
          settings.validationInterval ≤ .since last t) (w.pool.atTime t) ∧
      Pool.Sweeps Pool.requeueRested .cooldown
        (fun a => ∃ last, a.lastFailureAt = some last ∧
          settings.cooldownDuration ≤ .since last t) (w.pool.atTime t)) ∧
    (∀ h r, w.pool.record? h = some r →
      (r.state = .available → ∃ last, r.statistics.lastValidatedAt = some last) ∧
      (r.state = .cooldown → ∃ last, r.statistics.lastFailureAt = some last)) ∧
    ∀ a h, w.Enabled a = true → w.pool.state? h = some .cooldown →
      (w.perform a).pool.state? h = some .pending →
      ∃ i l, a = .tick i ∧ w.loops[i]? = some l ∧ l.chore = .coolDown ∧
        (w.perform a).pool = w.pool.requeueRested := by
  have ho := World.organized_of_reaches hw
  have henrolled := ho.books.enrolled
  have hsettings := World.settings_of_reaches hw
  have hdated {h : Handle} {r : Record Float} (hr : w.pool.record? h = some r) :=
    World.dated_of_reaches hw hr
  refine ⟨fun t => ⟨?_, ?_⟩, fun h r hr => ⟨fun hs => (hdated hr).1 (.inl hs), (hdated hr).2⟩,
    fun a h he hs hp => ?_⟩
  · apply Pool.sweeps_of_sweep Pool.isStale Pool.isStale_congr Pool.requeueStale_eq_sweep .renew
    · exact ⟨henrolled.keyed, henrolled.named, henrolled.gone⟩
    · exact ⟨ho.queued.nodup, ho.queued.pending⟩
    · intro h hh
      have hstate : w.pool.state? h = some .available := (Pool.mem_proxiesIn.mp hh).2
      obtain ⟨r, hr, hs⟩ := Pool.exists_record_of_state hstate
      have hstatistics : (w.pool.atTime t).statistics? h = some r.statistics := by
        rw [Pool.statistics?, show (w.pool.atTime t).record? h = some r from hr, Option.map_some]
      rw [← hsettings]
      exact Pool.isStale_iff hstatistics ((hdated hr).1 (.inl hs))
  · apply Pool.sweeps_of_sweep Pool.isRested Pool.isRested_congr Pool.requeueRested_eq_sweep
      .recover
    · exact ⟨henrolled.keyed, henrolled.named, henrolled.gone⟩
    · exact ⟨ho.queued.nodup, ho.queued.pending⟩
    · intro h _
      rw [← hsettings]
      exact Pool.isRested_iff (w.pool.atTime t) h
  · obtain ⟨i, l, rfl, hl, hchore⟩ := World.tick_of_cooldown_ended he ho hs hp
    exact ⟨i, l, rfl, hl, hchore, World.tick_coolDown hl hchore⟩

/-- Two proxies are available and two in cooldown, and the earlier one of each is due. -/
theorem upkeep_sweeps_exactly_the_earlier_of_two :
    ∃ w, (World.opening .standard ["s"] (.roundRobin 0) 0 []).run?
        [.start, .supplyPass 0 (.ok [.plain "a" 1 .http, .plain "b" 1 .http, .plain "c" 1 .http,
            .plain "d" 1 .http]), .take 0, .take 1, .take 2, .take 3,
          .conclude 0 (.success 0 .zero 200), .conclude 1 (.timeout 0 .zero),
          .advance (.ofSeconds 30), .conclude 2 (.success 30000000000 .zero 200),
          .conclude 3 (.timeout 30000000000 .zero), .advance (.ofSeconds 30)] = some w ∧
      (∃ moved, Pool.Requeued .available moved (w.pool.atTime 300000000000)
          (w.pool.atTime 300000000000).requeueStale ∧ 0 ∈ moved ∧ 2 ∉ moved) ∧
      (∃ moved, Pool.Requeued .cooldown moved (w.pool.atTime 60000000000)
          (w.pool.atTime 60000000000).requeueRested ∧ 1 ∈ moved ∧ 3 ∉ moved) ∧
      (w.perform (.tick 2)).pool = w.pool.requeueRested := by
  let actions : List Action :=
    [.start, .supplyPass 0 (.ok [.plain "a" 1 .http, .plain "b" 1 .http, .plain "c" 1 .http,
        .plain "d" 1 .http]), .take 0, .take 1, .take 2, .take 3,
      .conclude 0 (.success 0 .zero 200), .conclude 1 (.timeout 0 .zero),
      .advance (.ofSeconds 30), .conclude 2 (.success 30000000000 .zero 200),
      .conclude 3 (.timeout 30000000000 .zero), .advance (.ofSeconds 30)]
  have hrun : ((World.opening .standard ["s"] (.roundRobin 0) 0 []).run? actions).map
      (fun w => decide (w.pool.proxiesIn .available = [0, 2] ∧ w.pool.proxiesIn .cooldown = [1, 3] ∧
        (w.pool.statistics? 0).map (·.lastValidatedAt) = some (some 0) ∧
        (w.pool.statistics? 2).map (·.lastValidatedAt) = some (some 30000000000) ∧
        (w.pool.statistics? 1).map (·.lastFailureAt) = some (some 0) ∧
        (w.pool.statistics? 3).map (·.lastFailureAt) = some (some 30000000000) ∧
        w.Enabled (.tick 2) = true ∧ w.pool.state? 1 = some .cooldown ∧
        (w.perform (.tick 2)).pool.state? 1 = some .pending)) = some true := by
    decide +kernel
  obtain ⟨w, hw, hfacts⟩ := Option.map_eq_some_iff.mp hrun
  obtain ⟨havailable, hcooldown, h0, h2, h1, h3, he, hs, hp⟩ := of_decide_eq_true hfacts
  obtain ⟨hsweeps, -, hends⟩ := upkeep_sweeps_exactly ⟨actions, hw⟩
  obtain ⟨stale, hstale, hmemStale, -⟩ := (hsweeps 300000000000).1.exact
  obtain ⟨rested, hrested, hmemRested, -⟩ := (hsweeps 60000000000).2.exact
  refine ⟨w, hw, ⟨stale, hstale, (hmemStale 0).mpr ⟨?_, ?_⟩, fun hmem => ?_⟩,
    ⟨rested, hrested, (hmemRested 1).mpr ⟨?_, ?_⟩, fun hmem => ?_⟩, ?_⟩
  · change 0 ∈ w.pool.proxiesIn .available
    rw [havailable]
    decide
  · obtain ⟨a, ha, hlast⟩ := Option.map_eq_some_iff.mp h0
    exact ⟨a, ha, 0, hlast, by decide⟩
  · obtain ⟨a, ha, last, hlast, hdue⟩ := ((hmemStale 2).mp hmem).2
    have hlate : some last = some 30000000000 :=
      hlast.symm.trans (Option.some.inj ((congrArg _ ha).symm.trans h2))
    cases hlate
    exact absurd hdue (by decide)
  · change 1 ∈ w.pool.proxiesIn .cooldown
    rw [hcooldown]
    decide
  · obtain ⟨a, ha, hlast⟩ := Option.map_eq_some_iff.mp h1
    exact ⟨a, ha, 0, hlast, by decide⟩
  · obtain ⟨a, ha, last, hlast, hdue⟩ := ((hmemRested 3).mp hmem).2
    have hlate : some last = some 30000000000 :=
      hlast.symm.trans (Option.some.inj ((congrArg _ ha).symm.trans h3))
    cases hlate
    exact absurd hdue (by decide)
  · obtain ⟨i, l, hi, -, -, hpass⟩ := hends (.tick 2) 1 he hs hp
    exact hpass

end ProxyLease
