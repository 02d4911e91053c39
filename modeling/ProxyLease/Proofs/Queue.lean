import ProxyLease.Proofs.Agreement
import ProxyLease.Proofs.World.Beat
import ProxyLease.Proofs.World.Staff

/-!
# The queue and its workers

Work is neither doubled nor lost between the queue and the workers. The proxies in the
queue are pending and none is there twice, an entry leaves the queue only when a worker
takes it, and every proxy that is validated is probed by one worker and no other.
-/

namespace ProxyLease

namespace Pool

variable {c : Concern} {p q r : Pool} {h k : Handle} {s t : Lifecycle}

/-- The proxies in the queue are pending, and none is there twice. -/
structure Queued (p : Pool) : Prop where
  nodup : p.queue.Nodup
  pending : ∀ h ∈ p.queue, p.state? h = some .pending

theorem Queued.ne_of_state (hq : Queued p) (hk : k ∈ p.queue) (hs : p.state? h = some s)
    (hne : s ≠ .pending) : k ≠ h := by
  rintro rfl
  rw [hq.pending k hk] at hs
  exact hne (Option.some.inj hs).symm

theorem Begun.queued {sent : Bool} (hb : Begun h p q sent) (hq : Queued p) : Queued q := by
  obtain ⟨hh, hn⟩ : h ∉ q.queue ∧ q.queue.Nodup := by
    have hn := hq.nodup
    rwa [hb.queue, List.nodup_cons] at hn
  refine ⟨hn, fun k hk => ?_⟩
  rw [hb.other fun he => hh (he ▸ hk)]
  exact hq.pending k (by rw [hb.queue]; exact List.mem_cons_of_mem h hk)

theorem Beat.queued (hb : Beat c p q) (hq : Queued p) : Queued q := by
  cases hb with
  | still hstate hqueue htrace =>
    constructor
    · rw [hqueue]
      exact hq.nodup
    · intro k hk
      rw [hqueue] at hk
      rw [hstate]
      exact hq.pending k hk
  | move h hm hqueue hs =>
    constructor
    · rw [hqueue]
      exact hq.nodup
    · intro k hk
      rw [hqueue] at hk
      rw [hm.other (hq.ne_of_state hk hm.source hs)]
      exact hq.pending k hk
  | requeue h hc hm hqueue =>
    have hne := Lifecycle.ne_of_mem_next hm.next
    have hnew : h ∉ p.queue := fun hh => hq.ne_of_state hh hm.source hne rfl
    constructor
    · rw [hqueue, ← List.concat_eq_append]
      exact hq.nodup.concat hnew
    · intro k hk
      rw [hqueue, List.mem_append, List.mem_singleton] at hk
      rw [hm.states]
      split_ifs with hkh
      · rfl
      · exact hq.pending k (hk.resolve_right hkh)
  | register hc hstate hqueue htrace =>
    have hnew : p.records.size ∉ p.queue := by
      intro hh
      have hs := hq.pending _ hh
      simp at hs
    constructor
    · rw [hqueue]
      split_ifs
      · rw [← List.concat_eq_append]
        exact hq.nodup.concat hnew
      · exact hq.nodup
    · intro k hk
      rw [hstate]
      split_ifs with hkh
      · rfl
      · refine hq.pending k ?_
        rw [hqueue] at hk
        split_ifs at hk
        · simpa [hkh] using hk
        · exact hk
  | begin h hc hb => exact hb.queued hq

theorem Beat.queue_subset (hb : Beat c p q) (hc : ∀ h, c ≠ .probe h) : p.queue ⊆ q.queue := by
  cases hb with
  | still _ hqueue | move _ _ hqueue => rw [hqueue]; exact fun _ => id
  | requeue h _ _ hqueue => rw [hqueue]; exact List.subset_append_left _ _
  | register _ _ hqueue =>
    rw [hqueue]
    split_ifs
    · exact List.subset_append_left _ _
    · exact fun _ => id
  | begin h he => exact absurd he (hc h)

theorem Beats.queue_subset (hb : Beats c p q) (hc : ∀ h, c ≠ .probe h) : p.queue ⊆ q.queue :=
  hb.keep (P := fun q => p.queue ⊆ q.queue)
    (fun hstep hs => List.Subset.trans hs (hstep.queue_subset hc)) fun _ => id

theorem Beat.validating (hb : Beat c p q) (hprobe : ∀ h, c ≠ .probe h)
    (hverdict : c ≠ .verdict k) :
    q.state? k = some .validating ↔ p.state? k = some .validating := by
  have hmoved {h : Handle} {s t : Lifecycle} (hm : Published h s t p q) (ht : t ≠ .validating)
      (hc : s = .validating → c = .verdict h) :
      q.state? k = some .validating ↔ p.state? k = some .validating := by
    by_cases hkh : k = h
    · have hs : s ≠ .validating := fun hs => hverdict (hkh ▸ hc hs)
      rw [hkh, hm.target, hm.source]
      simp [ht, hs]
    · rw [hm.other hkh]
  cases hb with
  | still hstate => rw [hstate]
  | @move h s t hm hqueue hs ht hc =>
    refine hmoved hm ?_ hc
    rintro rfl
    have hnext := hm.next
    cases s <;> simp [Lifecycle.next] at hnext hs
  | @requeue h s hc hm =>
    refine hmoved hm (by decide) ?_
    rintro rfl
    exact absurd hm.next (by decide)
  | register hc hstate =>
    rw [hstate]
    split_ifs with hk
    · simp [hk]
    · exact Iff.rfl
  | begin h hc => exact absurd hc (hprobe h)

theorem Beats.validating (hb : Beats c p q) (hprobe : ∀ h, c ≠ .probe h)
    (hverdict : c ≠ .verdict k) :
    q.state? k = some .validating ↔ p.state? k = some .validating :=
  hb.keep (P := fun q => q.state? k = some .validating ↔ p.state? k = some .validating)
    (fun hstep hs => (hstep.validating hprobe hverdict).trans hs) Iff.rfl

theorem Begun.validating {sent : Bool} (hb : Begun h p q sent) (hs : p.state? h = some .pending) :
    q.state? k = some .validating ↔
      sent = true ∧ k = h ∨ p.state? k = some .validating := by
  by_cases hk : k = h
  · subst hk
    cases hb with
    | skip hqueue hn => exact absurd hs hn
    | expire hqueue hfirst hlast => simp [hlast.target, hs]
    | check hqueue hyoung hm hstate => simp [hstate, hm.target]
  · rw [hb.other hk]
    simp [hk]

theorem Begun.leaves {sent : Bool} (hb : Begun h p q sent) (hs : p.state? h = some .pending) :
    p.queue = h :: q.queue ∧ ∃ news, q.trace.toList = p.trace.toList ++ news ∧
      .moved h .pending .validating ∈ news := by
  refine ⟨hb.queue, ?_⟩
  cases hb with
  | skip hqueue hn => exact absurd hs hn
  | expire hqueue hfirst hlast =>
    obtain ⟨f, hfirst⟩ := hfirst.news
    obtain ⟨g, hlast⟩ := hlast.news
    exact ⟨_, by rw [hlast, hfirst, List.append_assoc], by simp⟩
  | check hqueue hyoung hm hstate htrace =>
    obtain ⟨f, hnews⟩ := hm.news
    refine ⟨[.moved h .pending .validating, .counted f, .check h], ?_, by simp⟩
    simp [htrace, hnews]

end Pool

namespace World

variable {w v : World} {i j : WorkerId} {h : Handle}

/-- The proxies that are validated are those that workers probe, each by one of them. -/
structure Posted (w : World) : Prop where
  validating : ∀ i h, w.workerStage i = .probing h → w.pool.state? h = some .validating
  single : ∀ i j h, w.workerStage i = .probing h → w.workerStage j = .probing h → i = j
  probed : ∀ h, w.pool.state? h = some .validating → ∃ i, w.workerStage i = .probing h

theorem Posted.undisturbed (hp : w.Posted) (hu : Undisturbed w v)
    (hstate : ∀ h, v.pool.state? h = some .validating ↔ w.pool.state? h = some .validating) :
    v.Posted where
  validating i h hi := (hstate h).mpr (hp.validating i h ((hu.busy i h).mp hi))
  single i j h hi hj := hp.single i j h ((hu.busy i h).mp hi) ((hu.busy j h).mp hj)
  probed h hh := by
    obtain ⟨i, hi⟩ := hp.probed h ((hstate h).mp hh)
    exact ⟨i, (hu.busy i h).mpr hi⟩

theorem idle_of_enabled_take (he : w.Enabled (.take i) = true) :
    w.workerStage i = .idle ∧ i < w.workers.size ∧ ∃ h rest, w.pool.queue = h :: rest := by
  simp only [Enabled, Bool.and_eq_true, beq_iff_eq, bne_iff_ne] at he
  have hidle : w.workerStage i = .idle := by
    rw [workerStage, he.1]
    rfl
  exact ⟨hidle, lt_size_of_stage (by simp [hidle]), List.exists_cons_of_ne_nil he.2⟩

/-- Only a worker that probes can conclude, and it ends if it was dismissed. -/
theorem conclude_of_enabled {o : Outcome} (he : w.Enabled (.conclude i o) = true) :
    ∃ h stage, (stage = .idle ∨ stage = .finished) ∧ w.workerStage i = .probing h ∧
      w.concern (.conclude i o) = .verdict h ∧
      w.conclude i o = (w.mapPool (·.endProbe h o)).setWorkerStage i stage := by
  simp only [Enabled] at he
  split at he
  · next h hstage =>
    cases hi : w.workers[i]? with
    | none =>
      rw [workerStage, hi] at hstage
      cases hstage
    | some worker =>
      obtain ⟨cancelled, stage⟩ := worker
      have hprobing : stage = .probing h := by
        rw [workerStage, hi] at hstage
        exact hstage
      subst hprobing
      refine ⟨h, if cancelled then .finished else .idle, ?_, hstage, ?_, ?_⟩
      · cases cancelled
        · exact .inl rfl
        · exact .inr rfl
      · simp only [concern, hi]
      · simp only [conclude, hi]
  · cases he

/-- A worker begins a probe, or ends one, or the step disturbs no probe. -/
theorem probe_cases {a : Action} (he : w.Enabled a = true) :
    (∃ i, a = .take i) ∨ (∃ i o, a = .conclude i o) ∨
      Undisturbed w (w.perform a) ∧ (∀ h, w.concern a ≠ .probe h) ∧
        ∀ h, w.concern a ≠ .verdict h := by
  by_cases ht : ∃ i, a = .take i
  · exact .inl ht
  by_cases hc : ∃ i o, a = .conclude i o
  · exact .inr (.inl hc)
  refine .inr (.inr ⟨?_, fun h hh => ?_, fun h hh => hc (exists_conclude_of_concern hh)⟩)
  · exact perform_undisturbed he (fun i ha => ht ⟨i, ha⟩) fun i o ha => hc ⟨i, o, ha⟩
  · obtain ⟨i, _, ha, _⟩ := exists_take_of_concern hh
    exact ht ⟨i, ha⟩

theorem probing_of_perform {a : Action} (he : w.Enabled a = true) (hsum : w.pool.census.AddsUp)
    (hi : (w.perform a).workerStage i = .probing h) : w.workerStage i = .probing h ∨
      a = .take i ∧ Pool.Begun h w.pool (w.perform a).pool true := by
  rcases probe_cases he with ⟨j, rfl⟩ | ⟨j, o, rfl⟩ | ⟨hu, _⟩
  · obtain ⟨_, _, k, rest, hqueue⟩ := idle_of_enabled_take he
    obtain ⟨q, sent, hb, ht⟩ := take_begun hsum hqueue j
    rw [perform, ht] at hi ⊢
    cases sent with
    | false => exact .inl hi
    | true =>
      rw [if_pos rfl, workerStage_set] at hi
      split_ifs at hi with hij
      · cases hi
        exact .inr ⟨by rw [hij.1], hb⟩
      · exact .inl hi
  · obtain ⟨k, stage, hstage, _, _, hconclude⟩ := conclude_of_enabled he
    rw [perform, hconclude, workerStage_set] at hi
    split_ifs at hi
    · rcases hstage with rfl | rfl <;> cases hi
    · exact .inl hi
  · exact .inl ((hu.busy i h).mp hi)

/-- A probe begins: an idle worker takes up a post that is free. -/
theorem Posted.begin (hp : w.Posted) (hidle : w.workerStage i = .idle)
    (hfree : w.pool.state? h ≠ some .validating)
    (hstage : ∀ j, v.workerStage j = if i = j then .probing h else w.workerStage j)
    (hstate : ∀ k, v.pool.state? k = some .validating ↔
      k = h ∨ w.pool.state? k = some .validating) : v.Posted := by
  have hnobody (j : WorkerId) : w.workerStage j ≠ .probing h :=
    fun hj => hfree (hp.validating j h hj)
  constructor
  · intro j k hj
    rw [hstate]
    rw [hstage] at hj
    split_ifs at hj
    · cases hj
      exact .inl rfl
    · exact .inr (hp.validating j k hj)
  · intro j l k hj hl
    rw [hstage] at hj hl
    split_ifs at hj hl with hij hil hil
    · exact hij.symm.trans hil
    · cases hj
      exact absurd hl (hnobody l)
    · cases hl
      exact absurd hj (hnobody j)
    · exact hp.single j l k hj hl
  · intro k hk
    rcases (hstate k).mp hk with rfl | hk
    · exact ⟨i, by rw [hstage, if_pos rfl]⟩
    · obtain ⟨j, hj⟩ := hp.probed k hk
      refine ⟨j, ?_⟩
      rw [hstage, if_neg, hj]
      rintro rfl
      rw [hidle] at hj
      cases hj

/-- A probe ends: a worker leaves its post, and the proxy is not validated any more. -/
theorem Posted.end (hp : w.Posted) (hprobing : w.workerStage i = .probing h)
    (hstage : ∀ j k, v.workerStage j = .probing k ↔ j ≠ i ∧ w.workerStage j = .probing k)
    (hleft : v.pool.state? h ≠ some .validating)
    (hstate : ∀ k, k ≠ h →
      (v.pool.state? k = some .validating ↔ w.pool.state? k = some .validating)) :
    v.Posted := by
  constructor
  · intro j k hj
    obtain ⟨hji, hj⟩ := (hstage j k).mp hj
    have hkh : k ≠ h := by
      rintro rfl
      exact hji (hp.single j i k hj hprobing)
    exact (hstate k hkh).mpr (hp.validating j k hj)
  · intro j l k hj hl
    exact hp.single j l k ((hstage j k).mp hj).2 ((hstage l k).mp hl).2
  · intro k hk
    have hkh : k ≠ h := by
      rintro rfl
      exact hleft hk
    obtain ⟨j, hj⟩ := hp.probed k ((hstate k hkh).mp hk)
    refine ⟨j, (hstage j k).mpr ⟨?_, hj⟩⟩
    rintro rfl
    rw [hprobing] at hj
    exact hkh (WorkerStage.probing.inj hj).symm

theorem take_posted (he : w.Enabled (.take i) = true) (hsum : w.pool.census.AddsUp)
    (hq : w.pool.Queued) (hp : w.Posted) : (w.take i).Posted := by
  obtain ⟨hidle, hlt, h, rest, hqueue⟩ := idle_of_enabled_take he
  obtain ⟨q, sent, hb, ht⟩ := take_begun hsum hqueue i
  have hpending := hq.pending h (by rw [hqueue]; exact List.mem_cons_self)
  have hstate (k : Handle) := hb.validating (k := k) hpending
  rw [ht]
  cases sent with
  | false => exact hp.undisturbed (.of_eq rfl rfl rfl rfl) fun k => by simpa using hstate k
  | true =>
    refine hp.begin hidle (by rw [hpending]; nofun) (fun j => ?_) fun k => ?_
    · rw [if_pos rfl, workerStage_set]
      simp only [hlt, and_true]
      rfl
    · exact (hstate k).trans (by simp)

theorem conclude_posted {o : Outcome} (he : w.Enabled (.conclude i o) = true)
    (hsum : w.pool.census.AddsUp) (hp : w.Posted) : (w.conclude i o).Posted := by
  obtain ⟨h, stage, hstage, hprobing, hconcern, hconclude⟩ := conclude_of_enabled he
  have hlt : i < w.workers.size := lt_size_of_stage (by rw [hprobing]; nofun)
  have hbeats := (perform_beaten w (.conclude i o) hsum).1
  refine hp.end hprobing (fun j k => ?_) ?_ fun k hk => ?_
  · rw [hconclude, workerStage_set]
    by_cases hij : i = j
    · rw [if_pos ⟨hij, hlt⟩]
      rcases hstage with rfl | rfl <;> simp [hij]
    · rw [if_neg fun hh => hij hh.1]
      exact ⟨fun hh => ⟨Ne.symm hij, hh⟩, fun hh => hh.2⟩
  · rw [hconclude]
    exact Pool.state?_endProbe_ne w.pool h o
  · rw [hconcern] at hbeats
    exact hbeats.validating nofun fun he => hk (Concern.verdict.inj he).symm

/-! ### Steps -/

theorem perform_posted {a : Action} (he : w.Enabled a = true) (hsum : w.pool.census.AddsUp)
    (hq : w.pool.Queued) (hp : w.Posted) : (w.perform a).Posted := by
  rcases probe_cases he with ⟨i, rfl⟩ | ⟨i, o, rfl⟩ | ⟨hu, hprobe, hverdict⟩
  · exact take_posted he hsum hq hp
  · exact conclude_posted he hsum hp
  · have hbeats := (perform_beaten w a hsum).1
    exact hp.undisturbed hu fun h => hbeats.validating hprobe (hverdict h)

theorem perform_staffed {a : Action} (he : w.Enabled a = true) (hsum : w.pool.census.AddsUp)
    (hs : w.Staffed) : (w.perform a).Staffed := by
  rcases probe_cases he with ⟨i, rfl⟩ | ⟨i, o, rfl⟩ | ⟨hu, _⟩
  · obtain ⟨hidle, _, h, rest, hqueue⟩ := idle_of_enabled_take he
    obtain ⟨q, sent, _, ht⟩ := take_begun hsum hqueue i
    have hnext : ({ w with pool := q } : World).Staffed := hs
    have hbusy : ({ w with pool := q } : World).workerStage i ≠ .finished := by
      change w.workerStage i ≠ .finished
      simp [hidle]
    rw [perform, ht]
    split
    · exact hnext.set hbusy
    · exact hnext
  · obtain ⟨h, stage, _, hprobing, _, hconclude⟩ := conclude_of_enabled he
    have hnext : (w.mapPool (·.endProbe h o)).Staffed := hs
    have hbusy : (w.mapPool (·.endProbe h o)).workerStage i ≠ .finished := by
      change w.workerStage i ≠ .finished
      simp [hprobing]
    rw [perform, hconclude]
    exact hnext.set hbusy
  · exact hu.staffed hs

/-- Everything that keeps work from being doubled or lost. -/
structure Organized (w : World) : Prop where
  addsUp : w.pool.census.AddsUp
  books : w.pool.Books True
  queued : w.pool.Queued
  posted : w.Posted
  staffed : w.Staffed

theorem perform_organized {a : Action} (he : w.Enabled a = true) (ho : w.Organized) :
    (w.perform a).Organized where
  addsUp := perform_addsUp w a ho.addsUp
  books := perform_books w a ho.books
  queued := (perform_beaten w a ho.addsUp).1.keep Pool.Beat.queued ho.queued
  posted := perform_posted he ho.addsUp ho.queued ho.posted
  staffed := perform_staffed he ho.addsUp ho.staffed

theorem opening_organized (settings : Settings) (sources : List String) (chooser : Chooser)
    (now : Instant) : (opening settings sources chooser now []).Organized := by
  have hb := (Stocked.enroll []).books settings sources chooser now
  exact ⟨rfl, ⟨hb.enrolled, fun _ => hb.balanced rfl⟩, ⟨List.nodup_nil, nofun⟩,
    ⟨nofun, nofun, nofun⟩, nofun⟩

theorem organized_of_reaches {settings : Settings} {sources : List String} {chooser : Chooser}
    {now : Instant} (hw : (opening settings sources chooser now []).Reaches w) : w.Organized :=
  hw.keep (P := Organized) (fun _ _ he => perform_organized he)
    (opening_organized settings sources chooser now)

namespace Organized

theorem leaves_queue (ho : w.Organized) {a : Action} (he : w.Enabled a = true)
    (hh : h ∈ w.pool.queue) (hgone : h ∉ (w.perform a).pool.queue) : ∃ i news, a = .take i ∧
      w.pool.queue = h :: (w.perform a).pool.queue ∧
      (w.perform a).pool.trace.toList = w.pool.trace.toList ++ news ∧
      .moved h .pending .validating ∈ news := by
  have hconcern : ∃ k, w.concern a = .probe k := by
    by_contra hn
    have hkept := (perform_beaten w a ho.addsUp).1.queue_subset fun k hk => hn ⟨k, hk⟩
    exact hgone (hkept hh)
  obtain ⟨k, hk⟩ := hconcern
  obtain ⟨i, rest, rfl, hqueue⟩ := exists_take_of_concern hk
  obtain ⟨sent, hb⟩ := take_begun_pool ho.addsUp hqueue i
  have hpending := ho.queued.pending k (by rw [hqueue]; exact List.mem_cons_self)
  obtain ⟨hleft, news, hnews, hmoved⟩ := hb.leaves hpending
  have hkh : h = k := by
    rw [hleft, List.mem_cons] at hh
    exact hh.resolve_right hgone
  subst hkh
  exact ⟨i, news, rfl, hleft, hnews, hmoved⟩

end Organized

end World

/-- Over an empty storage, the proxies in the queue are registered and pending and none is
there twice, an entry leaves the queue only when a worker takes it and moves it on, and a
registered proxy is validated exactly while one worker probes it, which is employed. -/
theorem work_is_neither_doubled_nor_lost {settings : Settings} {sources : List String}
    {chooser : Chooser} {now : Instant} {w : World}
    (hw : (World.opening settings sources chooser now []).Reaches w) :
    w.pool.queue.Nodup ∧ (∀ h ∈ w.pool.queue, h ∈ w.pool.proxiesIn .pending) ∧
    (∀ a h, w.Enabled a = true → h ∈ w.pool.queue → h ∉ (w.perform a).pool.queue →
      ∃ i news, a = .take i ∧ w.pool.queue = h :: (w.perform a).pool.queue ∧
        (w.perform a).pool.trace.toList = w.pool.trace.toList ++ news ∧
        .moved h .pending .validating ∈ news) ∧
    (∀ h ∈ w.pool.proxiesIn .validating, ∃ i, w.workerStage i = .probing h ∧ w.Employed i ∧
      ∀ j, w.workerStage j = .probing h → j = i) ∧
    ∀ i h, w.workerStage i = .probing h → h ∈ w.pool.proxiesIn .validating := by
  have ho := World.organized_of_reaches hw
  refine ⟨ho.queued.nodup, ?_, fun a h he => ho.leaves_queue he, ?_, ?_⟩
  · intro h hh
    exact ho.books.enrolled.mem_proxiesIn (ho.queued.pending h hh) nofun nofun
  · intro h hh
    obtain ⟨i, hi⟩ := ho.posted.probed h (Pool.mem_proxiesIn.mp hh).2
    have hemployed := ho.staffed i (by rw [hi]; nofun)
    exact ⟨i, hi, hemployed, fun j hj => ho.posted.single j i h hj hi⟩
  · intro i h hi
    exact ho.books.enrolled.mem_proxiesIn (ho.posted.validating i h hi) nofun nofun

/-- A dismissed worker probes on after a stop, and the next run takes the rest of the queue. -/
theorem work_is_neither_doubled_nor_lost_after_restart :
    ∃ w, (World.opening .standard ["s"] (.roundRobin 0) 0 []).run?
        [.start, .supplyPass 0 (.ok [.plain "a" 1 .http, .plain "b" 1 .http]), .take 9,
          .setConcurrency 1, .stop, .start] = some w ∧
      1 ∈ w.pool.proxiesIn .pending ∧
      (∃ i, w.workerStage i = .probing 0 ∧ w.Employed i ∧
        ∀ j, w.workerStage j = .probing 0 → j = i) ∧
      w.pool.queue = 1 :: (w.perform (.take 10)).pool.queue := by
  let actions : List Action :=
    [.start, .supplyPass 0 (.ok [.plain "a" 1 .http, .plain "b" 1 .http]), .take 9,
      .setConcurrency 1, .stop, .start]
  have hrun : ((World.opening .standard ["s"] (.roundRobin 0) 0 []).run? actions).map
      (fun w => decide (w.pool.queue = [1] ∧ w.pool.proxiesIn .validating = [0] ∧
        w.Enabled (.take 10) = true ∧ (w.perform (.take 10)).pool.queue = [])) = some true := by
    decide +kernel
  obtain ⟨w, hw, hfacts⟩ := Option.map_eq_some_iff.mp hrun
  obtain ⟨hqueue, hvalidating, henabled, hempty⟩ := of_decide_eq_true hfacts
  obtain ⟨_, hpending, hleaves, hprobed, _⟩ := work_is_neither_doubled_nor_lost ⟨actions, hw⟩
  obtain ⟨_, _, _, hhead, _⟩ := hleaves (.take 10) 1 henabled (by rw [hqueue]; decide)
    (by rw [hempty]; decide)
  exact ⟨w, hw, hpending 1 (by rw [hqueue]; decide), hprobed 0 (by rw [hvalidating]; decide), hhead⟩

end ProxyLease
