import ProxyLease.Proofs.Pool.Beat
import ProxyLease.Proofs.Registry

/-!
# What an answer brings in

The endpoints of an answer are admitted one by one. Those that are admitted get records of
their own and entries under identities that nobody had, and they join the queue together
or not at all. Nothing that was known before is touched, and nobody comes in once the
pool is full.
-/

namespace ProxyLease.Pool

variable {p q r : Pool} {h : Handle} {m n : Nat} {e : Endpoint} {offered list : List Endpoint}

/-- Some proxies came in for some of the endpoints that were offered, and nothing else
changed but the trace. -/
structure Intake (offered : List Endpoint) (n : Nat) (p q : Pool) : Prop where
  settings : q.settings = p.settings
  sources : q.sources = p.sources
  now : q.now = p.now
  admits : q.admitsValidation = p.admitsValidation
  size : q.records.size = p.records.size + n
  total : q.census.total = p.census.total + n
  record : ∀ h r, p.record? h = some r → q.record? h = some r
  queue : q.queue =
    if p.admitsValidation then p.queue ++ List.range' p.records.size n else p.queue
  handles : q.registry.handles.Perm (List.range' p.records.size n ++ p.registry.handles)
  entries : p.registry.entries ⊆ q.registry.entries
  newcomers : ∀ e ∈ q.registry.entries, e ∉ p.registry.entries →
    (∀ d ∈ p.registry.entries, d.1 ≠ e.1) ∧ p.record? e.2 = none ∧ ∃ x ∈ offered, x.id = e.1 ∧
      q.record? e.2 = some (.fresh x p.now (burstOf p.settings.maxRequestsPerSecond))

namespace Intake

theorem of_trace (p : Pool) (trace : Array Event) : Intake offered 0 p { p with trace } where
  settings := rfl
  sources := rfl
  now := rfl
  admits := rfl
  size := rfl
  total := rfl
  record _ _ := id
  queue := by simp
  handles := .refl _
  entries := fun _ => id
  newcomers _ hq hp := absurd hq hp

theorem trans (hpq : Intake offered m p q) (hqr : Intake offered n q r) :
    Intake offered (m + n) p r where
  settings := hqr.settings.trans hpq.settings
  sources := hqr.sources.trans hpq.sources
  now := hqr.now.trans hpq.now
  admits := hqr.admits.trans hpq.admits
  size := by rw [hqr.size, hpq.size, Nat.add_assoc]
  total := by rw [hqr.total, hpq.total, Nat.add_assoc]
  record h s hs := hqr.record h s (hpq.record h s hs)
  queue := by
    rw [hqr.queue, hqr.admits.symm.trans (hqr.admits.trans hpq.admits), hpq.queue, hpq.size]
    split
    · rw [List.append_assoc, List.range'_append_1]
    · rfl
  handles := by
    refine hqr.handles.trans ?_
    rw [hpq.size, ← List.range'_append_1]
    refine (hpq.handles.append_left _).trans ?_
    rw [← List.append_assoc]
    exact List.perm_append_comm.append_right _
  entries := List.Subset.trans hpq.entries hqr.entries
  newcomers e her hep := by
    by_cases heq : e ∈ q.registry.entries
    · obtain ⟨hid, hnone, x, hx, hxid, hrecord⟩ := hpq.newcomers e heq hep
      exact ⟨hid, hnone, x, hx, hxid, hqr.record _ _ hrecord⟩
    · obtain ⟨hid, hnone, x, hx, hxid, hrecord⟩ := hqr.newcomers e her heq
      rw [hpq.now, hpq.settings] at hrecord
      refine ⟨fun d hd => hid d (hpq.entries hd), ?_, x, hx, hxid, hrecord⟩
      by_contra hsome
      obtain ⟨s, hs⟩ := Option.ne_none_iff_exists'.mp hsome
      rw [hpq.record _ _ hs] at hnone
      cases hnone

end Intake

theorem register_intake (ha : p.admit? e = some q) (he : e ∈ offered) : Intake offered 1 p q := by
  have hqueue := queue_register ha
  have hrecord (k : Handle) := record?_register (h := k) ha
  obtain ⟨registry, queue, hadd, hq⟩ := admit?_eq_some ha
  obtain ⟨hfresh, hentries⟩ := Registry.add?_eq_some hadd
  have hregistry : q.registry = registry := by rw [hq]
  constructor
  · rw [hq]
  · rw [hq]
  · rw [hq]
  · rw [hq]
    rfl
  · simp [hq]
  · rw [hq]
    rfl
  · intro h s hs
    have hold : h ≠ p.records.size := by
      rintro rfl
      simp at hs
    rw [hrecord, if_neg hold, hs]
  · exact hqueue
  · rw [hregistry]
    exact hentries.map (·.2)
  · intro d hd
    rw [hregistry, hentries.mem_iff]
    exact List.mem_cons_of_mem _ hd
  · intro d hd hnew
    rw [hregistry, hentries.mem_iff, List.mem_cons] at hd
    rcases hd with rfl | hd
    · refine ⟨hfresh, record?_size p, e, he, rfl, ?_⟩
      rw [hrecord, if_pos rfl]
    · exact absurd hd hnew

theorem admitAll_intake (added : Nat) (hsub : list ⊆ offered) : ∃ n,
    (p.admitAll added list).1 = added + n ∧ Intake offered n p (p.admitAll added list).2 := by
  induction list generalizing p added with
  | nil => exact ⟨0, rfl, .of_trace p p.trace⟩
  | cons e rest ih =>
    obtain ⟨he, hrest⟩ := List.cons_subset.mp hsub
    rw [admitAll]
    split_ifs with hfull
    · exact ⟨0, rfl, .of_trace p p.trace⟩
    · cases ha : p.admit? e with
      | none => exact ih added hrest
      | some q =>
        obtain ⟨n, hn, hi⟩ := ih (p := q) (added + 1) hrest
        refine ⟨1 + n, ?_, (register_intake ha he).trans hi⟩
        rw [← Nat.add_assoc]
        exact hn

theorem total_admitAll_le (added : Nat) (list : List Endpoint)
    (hp : p.census.total ≤ p.settings.maxPoolSize) :
    (p.admitAll added list).2.census.total ≤ p.settings.maxPoolSize := by
  induction list generalizing p added with
  | nil => exact hp
  | cons e rest ih =>
    rw [admitAll]
    split_ifs with hfull
    · exact hp
    · cases ha : p.admit? e with
      | none => exact ih added hp
      | some q =>
        have hi := register_intake ha (List.mem_singleton_self e)
        have hq : q.census.total ≤ q.settings.maxPoolSize := by
          rw [hi.total, hi.settings]
          omega
        rw [← hi.settings]
        exact ih (added + 1) hq

/-! ### Answers -/

def endpointsOf (answer : Except SourceFailure (List Endpoint)) : List Endpoint :=
  answer.toOption.getD []

theorem receive_intake (p : Pool) (pass : Pass) (answer : Except SourceFailure (List Endpoint)) :
    ∃ n, (p.receive pass answer).1 = ⟨pass.answered + 1, pass.added + n⟩ ∧
      Intake (endpointsOf answer) n p (p.receive pass answer).2 := by
  cases answer with
  | error failure => exact ⟨0, rfl, .of_trace p _⟩
  | ok list =>
    obtain ⟨n, hn, hi⟩ := admitAll_intake (p := p) pass.added (List.Subset.refl list)
    exact ⟨n, congrArg (Pass.mk (pass.answered + 1)) hn, hi⟩

theorem total_receive_le (pass : Pass) (answer : Except SourceFailure (List Endpoint))
    (hp : p.census.total ≤ p.settings.maxPoolSize) :
    (p.receive pass answer).2.census.total ≤ p.settings.maxPoolSize := by
  cases answer with
  | error failure => exact hp
  | ok list => exact total_admitAll_le pass.added list hp

theorem receive_error (p : Pool) (pass : Pass) (failure : SourceFailure) : ∃ trace,
    p.receive pass (.error failure) = (⟨pass.answered + 1, pass.added⟩, { p with trace }) :=
  ⟨_, rfl⟩

/-! ### Going on -/

theorem finishPass_frame (p : Pool) (pass : Pass) :
    ∃ trace, p.finishPass pass = { p with trace } := by
  unfold finishPass
  dsimp only
  split
  · exact ⟨_, rfl⟩
  · exact ⟨_, rfl⟩

theorem proceed_frame (p : Pool) (pass : Pass) :
    ∃ trace, (World.proceed p pass).2 = { p with trace } := by
  unfold World.proceed
  split
  · exact ⟨_, rfl⟩
  · exact finishPass_frame p pass

theorem proceed_eq (p : Pool) (pass : Pass) : (World.proceed p pass).1 =
    if pass.answered < p.sources.length ∧ 0 < p.room
    then some ⟨pass, pass.answered, p.askCount⟩ else none := by
  unfold World.proceed passStep
  split_ifs <;> rfl

theorem proceed_ask {pass : Pass} {state : Asking} (hs : (World.proceed p pass).1 = some state) :
    state = ⟨pass, pass.answered, p.askCount⟩ ∧ pass.answered < p.sources.length ∧ 0 < p.room ∧
      (World.proceed p pass).2 = p.ask pass.answered p.askCount := by
  rw [proceed_eq] at hs
  split_ifs at hs with hgo
  cases hs
  refine ⟨rfl, hgo.1, hgo.2, ?_⟩
  unfold World.proceed passStep
  rw [if_pos hgo]

/-- The count is never zero, which would ask for everything. -/
theorem askCount_bounds (hroom : 0 < p.room) : 1 ≤ p.askCount ∧ p.askCount ≤ p.room ∧
    (0 < p.settings.fetchBatchSize → p.askCount ≤ p.settings.fetchBatchSize) := by
  unfold askCount
  split_ifs with hall
  · exact ⟨hroom, Nat.le_refl _, fun hbatch => absurd hall hbatch.ne'⟩
  · refine ⟨?_, Nat.min_le_right _ _, fun _ => Nat.min_le_left _ _⟩
    exact Nat.le_min.mpr ⟨Nat.pos_of_ne_zero hall, hroom⟩

theorem answered_eq (p : Pool) (state : Asking)
    (answer : Except SourceFailure (List Endpoint)) :
    World.answered p state answer = ((p.receive state.pass answer).1,
      World.proceed (p.receive state.pass answer).2 (p.receive state.pass answer).1) := rfl

theorem answered_intake (p : Pool) (state : Asking)
    (answer : Except SourceFailure (List Endpoint)) :
    ∃ n, (World.answered p state answer).1 = ⟨state.pass.answered + 1, state.pass.added + n⟩ ∧
      Intake (endpointsOf answer) n p (World.answered p state answer).2.2 := by
  obtain ⟨n, hn, hi⟩ := receive_intake p state.pass answer
  obtain ⟨trace, hproceed⟩ := proceed_frame (p.receive state.pass answer).2
    (p.receive state.pass answer).1
  rw [answered_eq]
  refine ⟨n, hn, ?_⟩
  rw [hproceed]
  exact hi.trans (.of_trace _ trace)

theorem total_answered_le (state : Asking) (answer : Except SourceFailure (List Endpoint))
    (hp : p.census.total ≤ p.settings.maxPoolSize) :
    (World.answered p state answer).2.2.census.total ≤ p.settings.maxPoolSize := by
  obtain ⟨trace, hproceed⟩ := proceed_frame (p.receive state.pass answer).2
    (p.receive state.pass answer).1
  rw [answered_eq, hproceed]
  exact total_receive_le state.pass answer hp

end ProxyLease.Pool
