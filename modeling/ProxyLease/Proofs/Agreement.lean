import ProxyLease.Proofs.Pool.Books
import ProxyLease.Proofs.World.Opening
import ProxyLease.Proofs.World.Strokes

/-!
# Agreement of census and registry

Two accounts are kept of a pool: the census counts as proxies move, and the registry can
be surveyed record by record. They agree in every world that is reached from an empty
pool, and after the first start over whatever the registry held before.
-/

namespace ProxyLease

theorem Pool.booksLaw (c : Concern) (counted : Prop) : StrokeLaw c (Books counted) where
  still hsettings hregistry hid hstate hcounts htotal hb :=
    hb.congr hsettings hregistry hid hstate hcounts htotal
  transfer hs hst hlive _ hkept hb := hb.transfer hs hst hlive hkept
  handOut hs hb := hb.handOut hs
  register _ _ _ _ ha hb := hb.register ha
  recount hb := ⟨(Books.recount hb.enrolled).enrolled, fun _ =>
    (Books.recount hb.enrolled).balanced trivial⟩

theorem Pool.Changes.books {c : Concern} {p q : Pool} {counted : Prop} (hc : Changes c p q)
    (hb : Books counted p) : Books counted q := (booksLaw c counted).changes hc hb

namespace World

variable {w v : World} {counted : Prop}

theorem perform_books (w : World) (a : Action) (hb : w.pool.Books counted) :
    (w.perform a).pool.Books counted := (Pool.booksLaw _ counted).perform hb

theorem Reaches.books (hr : w.Reaches v) (hb : w.pool.Books counted) : v.pool.Books counted :=
  hr.keep (P := fun w => w.pool.Books counted) (fun w a _ => perform_books w a) hb

end World

/-! ### Two accounts -/

/-- The census and a survey of the registered records come to the same. -/
structure Pool.Agrees (p : Pool) : Prop where
  count : ∀ s ∈ Lifecycle.live, p.census.count s = (p.registered.filter (·.state = s)).length
  total : p.census.total = (p.registered.filter (·.state ≠ .expired)).length
  surveyedCount : ∀ s, p.census.snapshot.count s = (Snapshot.scan p.registered).count s
  surveyedTotal : p.census.snapshot.total = (Snapshot.scan p.registered).total

theorem Pool.Books.agrees {p : Pool} (hb : Books True p) : p.Agrees := by
  have hstates : p.states = p.registered.map (·.state) := by
    rw [registered, List.map_filterMap]
    rfl
  have hcensus := hb.balanced trivial
  have hsurvey := Survey.balances_scan p.registered
  rw [hstates] at hcensus
  refine ⟨?_, ?_, ?_, ?_⟩
  · intro s hs
    rw [Census.count, hcensus.count s (Lifecycle.mem_live.mp hs), List.count_eq_countP,
      List.countP_map, List.countP_eq_length_filter]
    rfl
  · rw [hcensus.total, List.countP_map, List.countP_eq_length_filter]
    rfl
  · intro s
    by_cases hs : s = .expired
    · rw [hs]
      rfl
    · have hc := (hcensus.count s hs).trans (hsurvey.count s hs).symm
      cases s <;> first | exact hc | exact absurd rfl hs
  · exact hcensus.total.trans hsurvey.total.symm

theorem Stocked.books {records : Array (Record Float)} {registry : Registry}
    (hs : Stocked records registry) (settings : Settings) (sources : List String)
    (chooser : Chooser) (now : Instant) :
    (Pool.create settings sources chooser now records registry).Books (records = #[]) := by
  refine ⟨⟨hs.keyed, hs.named, ?_⟩, ?_⟩
  · intro h s hh hk
    obtain ⟨r, hr, _⟩ := Pool.exists_record_of_state hh
    obtain ⟨hlt, _⟩ := Array.getElem?_eq_some_iff.mp hr
    exact absurd (hs.listed h hlt) hk
  · intro he
    have hnone : registry.handles = [] := by
      refine List.eq_nil_iff_forall_not_mem.mpr fun h hh => ?_
      obtain ⟨e, hm, _⟩ := List.mem_map.mp hh
      have hname := hs.named e hm
      rw [he] at hname
      cases hname
    have hstates : (Pool.create settings sources chooser now records registry).states = [] := by
      rw [Pool.states]
      exact (congrArg _ hnone).trans rfl
    rw [hstates]
    exact ⟨fun s _ => StateCounts.get_empty s, rfl⟩

/-- From an empty pool on, and from the first start over any storage on, the census agrees
with the registry whatever happens. -/
theorem census_agrees (settings : Settings) (sources : List String) (chooser : Chooser)
    (now : Instant) (content : List (Record Float)) {w : World}
    (hw : (World.opening settings sources chooser now content).Reaches w) :
    (content = [] → w.pool.Agrees) ∧
      ∀ {pass : PassId} {v u : World}, w.start = (.fetching pass, v) → v.Reaches u →
        u.pool.Agrees := by
  have hopen := (Stocked.enroll content).books settings sources chooser now
  have hb := hw.books hopen
  constructor
  · intro he
    subst he
    exact (show w.pool.Books True from ⟨hb.enrolled, fun _ => hb.balanced rfl⟩).agrees
  · intro pass v u hs hu
    have he : ({ w.pool with running := true } : Pool).Enrolled :=
      ⟨hb.enrolled.keyed, hb.enrolled.named, hb.enrolled.gone⟩
    have hv := (World.start_changes hs).1.books (Pool.Books.recount he)
    exact (hu.books hv).agrees

/-- A run over an empty storage, and one over a storage with an available proxy that is
handed out before the start and returned after it. -/
theorem census_agrees_empty_and_restored :
    (∃ w, (World.opening .standard ["s"] (.roundRobin 0) 0 []).run?
        [.fetch, .supplyPass 0 (.ok [.plain "a" 1 .http]), .tryGet] = some w ∧ w.pool.Agrees) ∧
    ∃ w v u, (World.opening .standard ["s"] (.roundRobin 0) 0
        [{ Record.fresh (.plain "a" 1 .http) 0 1 with state := .available }]).run? [.tryGet] =
          some w ∧
      w.start = (.fetching 0, v) ∧ v.run? [.reportSuccess 0 .zero, .tick 1, .take 0] = some u ∧
      u.pool.Agrees := by
  constructor
  · obtain ⟨w, hw⟩ := Option.isSome_iff_exists.mp
      (show ((World.opening .standard ["s"] (.roundRobin 0) 0 []).run?
        [.fetch, .supplyPass 0 (.ok [.plain "a" 1 .http]), .tryGet]).isSome = true by
          decide +kernel)
    exact ⟨w, hw, (census_agrees _ _ _ _ _ ⟨_, hw⟩).1 rfl⟩
  · let w := (World.opening .standard ["s"] (.roundRobin 0) 0
      [{ Record.fresh (.plain "a" 1 .http) 0 1 with state := .available }]).perform .tryGet
    have hs : w.start = (.fetching 0, w.start.2) := rfl
    obtain ⟨u, hu⟩ := Option.isSome_iff_exists.mp
      (show (w.start.2.run? [.reportSuccess 0 .zero, .tick 1, .take 0]).isSome = true by
        decide +kernel)
    exact ⟨w, w.start.2, u, rfl, hs, hu, (census_agrees _ _ _ _ _ ⟨[.tryGet], rfl⟩).2 hs ⟨_, hu⟩⟩

end ProxyLease
