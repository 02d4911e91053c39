import ProxyLease.Proofs.Source.Listing
import ProxyLease.Proofs.Undercount
import ProxyLease.Proofs.World.Asking
import ProxyLease.Proofs.World.Beat

/-!
# Progress of acquisition

A pass takes in whatever its source names. But a source is asked for a number of endpoints
and names them from the front of its list, before anybody looks at what is registered. So
a pass over one source makes progress exactly if something new stands among what was asked
for, and a list whose front is known holds back all that stands behind it.
-/

namespace ProxyLease

/-- Some endpoint of a list is not registered. -/
def Pool.Lacks (p : Pool) (list : List Endpoint) : Prop :=
  ∃ e ∈ list, p.registry.get? e.id = none

/-- Something is registered that was not before. -/
def World.Gains (w v : World) : Prop :=
  ∃ e ∈ v.pool.registry.entries, e ∉ w.pool.registry.entries

/-- A pass over one source that nothing else interrupts: the question, and the answer. -/
def World.solePass (w : World) (source : Source) (link : Link) (round : Nat) : List Action :=
  [.fetch, .supplyPass w.passes.size (source.fetch link round w.pool.askCount)]

/-- Acquisition would make progress if every pass over one source registered something, as
long as there is room and the whole list of the source names an endpoint that is not
registered. -/
def Settings.MakesProgress (settings : Settings) : Prop :=
  ∀ {sources chooser now content w v} {source : Source} {link round complete},
    (World.opening settings sources chooser now content).Reaches w → w.pool.sources.length = 1 →
    w.pool.registry.size < settings.maxPoolSize → source.IsListing →
    (∀ count, ∃ list, source.fetch link round count = .ok list) →
    source.fetch link round 0 = .ok complete → w.pool.Lacks complete →
    w.run? (w.solePass source link round) = some v → w.Gains v

/-- With a batch of one, a pass over a file registers nothing while the first line of the
file is registered, though there is room and the second line is not. -/
theorem not_makesProgress :
    ¬ Settings.MakesProgress { Settings.standard with fetchBatchSize := 1 } := by
  intro hprogress
  let source : Source := .file (.text "a:1\nb:1") .http
  let before : List Action := [.fetch, .supplyPass 0 (source.fetch .down 0 1)]
  have hrun : ((World.opening { Settings.standard with fetchBatchSize := 1 } ["file"]
      (.roundRobin 0) 0 []).run? before).bind (fun w =>
        (w.run? (w.solePass source .down 0)).map fun v => decide (w.pool.sources.length = 1 ∧
          w.pool.registry.size = 1 ∧ w.pool.registry.get? "b:1" = none ∧
          v.pool.registry = w.pool.registry)) = some true := by
    decide +kernel
  have hcomplete : source.fetch .down 0 0 =
      .ok [(Endpoint.plain "a" 1 .http).withDefaultSource "file",
        (Endpoint.plain "b" 1 .http).withDefaultSource "file"] := by
    decide +kernel
  obtain ⟨w, hw, hrest⟩ := Option.bind_eq_some_iff.mp hrun
  obtain ⟨v, hv, hfacts⟩ := Option.map_eq_some_iff.mp hrest
  obtain ⟨hsole, hsize, hlacks, hsame⟩ := of_decide_eq_true hfacts
  obtain ⟨e, hnew, hold⟩ := hprogress ⟨before, hw⟩ hsole (by rw [hsize]; decide) (.file _ _)
    (fun count => ⟨_, rfl⟩) hcomplete ⟨_, List.mem_cons_of_mem _ List.mem_cons_self, hlacks⟩ hv
  rw [hsame] at hnew
  exact hold hnew

namespace Pool

variable {p q : Pool} {n : Nat} {list offered : List Endpoint} {e : Endpoint}

theorem get?_eq_none_iff {r : Registry} {id : String} :
    r.get? id = none ↔ ∀ d ∈ r.entries, d.1 ≠ id := by
  rw [Registry.get?, List.lookup_eq_none_iff]
  refine forall₂_congr fun d _ => ?_
  rw [bne_iff_ne]
  exact ne_comm

theorem admit?_isSome_iff : (p.admit? e).isSome = true ↔ p.registry.get? e.id = none := by
  rw [admit?, Option.isSome_map, Registry.add?]
  cases p.registry.get? e.id <;> simp

theorem admitAll_gains (added : Nat) (hroom : p.census.total < p.settings.maxPoolSize)
    (hnew : p.Lacks list) : added < (p.admitAll added list).1 := by
  obtain ⟨e, he, hnone⟩ := hnew
  induction list with
  | nil => cases he
  | cons d rest ih =>
    rw [admitAll, if_neg (Nat.not_le.mpr hroom)]
    cases hd : p.admit? d with
    | some q =>
      obtain ⟨n, hn, _⟩ := admitAll_intake (p := q) (added + 1) (List.Subset.refl rest)
      dsimp only
      omega
    | none =>
      rcases List.mem_cons.mp he with rfl | hrest
      · have hsome := admit?_isSome_iff.mpr hnone
        rw [hd] at hsome
        cases hsome
      · exact ih hrest

theorem Intake.pos_iff (hi : Intake offered n p q) (he : p.Enrolled) :
    0 < n ↔ ∃ e ∈ q.registry.entries, e ∉ p.registry.entries := by
  constructor
  · intro hpos
    have hh : p.records.size ∈ q.registry.handles := by
      rw [hi.handles.mem_iff, List.mem_append, List.mem_range'_1]
      exact .inl ⟨Nat.le_refl _, Nat.lt_add_of_pos_right hpos⟩
    obtain ⟨e, hq, heq⟩ := List.mem_map.mp hh
    refine ⟨e, hq, fun hp => ?_⟩
    have hold : p.records.size ∈ p.registry.handles := heq ▸ List.mem_map_of_mem hp
    exact Nat.lt_irrefl _ (he.lt_size hold)
  · rintro ⟨e, hq, hp⟩
    by_contra hn
    have hsame : q.registry.entries.length = p.registry.entries.length := by
      have hlength := hi.handles.length_eq
      simpa [Registry.handles, Nat.eq_zero_of_not_pos hn] using hlength
    have hsub := List.subperm_of_subset (List.Nodup.of_map _ he.keyed) hi.entries
    have hperm := hsub.perm_of_length_le (Nat.le_of_eq hsame)
    exact hp (hperm.mem_iff.mpr hq)

theorem Intake.lacks (hi : Intake offered n p q)
    (hnew : ∃ e ∈ q.registry.entries, e ∉ p.registry.entries) : p.Lacks offered := by
  obtain ⟨e, hq, hp⟩ := hnew
  obtain ⟨hid, _, x, hx, hxid, _⟩ := hi.newcomers e hq hp
  exact ⟨x, hx, get?_eq_none_iff.mpr fun d hd => hxid ▸ hid d hd⟩

end Pool

namespace World

variable {w : World} {list : List Endpoint}

theorem fetch_asks {state : Asking} (hgo : (proceed w.pool .start).1 = some state) :
    (w.perform .fetch).asking? (.pass w.passes.size) = some state ∧
      (w.perform .fetch).pool = (proceed w.pool .start).2 := by
  refine ⟨?_, rfl⟩
  rw [asking_pass_iff, perform, beginPass]
  simp only [hgo]
  exact Array.getElem?_push_size

theorem answered_sole {p : Pool} (hsole : p.sources.length = 1) (count : Nat)
    (answer : Except SourceFailure (List Endpoint)) :
    (answered p ⟨.start, 0, count⟩ answer).2.1 = none := by
  obtain ⟨n, hpass, hi⟩ := Pool.receive_intake p .start answer
  rw [Pool.answered_eq, Pool.proceed_eq, hpass, hi.sources, hsole, if_neg]
  exact fun hgo => absurd hgo.1 (Nat.lt_irrefl 1)

theorem run_solePass {source : Source} {link : Link} {round : Nat}
    (hsole : w.pool.sources.length = 1) (hroom : w.pool.census.total < w.pool.settings.maxPoolSize)
    (hlist : source.fetch link round w.pool.askCount = .ok list) (he : w.pool.Enrolled) :
    ∃ v added, w.run? (w.solePass source link round) = some v ∧
      v.passes[w.passes.size]? = some (.finished added) ∧
      (0 < added ↔ w.Gains v) ∧ (w.Gains v ↔ w.pool.Lacks list) := by
  have hgo : (proceed w.pool .start).1 = some ⟨.start, 0, w.pool.askCount⟩ := by
    rw [Pool.proceed_eq, if_pos]
    · rfl
    · exact ⟨by rw [hsole]; exact Nat.one_pos, Nat.sub_pos_of_lt hroom⟩
  obtain ⟨hx, hpool⟩ := fetch_asks hgo
  rw [(Pool.proceed_ask hgo).2.2.2] at hpool
  have hi := asking_pass_iff.mp hx
  obtain ⟨call, hcall, hasking, hadded⟩ := supplyPass_eq hi (.ok list)
  generalize hw : w.perform .fetch = u at hx hpool hi hcall hasking hadded
  have hregistry : u.pool.registry = w.pool.registry := by rw [hpool, Pool.ask, Pool.emit]
  obtain ⟨n, hpass, hintake⟩ := Pool.answered_intake u.pool ⟨.start, 0, w.pool.askCount⟩ (.ok list)
  have hfinished : call = .finished n := by
    rw [answered_sole (by rw [hpool]; exact hsole)] at hasking
    rw [hpass] at hadded
    cases call with
    | asking state => cases hasking
    | finished added => simpa [PassCall.added, Pass.start] using hadded
  have henrolled : u.pool.Enrolled := by
    rw [hpool]
    exact ⟨he.keyed, he.named, he.gone⟩
  have hgains := hintake.pos_iff henrolled
  refine ⟨u.supplyPass w.passes.size (.ok list), n, ?_, ?_, ?_, ?_⟩
  · have hasks : w.Enabled .fetch = true := rfl
    have hanswers : u.Enabled (.supplyPass w.passes.size (.ok list)) = true :=
      (enabled_supply u (.pass _) _).trans (by rw [hx]; rfl)
    rw [solePass, hlist, run?, if_pos hasks, hw, run?, if_pos hanswers]
    rfl
  · rw [passes_supplyPass hi (by rw [hcall]), if_pos rfl, hfinished]
  · rw [hgains, Gains, hcall, hregistry]
  · rw [Gains, hcall, ← hregistry, Pool.Lacks, ← hregistry]
    refine ⟨hintake.lacks, fun hnew => hgains.mp ?_⟩
    have hgained := Pool.admitAll_gains (p := u.pool) 0 (by rw [hpool]; exact hroom) hnew
    have hcount : (u.pool.admitAll 0 list).1 = 0 + n := congrArg Pass.added hpass
    omega

end World

/-- A pass over one source, on which there is room, registers something exactly if the
source names something that is not registered among as many endpoints as it is asked for.
A source with one listing names the front of it. -/
theorem progress_by_what_is_asked {settings : Settings} {sources : List String}
    {chooser : Chooser} {now : Instant} {content : List (Record Float)} {w : World}
    (hw : (World.opening settings sources chooser now content).Reaches w)
    (hsole : w.pool.sources.length = 1) (hroom : w.pool.registry.size < settings.maxPoolSize)
    (source : Source) (link : Link) (round : Nat) {list : List Endpoint}
    (hlist : source.fetch link round w.pool.askCount = .ok list) :
    (∃ v added, w.run? (w.solePass source link round) = some v ∧
      v.passes[w.passes.size]? = some (.finished added) ∧
      (0 < added ↔ w.Gains v) ∧ (w.Gains v ↔ w.pool.Lacks list)) ∧
    (source.isSingle = true → ∀ complete, source.fetch link round 0 = .ok complete →
      list = complete.take w.pool.askCount) := by
  have hmodest := World.modest_of_reaches hw
  have hsettings := World.settings_of_reaches hw
  have htotal : w.pool.census.total < w.pool.settings.maxPoolSize := by
    rw [hsettings]
    exact Nat.lt_of_le_of_lt hmodest.total_le hroom
  refine ⟨World.run_solePass hsole htotal hlist hmodest.enrolled, ?_⟩
  intro hsingle complete hcomplete
  have hpos := (Pool.askCount_bounds (p := w.pool) (Nat.sub_pos_of_lt htotal)).1
  rw [Source.fetch_eq_take hsingle link round (Nat.one_le_iff_ne_zero.mp hpos), hcomplete] at hlist
  exact (Except.ok.inj hlist).symm

/-- With a batch of one and one proxy registered, a file gets its second line registered
only when that one comes first. -/
theorem progress_by_what_is_asked_of_a_file :
    ∃ w v, (World.opening { Settings.standard with fetchBatchSize := 1 } ["file"]
        (.roundRobin 0) 0 []).run? [.fetch, .supplyPass 0 (.ok [.plain "a" 1 .http])] = some w ∧
      w.run? (w.solePass (.file (.text "b:1\na:1") .http) .down 0) = some v ∧ w.Gains v := by
  let source : Source := .file (.text "b:1\na:1") .http
  have hrun : ((World.opening { Settings.standard with fetchBatchSize := 1 } ["file"]
      (.roundRobin 0) 0 []).run? [.fetch, .supplyPass 0 (.ok [.plain "a" 1 .http])]).map
        (fun w => decide (w.pool.sources.length = 1 ∧ w.pool.registry.size = 1 ∧
          w.pool.askCount = 1 ∧ w.pool.registry.get? "b:1" = none)) = some true := by
    decide +kernel
  have hlist : source.fetch .down 0 1 =
      .ok [(Endpoint.plain "b" 1 .http).withDefaultSource "file"] := by
    decide +kernel
  obtain ⟨w, hw, hfacts⟩ := Option.map_eq_some_iff.mp hrun
  obtain ⟨hsole, hsize, hcount, hlacks⟩ := of_decide_eq_true hfacts
  obtain ⟨⟨v, _, hv, _, _, hgains⟩, _⟩ := progress_by_what_is_asked ⟨_, hw⟩ hsole
    (by rw [hsize]; decide) source .down 0 (by rw [hcount]; exact hlist)
  exact ⟨w, v, hw, hv, hgains.mpr ⟨_, List.mem_cons_self, hlacks⟩⟩

end ProxyLease
