import Mathlib.Algebra.Order.Ring.Nat
import Mathlib.Data.List.Basic
import ProxyLease.Probe.Checkup

/-!
# Series within series

A checkup sends its probes from left to right and stops at the first failure, however the
probes are grouped into series. The groups do not show in the outcome either: a failure is
passed up as it is, and the times of successes are added up again at every level, so that
what comes out in the end is the sum of them all.
-/

namespace ProxyLease.Checkup

/-- A probe of a checkup: what it comes to, and after what time. -/
structure Station where
  outcome : Outcome
  delay : Duration

mutual

/-- The probes of a checkup from left to right. -/
def stations : Checkup → List Station
  | .single outcome delay => [⟨outcome, delay⟩]
  | .series members => stationsAll members

def stationsAll : List Checkup → List Station
  | [] => []
  | c :: rest => stations c ++ stationsAll rest

end

/-- One series of all the probes of a checkup. -/
def flat (c : Checkup) : Checkup :=
  .series (c.stations.map fun s => .single s.outcome s.delay)

/-- No series in the checkup is without members. -/
inductive Populated : Checkup → Prop
  | single (outcome : Outcome) (delay : Duration) : Populated (.single outcome delay)
  | series {members : List Checkup} (hne : members ≠ []) (hm : ∀ c ∈ members, c.Populated) :
      Populated (.series members)

namespace Station

/-- The times of probes added up, in nanoseconds. -/
def spent (list : List Station) : Nat := (list.map (·.outcome.elapsed.ns)).sum

/-- The time that passes while probes are sent, in nanoseconds. -/
def delayed (list : List Station) : Nat := (list.map (·.delay.ns)).sum

/-- The probes up to the first one that fails. -/
def reached : List Station → List Station
  | [] => []
  | s :: rest => if s.outcome.isSuccess then s :: reached rest else [s]

/-- What a probe makes of a run that ends with it after successes that took `total`. -/
def conclude (total : Nat) (o : Outcome) : Outcome :=
  if o.isSuccess then o.withElapsed ⟨total⟩ else o

/-- The outcome of a run that comes to `list` after an outcome `last` and times that add up
to `total`. -/
def outcome? (total : Nat) (last : Option Outcome) (list : List Station) : Option Outcome :=
  (((reached list).getLast?.map (·.outcome)).or last).map (conclude (total + spent list))

/-- One for every probe that is reached, zero for the others. -/
def marks (list : List Station) : List Nat :=
  List.replicate (reached list).length 1 ++
    List.replicate (list.length - (reached list).length) 0

/-- The run that sends probes one after the other up to the first failure. -/
def digest (total : Nat) (last : Option Outcome) (elapsed : Nat) (list : List Station) :
    CheckupRun :=
  ⟨outcome? total last list, ⟨elapsed + delayed (reached list)⟩, marks list,
    List.range (reached list).length⟩

variable {a b list : List Station} {total elapsed : Nat} {last : Option Outcome} {o : Outcome}

@[simp] theorem spent_append : spent (a ++ b) = spent a + spent b := by simp [spent]

@[simp] theorem delayed_append : delayed (a ++ b) = delayed a + delayed b := by simp [delayed]

@[simp] theorem isSuccess_withElapsed {d : Duration} :
    (o.withElapsed d).isSuccess = o.isSuccess := rfl

@[simp] theorem withElapsed_withElapsed {d e : Duration} :
    (o.withElapsed d).withElapsed e = o.withElapsed e := rfl

theorem reached_append (h : ∀ s ∈ a, s.outcome.isSuccess = true) :
    reached (a ++ b) = a ++ reached b := by
  induction a with
  | nil => rfl
  | cons s rest ih =>
    have hs := h s (by simp)
    simp [reached, hs, ih fun t ht => h t (by simp [ht])]

theorem reached_eq_self (h : ∀ s ∈ a, s.outcome.isSuccess = true) : reached a = a := by
  simpa [reached] using reached_append (b := []) h

theorem succeed_or_split (list : List Station) :
    (∀ s ∈ list, s.outcome.isSuccess = true) ∨
      ∃ before s after, list = before ++ s :: after ∧
        (∀ t ∈ before, t.outcome.isSuccess = true) ∧ s.outcome.isSuccess = false := by
  induction list with
  | nil => exact .inl (by simp)
  | cons s rest ih =>
    cases hs : s.outcome.isSuccess with
    | false => exact .inr ⟨[], s, rest, rfl, by simp, hs⟩
    | true =>
      rcases ih with hall | ⟨before, t, after, rfl, hbefore, ht⟩
      · exact .inl (by simpa [hs] using hall)
      · exact .inr ⟨s :: before, t, after, rfl, by simpa [hs] using hbefore, ht⟩

theorem reached_split {before after : List Station} {s : Station}
    (hbefore : ∀ t ∈ before, t.outcome.isSuccess = true) (hs : s.outcome.isSuccess = false) :
    reached (before ++ s :: after) = before ++ [s] := by
  simp [reached_append hbefore, reached, hs]

@[simp] theorem conclude_conclude {earlier : Nat} :
    conclude total (conclude earlier o) = conclude total o := by
  cases ho : o.isSuccess <;> simp [conclude, ho]

theorem digest_of_failure {before after : List Station} {s : Station}
    (hbefore : ∀ t ∈ before, t.outcome.isSuccess = true) (hs : s.outcome.isSuccess = false) :
    digest total last elapsed (before ++ s :: after) =
      ⟨some s.outcome, ⟨elapsed + delayed (before ++ [s])⟩,
        List.replicate (before.length + 1) 1 ++ List.replicate after.length 0,
        List.range (before.length + 1)⟩ := by
  have hrest : before.length + (after.length + 1) - (before.length + 1) = after.length := by omega
  simp [digest, outcome?, marks, conclude, reached_split hbefore hs, hs, hrest]

theorem digest_of_success {before : List Station} {s : Station}
    (h : ∀ t ∈ before ++ [s], t.outcome.isSuccess = true) :
    digest total last elapsed (before ++ [s]) =
      ⟨some (s.outcome.withElapsed ⟨total + spent (before ++ [s])⟩),
        ⟨elapsed + delayed (before ++ [s])⟩, List.replicate (before.length + 1) 1,
        List.range (before.length + 1)⟩ := by
  have hs := h s (by simp)
  simp [digest, outcome?, marks, conclude, reached_eq_self h, hs]

theorem exists_outcome_of_success (hne : a ≠ []) (h : ∀ s ∈ a, s.outcome.isSuccess = true) :
    ∃ o, (digest 0 none 0 a).outcome = some o ∧ o.isSuccess = true ∧ o.elapsed.ns = spent a := by
  have hsplit := List.dropLast_append_getLast hne
  have hs := h _ (List.getLast_mem hne)
  rw [← hsplit] at h ⊢
  rw [digest_of_success h]
  exact ⟨_, rfl, hs, by simp [Outcome.withElapsed]⟩

theorem digest_append_of_success (hne : a ≠ []) (h : ∀ s ∈ a, s.outcome.isSuccess = true) :
    digest total last elapsed (a ++ b) =
      let first := digest 0 none 0 a
      let others := digest (total + spent a) first.outcome (elapsed + first.took.ns) b
      ⟨others.outcome, others.took, first.calls ++ others.calls,
        first.sent ++ others.sent.map (first.calls.length + ·)⟩ := by
  have hs : a.getLast? = some (a.getLast hne) := List.getLast?_eq_some_getLast hne
  have houtcome : outcome? total last (a ++ b) =
      outcome? (total + spent a) (outcome? 0 none a) b := by
    cases hb : (reached b).getLast? <;>
      simp [outcome?, reached_append h, reached_eq_self h, hs, hb, Nat.add_assoc]
  have hcalls : marks (a ++ b) = marks a ++ marks b := by
    simp [marks, reached_append h, reached_eq_self h, Nat.add_sub_add_left, ← List.append_assoc]
  have hlength : (marks a).length = a.length := by simp [marks, reached_eq_self h]
  simp [digest, houtcome, hcalls, hlength, reached_append h, reached_eq_self h, Nat.add_assoc,
    List.range_add]

/-- Nothing after a failure is sent. -/
theorem digest_append_of_failure {s : Station} (hmem : s ∈ a) (hs : s.outcome.isSuccess = false) :
    digest total last elapsed (a ++ b) =
      let first := digest 0 none 0 a
      ⟨first.outcome, ⟨elapsed + first.took.ns⟩, first.calls ++ List.replicate b.length 0,
        first.sent⟩ := by
  rcases succeed_or_split a with hall | ⟨before, t, after, rfl, hbefore, ht⟩
  · simp [hall s hmem] at hs
  · simp [digest_of_failure hbefore ht]

end Station

open Station

variable {c : Checkup} {members : List Checkup}

mutual

theorem unsent_eq (c : Checkup) : unsent c = List.replicate c.stations.length 0 := by
  cases c with
  | single outcome delay => rfl
  | series members => exact unsentAll_eq members

theorem unsentAll_eq (members : List Checkup) :
    unsentAll members = List.replicate (stationsAll members).length 0 := by
  cases members with
  | nil => rfl
  | cons c rest => simp [unsentAll, stationsAll, unsent_eq c, unsentAll_eq rest]

end

/-- A checkup that sends its probes one after the other. -/
def Digests (c : Checkup) : Prop :=
  c.stations ≠ [] ∧ ∀ start, spent c.stations ≤ Duration.longest.ns →
    c.run start = digest 0 none 0 c.stations

theorem runSeries_cons_of_success {start : Instant} {total elapsed : Duration}
    {last : Option Outcome} {first : CheckupRun} {o : Outcome}
    (hfirst : c.run (start + elapsed.ns) = first) (ho : first.outcome = some o)
    (hs : o.isSuccess = true) (hsum : total.ns + o.elapsed.ns ≤ Duration.longest.ns) :
    runSeries start total last elapsed (c :: members) =
      let others := runSeries start ⟨total.ns + o.elapsed.ns⟩ (some o)
        ⟨elapsed.ns + first.took.ns⟩ members
      ⟨others.outcome, others.took, first.calls ++ others.calls,
        first.sent ++ others.sent.map (first.calls.length + ·)⟩ := by
  have hadd : total.add? o.elapsed = some ⟨total.ns + o.elapsed.ns⟩ := if_pos hsum
  simp [runSeries, hfirst, ho, hadd, hs]

theorem runSeries_cons_of_failure {start : Instant} {total elapsed : Duration}
    {last : Option Outcome} {first : CheckupRun} {o : Outcome}
    (hfirst : c.run (start + elapsed.ns) = first) (ho : first.outcome = some o)
    (hs : o.isSuccess = false) (hsum : total.ns + o.elapsed.ns ≤ Duration.longest.ns) :
    runSeries start total last elapsed (c :: members) =
      ⟨some o, ⟨elapsed.ns + first.took.ns⟩,
        first.calls ++ List.replicate (stationsAll members).length 0, first.sent⟩ := by
  have hadd : total.add? o.elapsed = some ⟨total.ns + o.elapsed.ns⟩ := if_pos hsum
  simp [runSeries, hfirst, ho, hadd, hs, unsentAll_eq]

/-- A series of such checkups sends all their probes one after the other. -/
theorem runSeries_eq_digest (hm : ∀ c ∈ members, c.Digests) (start : Instant) {total : Duration}
    {last : Option Outcome} (elapsed : Duration) (hlast : members = [] → last.isSome = true)
    (hgood : ∀ o, last = some o → o.isSuccess = true)
    (hsum : total.ns + spent (stationsAll members) ≤ Duration.longest.ns) :
    runSeries start total last elapsed members =
      digest total.ns last elapsed.ns (stationsAll members) := by
  induction members generalizing total last elapsed with
  | nil =>
    obtain ⟨o, rfl⟩ := Option.isSome_iff_exists.mp (hlast rfl)
    have ho := hgood o rfl
    simp [runSeries, stationsAll, digest, outcome?, conclude, ho, marks, reached, spent, delayed]
  | cons c rest ih =>
    obtain ⟨hne, hrun⟩ := hm c (by simp)
    rw [stationsAll, spent_append] at hsum
    have hfirst := hrun (start + elapsed.ns) (by omega)
    rcases succeed_or_split c.stations with hall | ⟨before, s, after, hsplit, hbefore, hs⟩
    · obtain ⟨o, ho, hgood, hspent⟩ := exists_outcome_of_success hne hall
      have hothers : runSeries start ⟨total.ns + o.elapsed.ns⟩ (some o)
          ⟨elapsed.ns + (digest 0 none 0 c.stations).took.ns⟩ rest =
            digest (total.ns + o.elapsed.ns) (some o)
              (elapsed.ns + (digest 0 none 0 c.stations).took.ns) (stationsAll rest) :=
        ih (fun d hd => hm d (by simp [hd])) _ (by simp) (by simpa using hgood)
          (by simp only [hspent]; omega)
      rw [runSeries_cons_of_success hfirst ho hgood (by omega), stationsAll,
        digest_append_of_success hne hall]
      simp only [ho, ← hspent, hothers]
    · have ho : (digest 0 none 0 c.stations).outcome = some s.outcome := by
        rw [hsplit, digest_of_failure hbefore hs]
      have hspent : s.outcome.elapsed.ns ≤ spent c.stations := by
        simp [hsplit, spent]
        omega
      rw [runSeries_cons_of_failure hfirst ho hs (by omega), stationsAll,
        digest_append_of_failure (s := s) (by simp [hsplit]) hs]
      simp [ho]

theorem stations_ne_nil (hc : c.Populated) : c.stations ≠ [] := by
  induction hc with
  | single outcome delay => simp [stations]
  | @series members hne _ ih =>
    cases members with
    | nil => exact absurd rfl hne
    | cons c rest => simp [stations, stationsAll, ih c (by simp)]

theorem Populated.digests (hc : c.Populated) : c.Digests := by
  refine ⟨stations_ne_nil hc, ?_⟩
  induction hc with
  | single outcome delay =>
    intro start _
    cases hs : outcome.isSuccess <;>
      simp [run, stations, digest, outcome?, conclude, marks, reached, spent, delayed, hs,
        Outcome.withElapsed]
  | @series members hne hm ih =>
    intro start hsum
    rw [stations] at hsum ⊢
    rw [run]
    exact runSeries_eq_digest (fun d hd => ⟨stations_ne_nil (hm d hd), ih d hd⟩) start .zero
      (fun h => absurd h hne) (by simp) (by simpa [Duration.zero] using hsum)

theorem stationsAll_single (list : List Station) :
    stationsAll (list.map fun s => .single s.outcome s.delay) = list := by
  induction list with
  | nil => rfl
  | cons s rest ih => simp [stationsAll, stations, ih]

theorem stations_flat (c : Checkup) : c.flat.stations = c.stations := stationsAll_single _

theorem populated_flat (hc : c.Populated) : c.flat.Populated := by
  refine .series (by simpa using stations_ne_nil hc) ?_
  intro d hd
  obtain ⟨s, -, rfl⟩ := List.mem_map.mp hd
  exact .single _ _

/-- Nested series come to the same as one series of all their probes: to the first failure as
it is, with nothing sent after it, or else to the last success with all the times added up. -/
theorem nested_series_run_flat (hc : c.Populated)
    (hsum : spent c.stations ≤ Duration.longest.ns) (start : Instant) :
    c.run start = c.flat.run start ∧
    ((∃ before s after, c.stations = before ++ s :: after ∧
        (∀ t ∈ before, t.outcome.isSuccess = true) ∧ s.outcome.isSuccess = false ∧
        (c.run start).outcome = some s.outcome ∧
        (c.run start).sent = List.range (before.length + 1) ∧
        (c.run start).calls =
          List.replicate (before.length + 1) 1 ++ List.replicate after.length 0) ∨
      ∃ before s, c.stations = before ++ [s] ∧
        (∀ t ∈ c.stations, t.outcome.isSuccess = true) ∧
        (c.run start).outcome = some { s.outcome with elapsed := ⟨spent c.stations⟩ } ∧
        (c.run start).sent = List.range c.stations.length ∧
        (c.run start).calls = List.replicate c.stations.length 1) := by
  have hrun := hc.digests.2 start hsum
  have hflat := (populated_flat hc).digests.2 start (by rwa [stations_flat])
  rw [stations_flat] at hflat
  refine ⟨hrun.trans hflat.symm, ?_⟩
  rw [hrun]
  rcases succeed_or_split c.stations with hall | ⟨before, s, after, hsplit, hbefore, hs⟩
  · obtain ⟨before, s, hsplit⟩ : ∃ before s, c.stations = before ++ [s] :=
      ⟨_, _, (List.dropLast_append_getLast (stations_ne_nil hc)).symm⟩
    refine .inr ⟨before, s, hsplit, hall, ?_⟩
    rw [hsplit] at hall ⊢
    simp [digest_of_success hall, Outcome.withElapsed]
  · refine .inl ⟨before, s, after, hsplit, hbefore, hs, ?_⟩
    simp [hsplit, digest_of_failure hbefore hs]

/-- A series in a series that succeeds, a failure in another one, and a probe after it. -/
theorem nested_series_run_flat_to_a_failure :
    let c : Checkup := .series
      [.series [.single (.success 3 ⟨40⟩ 200) ⟨7⟩, .single (.success 5 ⟨60⟩ 204) ⟨8⟩],
        .series [.single (.timeout 9 ⟨70⟩) ⟨9⟩, .single (.success 4 ⟨1⟩ 200) ⟨1⟩]]
    c.run 0 = ⟨some (.timeout 9 ⟨70⟩), ⟨24⟩, [1, 1, 1, 0], [0, 1, 2]⟩ ∧ c.run 0 = c.flat.run 0 := by
  intro c
  refine ⟨by decide, (nested_series_run_flat ?_ (by decide) 0).1⟩
  refine .series (by simp) ?_
  simp only [List.mem_cons, List.not_mem_nil, or_false]
  rintro d (rfl | rfl) <;> refine .series (by simp) ?_ <;> simp [Populated.single]

end ProxyLease.Checkup
