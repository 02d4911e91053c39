import Mathlib.Algebra.BigOperators.Ring.List
import ProxyLease.Proofs.Census
import ProxyLease.Proofs.Statistics

/-!
# Averages of a survey

The average response times of a pool are computed in two ways. A census is fed with single
probes and uses, and adds up their times. A survey of records finds one running mean for each
proxy; it weighs the means by probes, or not at all. The two ways agree when only probes are
timed, or when every proxy was timed equally often, and part otherwise.
-/

namespace ProxyLease

open Statistics (Event responseTimes)

namespace Statistics

def probeTimes (events : List Event) : List ℚ := responseTimes (events.filter (·.isProbe))

theorem probeTimes_concat (events : List Event) (e : Event) :
    probeTimes (events ++ [e]) =
      probeTimes events ++ if e.isProbe then e.responseMs?.toList else [] := by
  cases probe : e.isProbe with
  | true => simp [probeTimes, probe, responseTimes_concat]
  | false => simp [probeTimes, probe]

theorem length_probeTimes (events : List Event) :
    (probeTimes events).length = (events.filter (·.isProbe)).length := by
  induction events with
  | nil => rfl
  | cons e rest ih =>
    cases e with
    | probe outcome => simpa [probeTimes, responseTimes, Event.isProbe, Event.responseMs?,
        Event.elapsed?] using ih
    | use _ _ _ _ => simpa [probeTimes, Event.isProbe] using ih

theorem responseTimes_eq_probeTimes {events : List Event}
    (hp : ∀ e ∈ events, e.elapsed?.isSome → e.isProbe) :
    responseTimes events = probeTimes events := by
  rw [responseTimes, probeTimes, responseTimes, List.filterMap_filter]
  refine List.filterMap_congr fun e he => ?_
  cases timed : e.elapsed? with
  | none => simp [Event.responseMs?, timed]
  | some d => rw [if_pos (hp e he (by simp [timed]))]

theorem responseTimes_flatMap {α : Type} (f : α → List Event) (l : List α) :
    responseTimes (l.flatMap f) = l.flatMap fun a => responseTimes (f a) :=
  List.filterMap_flatMap

theorem probeTimes_flatMap {α : Type} (f : α → List Event) (l : List α) :
    probeTimes (l.flatMap f) = l.flatMap fun a => probeTimes (f a) := by
  rw [probeTimes, List.filter_flatMap, responseTimes_flatMap]
  rfl

end Statistics

open Statistics (probeTimes probeTimes_concat responseTimes_concat)

/-! ## A census that is fed -/

namespace Census

variable {R : Type} [Scalar R]

/-- Takes in the time of a probe, or of a use if it was reported. -/
def feed (c : Census R) : Event → Census R
  | .probe outcome => c.recordValidation outcome.validatedAt outcome
  | .use now _ elapsed _ => (elapsed.map fun d => c.recordUseTime now d).getD c

/-- The response times that a census adds up are those of some events. -/
structure Sums (c : Census ℚ) (events : List Event) : Prop where
  validations : c.validations = (probeTimes events).length
  validationMs : c.validationMs = (probeTimes events).sum
  responses : c.responses = (responseTimes events).length
  responseMs : c.responseMs = (responseTimes events).sum

namespace Sums

theorem feed {c : Census ℚ} {events : List Event} (h : c.Sums events) (e : Event) :
    (c.feed e).Sums (events ++ [e]) := by
  cases e with
  | probe outcome =>
    cases good : outcome.isSuccess <;> constructor <;>
      simp [Census.feed, recordValidation, recordResponse, good, probeTimes_concat,
        responseTimes_concat, Event.isProbe, Event.responseMs?, Event.elapsed?, h.validations,
        h.validationMs, h.responses, h.responseMs]
  | use now success elapsed verdict =>
    cases elapsed <;> constructor <;>
      simp [Census.feed, recordUseTime, recordResponse, probeTimes_concat, responseTimes_concat,
        Event.isProbe, Event.responseMs?, Event.elapsed?, h.validations, h.validationMs,
        h.responses, h.responseMs]

theorem foldl_feed (now : Instant) (events : List Event) :
    (events.foldl Census.feed (empty now)).Sums events := by
  induction events using List.reverseRecOn with
  | nil => constructor <;> simp [empty, probeTimes, responseTimes]
  | append_singleton events e ih =>
    rw [List.foldl_concat]
    exact ih.feed e

theorem means {c : Census ℚ} {events : List Event} (h : c.Sums events) :
    c.snapshot.meanValidation = average (probeTimes events) ∧
      c.snapshot.meanResponse = average (responseTimes events) := by
  simp [snapshot, average, h.validations, h.validationMs, h.responses, h.responseMs]

end Sums
end Census

/-! ## Records with a past -/

/-- A record and the history that its statistics are kept of. -/
structure Dossier where
  record : Record ℚ
  events : List Event
  kept : record.statistics = .ofEvents events

namespace Dossier

def probes (d : Dossier) : List ℚ := probeTimes d.events

def samples (d : Dossier) : List ℚ := responseTimes d.events

theorem mean_eq (d : Dossier) : d.record.statistics.latency.mean = average d.samples := by
  rw [d.kept]
  exact (Statistics.Tells.ofEvents d.events).latency.mean

theorem validations_eq (d : Dossier) :
    d.record.statistics.validations.total = d.probes.length := by
  rw [d.kept, probes, Statistics.length_probeTimes]
  exact (Statistics.Tells.ofEvents d.events).validations.total

def ofEvents (endpoint : Endpoint) (state : Lifecycle) (events : List Event) : Dossier where
  record := ⟨endpoint, 0, state, .ofEvents events, 1⟩
  events := events
  kept := rfl

/-- Those that are surveyed. -/
def live (dossiers : List Dossier) : List Dossier :=
  dossiers.filter (·.record.state ≠ .expired)

end Dossier

/-! ## The survey -/

namespace Survey

/-- What a survey adds up over the live among some records. -/
structure Sums (s : Survey ℚ) (surveyed : List Dossier) : Prop where
  validations : s.census.validations = (surveyed.map (·.probes.length)).sum
  weightedMs : s.weightedMs = (surveyed.map fun d => average d.samples * d.probes.length).sum
  responseMs : s.responseMs = (surveyed.map fun d => average d.samples).sum

namespace Sums

theorem add {s : Survey ℚ} {surveyed : List Dossier} (h : s.Sums surveyed) {d : Dossier}
    (hd : d.record.state ≠ .expired) : (s.add d.record).Sums (surveyed ++ [d]) := by
  unfold Survey.add
  rw [if_neg hd]
  constructor
  · simp [Census.add, hd, h.validations, d.validations_eq]
  · simp [h.weightedMs, d.mean_eq, d.validations_eq]
  · simp [h.responseMs, d.mean_eq]

theorem scan (dossiers : List Dossier) :
    ((dossiers.map (·.record)).foldl Survey.add empty).Sums (Dossier.live dossiers) := by
  induction dossiers using List.reverseRecOn with
  | nil => constructor <;> simp [empty, Census.empty, Dossier.live]
  | append_singleton dossiers d ih =>
    rw [List.map_append, List.foldl_append]
    by_cases hd : d.record.state = .expired
    · simpa [Dossier.live, Survey.add, hd] using ih
    · simpa [Dossier.live, hd] using ih.add hd

end Sums
end Survey

namespace Snapshot

open Dossier (live)

variable (dossiers : List Dossier)

theorem meanValidation_scan :
    (scan (dossiers.map (·.record))).meanValidation =
      ((live dossiers).map fun d => average d.samples * d.probes.length).sum /
        ((live dossiers).flatMap (·.probes)).length := by
  have sums := Survey.Sums.scan dossiers
  simp [scan, Census.snapshot, sums.validations, sums.weightedMs, List.length_flatMap]

theorem meanResponse_scan :
    (scan (dossiers.map (·.record))).meanResponse =
      average ((live dossiers).map fun d => average d.samples) := by
  have sums := Survey.Sums.scan dossiers
  have total : ((dossiers.map (·.record)).foldl Survey.add Survey.empty).census.total =
      (live dossiers).length := by
    rw [(Survey.balances_scan _).total, List.map_map, List.countP_map,
      List.countP_eq_length_filter]
    rfl
  simp [scan, Census.snapshot, sums.responseMs, total, average]

/-- Weighing the means by probes is right when nothing else is timed. -/
theorem meanValidation_of_probes
    (hp : ∀ d ∈ live dossiers, ∀ e ∈ d.events, e.elapsed?.isSome → e.isProbe) :
    (scan (dossiers.map (·.record))).meanValidation =
      average ((live dossiers).flatMap (·.probes)) := by
  have weighted : ((live dossiers).map fun d => average d.samples * d.probes.length) =
      (live dossiers).map fun d => d.probes.sum := by
    refine List.map_congr_left fun d hd => ?_
    have same : d.samples = d.probes := Statistics.responseTimes_eq_probeTimes (hp d hd)
    rw [same, average_mul_length]
  rw [meanValidation_scan, weighted, average, sum_flatMap]

/-- The mean of the means is right when all are over equally many times. -/
theorem meanResponse_of_length {n : Nat} (hn : ∀ d ∈ live dossiers, d.samples.length = n) :
    (scan (dossiers.map (·.record))).meanResponse =
      average ((live dossiers).flatMap (·.samples)) := by
  have means : ((live dossiers).map fun d => average d.samples) =
      (live dossiers).map fun d => d.samples.sum * (n : ℚ)⁻¹ := by
    refine List.map_congr_left fun d hd => ?_
    rw [average, hn d hd, div_eq_mul_inv]
  have count : ((live dossiers).flatMap (·.samples)).length = (live dossiers).length * n := by
    rw [List.length_flatMap, List.map_congr_left hn]
    simp
  -- Division by zero is zero, so that proxies without any times need no case of their own.
  rw [meanResponse_scan, means, average, average, List.sum_map_mul_right, sum_flatMap, count,
    List.length_map, Nat.cast_mul, mul_comm ((live dossiers).length : ℚ), ← div_eq_mul_inv,
    div_div]

/-- Scans show the mean time of the probes of all live proxies. -/
def AveragesProbes : Prop :=
  ∀ dossiers : List Dossier, (scan (dossiers.map (·.record))).meanValidation =
    average ((live dossiers).flatMap (·.probes))

/-- Scans show the mean of all response times of the live proxies. -/
def AveragesSamples : Prop :=
  ∀ dossiers : List Dossier, (scan (dossiers.map (·.record))).meanResponse =
    average ((live dossiers).flatMap (·.samples))

/-- One proxy that answers a probe in a second and a use in three, and one that answers a single
probe in five. -/
def unevenlyTimed : List Dossier :=
  [.ofEvents (.plain "10.0.0.1" 8080 .http) .available
    [.probe (.success 0 (.ofSeconds 1) 200), .use 0 true (some (.ofSeconds 3)) .success],
   .ofEvents (.plain "10.0.0.2" 8080 .http) .available
    [.probe (.success 0 (.ofSeconds 5) 200)]]

/-- A timed use weighs in as a probe, and a proxy with one time as much as one with two: both
averages come out as three and a half seconds, and should be three. -/
theorem not_averagesProbes_nor_averagesSamples : ¬AveragesProbes ∧ ¬AveragesSamples := by
  refine ⟨fun h => ?_, fun h => ?_⟩
  · have shown : (scan (unevenlyTimed.map (·.record))).meanValidation = 3500 := by decide +kernel
    have due : average ((live unevenlyTimed).flatMap (·.probes)) = 3000 := by decide +kernel
    rw [h, due] at shown
    exact absurd shown (by decide)
  · have shown : (scan (unevenlyTimed.map (·.record))).meanResponse = 3500 := by decide +kernel
    have due : average ((live unevenlyTimed).flatMap (·.samples)) = 3000 := by decide +kernel
    rw [h, due] at shown
    exact absurd shown (by decide)

/-- A census that is fed with the probes and timed uses of the live proxies, in any order, shows
the mean time of the probes and the mean of all times. A scan of the records weighs the mean of
each proxy by its probes, and takes the mean of the means as it is. It shows the same averages if
only probes are timed, and if all proxies are timed equally often. -/
theorem scan_averages_means (fed : List Event) (start : Instant)
    (hfed : fed.Perm ((live dossiers).flatMap (·.events))) :
    let scanned := scan (dossiers.map (·.record))
    let counted := (fed.foldl Census.feed (.empty start) : Census ℚ).snapshot
    (counted.meanValidation = average ((live dossiers).flatMap (·.probes)) ∧
      counted.meanResponse = average ((live dossiers).flatMap (·.samples))) ∧
    (scanned.meanValidation =
        ((live dossiers).map fun d => average d.samples * d.probes.length).sum /
          ((live dossiers).flatMap (·.probes)).length ∧
      scanned.meanResponse = average ((live dossiers).map fun d => average d.samples)) ∧
    ((∀ d ∈ live dossiers, ∀ e ∈ d.events, e.elapsed?.isSome → e.isProbe) →
      scanned.meanValidation = counted.meanValidation) ∧
    ∀ n, (∀ d ∈ live dossiers, d.samples.length = n) →
      scanned.meanResponse = counted.meanResponse := by
  intro scanned counted
  have sums : (fed.foldl Census.feed (.empty start) : Census ℚ).Sums fed := .foldl_feed start fed
  have probes : (probeTimes fed).Perm ((live dossiers).flatMap (·.probes)) :=
    Statistics.probeTimes_flatMap Dossier.events (live dossiers) ▸ (hfed.filter _).filterMap _
  have samples : (responseTimes fed).Perm ((live dossiers).flatMap (·.samples)) :=
    Statistics.responseTimes_flatMap Dossier.events (live dossiers) ▸ hfed.filterMap _
  have means := sums.means
  rw [average_perm probes, average_perm samples] at means
  refine ⟨means, ⟨meanValidation_scan dossiers, meanResponse_scan dossiers⟩, ?_, ?_⟩
  · intro hp
    rw [means.1]
    exact meanValidation_of_probes dossiers hp
  · intro n hn
    rw [means.2]
    exact meanResponse_of_length dossiers hn

/-- Two live proxies that were probed once each, and an expired one. -/
theorem scan_averages_means_of_two :
    let probe (seconds : Nat) : Event := .probe (.success 0 (.ofSeconds seconds) 200)
    let proxy (state : Lifecycle) (seconds : Nat) : Dossier :=
      .ofEvents (.plain "10.0.0.1" 8080 .http) state [probe seconds]
    let dossiers := [proxy .available 1, proxy .expired 9, proxy .cooldown 5]
    let fed := [probe 5, probe 1]
    let scanned := scan (dossiers.map (·.record))
    let counted := (fed.foldl Census.feed (.empty 0) : Census ℚ).snapshot
    fed.Perm ((live dossiers).flatMap (·.events)) ∧
      (∀ d ∈ live dossiers, ∀ e ∈ d.events, e.elapsed?.isSome → e.isProbe) ∧
      (∀ d ∈ live dossiers, d.samples.length = 1) ∧
      scanned.meanValidation = counted.meanValidation ∧
      scanned.meanResponse = counted.meanResponse ∧ counted.meanResponse = 3000 := by
  intro probe proxy dossiers fed scanned counted
  have hfed : fed.Perm ((live dossiers).flatMap (·.events)) := .swap _ _ _
  have hp : ∀ d ∈ live dossiers, ∀ e ∈ d.events, e.elapsed?.isSome → e.isProbe := by
    simp [dossiers, live, proxy, Dossier.ofEvents, probe, Event.isProbe]
  have hn : ∀ d ∈ live dossiers, d.samples.length = 1 := by
    simp [dossiers, live, proxy, Dossier.ofEvents, probe, Dossier.samples, responseTimes,
      Event.responseMs?, Event.elapsed?]
  obtain ⟨-, -, validation, response⟩ := scan_averages_means dossiers fed 0 hfed
  exact ⟨hfed, hp, hn, validation hp, response 1 hn, by decide +kernel⟩

end Snapshot
end ProxyLease
