import Mathlib.Tactic.GCongr
import Mathlib.Tactic.Linarith
import Mathlib.Tactic.Positivity
import ProxyLease.Proofs.Statistics

/-!
# Weights follow what is recorded

The weight of a proxy grows with its success rate and its freshness and falls with its mean
latency. Over exact numbers it is positive and bounded, it falls while the proxy is idle until
an hour has passed, and one more probe moves it the right way: a fast success never lowers it, and
a slow failure never raises it.
-/

namespace ProxyLease

theorem average_concat_le {times : List ℚ} {ms : ℚ} (h : ms ≤ average times) :
    average (times ++ [ms]) ≤ average times := by
  have sum := average_mul_length times
  have count : (0 : ℚ) < times.length + 1 := by positivity
  rw [average, List.sum_append, List.sum_singleton, List.length_append, List.length_singleton,
    Nat.cast_add, Nat.cast_one, div_le_iff₀ count]
  linarith

theorem le_average_concat {times : List ℚ} {ms : ℚ} (h : average times ≤ ms) :
    average times ≤ average (times ++ [ms]) := by
  have sum := average_mul_length times
  have count : (0 : ℚ) < times.length + 1 := by positivity
  rw [average.eq_def (times ++ [ms]), List.sum_append, List.sum_singleton, List.length_append,
    List.length_singleton, Nat.cast_add, Nat.cast_one, le_div_iff₀ count]
  linarith

@[simp] theorem Duration.toSeconds_rat (d : Duration) : (d.toSeconds : ℚ) = d.ns / 1000000000 := by
  have ms : (d.toSeconds * 1000 : ℚ) = d.ns / 1000000 := d.toMillis_rat
  linarith

namespace Tally

theorem successRate_rat (t : Tally) : (t.successRate : ℚ) = t.successes / t.total := by
  unfold successRate
  split
  · rename_i nothing
    simp [nothing]
  · rfl

theorem successRate_le_record {t : Tally} (ht : t.successes ≤ t.total) (v : Verdict) :
    (t.successRate : ℚ) ≤ (t.record true v).successRate := by
  rw [successRate_rat, successRate_rat]
  change (t.successes / t.total : ℚ) ≤ ((t.successes + 1 : ℕ) / (t.total + 1 : ℕ))
  obtain nothing | some := Nat.eq_zero_or_pos t.total
  · rw [nothing, Nat.cast_zero, div_zero]
    positivity
  · have total : (0 : ℚ) < t.total := Nat.cast_pos.mpr some
    have within : (t.successes : ℚ) ≤ t.total := Nat.cast_le.mpr ht
    push_cast
    rw [div_le_div_iff₀ total (by positivity)]
    linarith

theorem record_successRate_le {t : Tally} (ht : t.successes ≤ t.total) (v : Verdict) :
    ((t.record false v).successRate : ℚ) ≤ t.successRate := by
  rw [successRate_rat, successRate_rat]
  change (t.successes / (t.total + 1 : ℕ) : ℚ) ≤ t.successes / t.total
  obtain nothing | some := Nat.eq_zero_or_pos t.total
  · have none : t.successes = 0 := by omega
    simp [none]
  · have total : (0 : ℚ) < t.total := Nat.cast_pos.mpr some
    push_cast
    gcongr
    linarith

end Tally

namespace Statistics

variable {s : Statistics ℚ} {now later used : Instant}

/-! ## The formula -/

def weighing (rate latency freshness : ℚ) : ℚ :=
  min (max rate (1 / 100)) 1 * (1 / max latency 1) * (1 / 2 + freshness)

theorem weight_rat (s : Statistics ℚ) (now : Instant) :
    s.weight now = weighing s.validations.successRate s.latency.mean (s.freshness now) := by
  simp [weight, weighing, Scalar.clamp, Scalar.ratio]

theorem weighing_le_weighing {rate rate' latency latency' fresh fresh' : ℚ}
    (hrate : rate ≤ rate') (hlatency : latency' ≤ latency) (hfresh : fresh ≤ fresh')
    (hpos : 0 ≤ fresh) : weighing rate latency fresh ≤ weighing rate' latency' fresh' := by
  have clamped : 0 ≤ min (max rate' (1 / 100)) 1 := by positivity
  unfold weighing
  gcongr

/-- A weight is positive, and no more than that of a fresh proxy which answers every probe within
a millisecond. -/
theorem weighing_mem {rate latency fresh : ℚ} (hpos : 0 ≤ fresh) (hone : fresh ≤ 1) :
    0 < weighing rate latency fresh ∧ weighing rate latency fresh ≤ 3 / 2 := by
  have low : 0 < min (max rate (1 / 100)) 1 := by positivity
  have high : min (max rate (1 / 100)) 1 ≤ 1 := min_le_right _ _
  have slow : 1 / max latency 1 ≤ 1 := (div_le_one (by positivity)).mpr (le_max_right _ _)
  unfold weighing
  refine ⟨by positivity, ?_⟩
  calc min (max rate (1 / 100)) 1 * (1 / max latency 1) * (1 / 2 + fresh)
      ≤ 1 * 1 * (1 / 2 + 1) := by gcongr
    _ = 3 / 2 := by norm_num

/-! ## Idle time -/

theorem freshness_of_used (hused : s.lastUsedAt = some used) (now : Instant) :
    s.freshness now = 1 / (1 + min ((now - used : ℕ) / 60000000000 : ℚ) 60) := by
  have minutes : ((Duration.since used now).toSeconds / Scalar.nat 60 : ℚ) =
      (now - used : ℕ) / 60000000000 := by
    rw [Duration.toSeconds_rat, Scalar.nat_rat, div_div, Duration.since]
    norm_num
  simp only [freshness, hused, minutes, Scalar.one_rat, Scalar.min_rat]
  rw [Scalar.nat_rat, Nat.cast_ofNat]

theorem freshness_mem (s : Statistics ℚ) (now : Instant) :
    0 ≤ s.freshness now ∧ s.freshness now ≤ 1 := by
  cases hused : s.lastUsedAt with
  | none => simp [freshness, hused]
  | some used =>
    rw [freshness_of_used hused]
    have idle : (0 : ℚ) ≤ min ((now - used : ℕ) / 60000000000 : ℚ) 60 := by positivity
    exact ⟨by positivity, (div_le_one (by positivity)).mpr (by linarith)⟩

theorem freshness_antitone (s : Statistics ℚ) (h : now ≤ later) :
    s.freshness later ≤ s.freshness now := by
  cases hused : s.lastUsedAt with
  | none => simp [freshness, hused]
  | some used =>
    rw [freshness_of_used hused, freshness_of_used hused]
    gcongr

theorem freshness_of_hour (hused : s.lastUsedAt = some used)
    (h : used + (Duration.ofSeconds 3600).ns ≤ now) : s.freshness now = 1 / 61 := by
  have nanos : 3600000000000 ≤ now - used := Nat.le_sub_of_add_le' h
  have minutes : (60 : ℚ) ≤ (now - used : ℕ) / 60000000000 := by
    rw [le_div_iff₀ (by norm_num)]
    exact_mod_cast nanos
  rw [freshness_of_used hused, min_eq_right minutes]
  norm_num

/-! ## Feedback -/

theorem freshness_recordValidation (s : Statistics ℚ) (o : Outcome) (now : Instant) :
    (s.recordValidation o).freshness now = s.freshness now := by
  cases good : o.isSuccess <;> simp [recordValidation, mark, freshness, good]

theorem validations_recordValidation (s : Statistics ℚ) (o : Outcome) :
    (s.recordValidation o).validations = s.validations.record o.isSuccess o.verdict := by
  cases good : o.isSuccess <;> simp [recordValidation, mark, good]

theorem weight_ofEvents (events : List Event) (now : Instant) :
    (ofEvents events : Statistics ℚ).weight now =
      weighing (ofEvents events : Statistics ℚ).validations.successRate
        (average (responseTimes events)) ((ofEvents events : Statistics ℚ).freshness now) := by
  rw [weight_rat, (Tells.ofEvents events).latency.mean]

/-- One more probe counts for the success rate and for the mean latency, but not as a use. -/
theorem weight_recordValidation (events : List Event) (o : Outcome) (now : Instant) :
    ((ofEvents events : Statistics ℚ).recordValidation o).weight now =
      weighing ((ofEvents events : Statistics ℚ).validations.record o.isSuccess
          o.verdict).successRate
        (average (responseTimes events ++ [(o.elapsed.toMillis : ℚ)]))
        ((ofEvents events : Statistics ℚ).freshness now) := by
  have mean := (Tells.ofEvents (events ++ [.probe o])).latency.mean
  rw [ofEvents_concat, responseTimes_concat] at mean
  rw [weight_rat, freshness_recordValidation, validations_recordValidation, Duration.toMillis_rat]
  exact congrArg (weighing _ · _) mean

theorem successes_le (events : List Event) :
    (ofEvents events : Statistics ℚ).validations.successes ≤
      (ofEvents events : Statistics ℚ).validations.total :=
  (Tells.ofEvents events).validations.total_eq ▸ Nat.le_add_right _ _

/-- A success that took no longer than the mean does not lower the weight. -/
theorem weight_le_of_success (events : List Event) {o : Outcome} (good : o.isSuccess = true)
    (hfast : o.elapsed.toMillis ≤ (ofEvents events : Statistics ℚ).latency.mean)
    (now : Instant) :
    (ofEvents events : Statistics ℚ).weight now ≤
      ((ofEvents events).recordValidation o).weight now := by
  rw [(Tells.ofEvents events).latency.mean] at hfast
  rw [weight_ofEvents, weight_recordValidation, good]
  exact weighing_le_weighing (Tally.successRate_le_record (successes_le events) _)
    (average_concat_le hfast) le_rfl (freshness_mem _ now).1

/-- A failure that took no less than the mean does not raise the weight. -/
theorem weight_le_of_failure (events : List Event) {o : Outcome} (bad : o.isSuccess = false)
    (hslow : (ofEvents events : Statistics ℚ).latency.mean ≤ o.elapsed.toMillis)
    (now : Instant) :
    ((ofEvents events).recordValidation o).weight now ≤
      (ofEvents events : Statistics ℚ).weight now := by
  rw [(Tells.ofEvents events).latency.mean] at hslow
  rw [weight_ofEvents, weight_recordValidation, bad]
  exact weighing_le_weighing (Tally.record_successRate_le (successes_le events) _)
    (le_average_concat hslow) le_rfl (freshness_mem _ now).1

/-- Whatever was recorded and whenever, the weight is positive and at most three halves. It does
not rise as time passes, and stays the same from an hour after the last use on. A successful probe
that took no longer than the mean does not lower it, and a failed one that took no less does not
raise it. -/
theorem weight_follows_feedback (events : List Event) (now : Instant) :
    let s : Statistics ℚ := ofEvents events
    (0 < s.weight now ∧ s.weight now ≤ 3 / 2) ∧
      (∀ later, now ≤ later → s.weight later ≤ s.weight now) ∧
      (∀ used, s.lastUsedAt = some used → used + (Duration.ofSeconds 3600).ns ≤ now →
        ∀ later, now ≤ later → s.weight later = s.weight now) ∧
      (∀ o : Outcome, o.isSuccess = true → o.elapsed.toMillis ≤ s.latency.mean →
        s.weight now ≤ (s.recordValidation o).weight now) ∧
      ∀ o : Outcome, o.isSuccess = false → s.latency.mean ≤ o.elapsed.toMillis →
        (s.recordValidation o).weight now ≤ s.weight now := by
  intro s
  have bounds := freshness_mem s now
  refine ⟨?_, ?_, ?_, ?_, ?_⟩
  · rw [weight_rat]
    exact weighing_mem bounds.1 bounds.2
  · intro later h
    rw [weight_rat, weight_rat]
    exact weighing_le_weighing le_rfl le_rfl (freshness_antitone s h) (freshness_mem s later).1
  · intro used hused hour later h
    rw [weight_rat, weight_rat, freshness_of_hour hused hour,
      freshness_of_hour hused (hour.trans h)]
  · intro o good hfast
    exact weight_le_of_success events good hfast now
  · intro o bad hslow
    exact weight_le_of_failure events bad hslow now

/-- A proxy that answered in 100 ms and was used: its weight an hour and two hours later, and
after a probe of 80 ms or a timeout of ten seconds. -/
theorem weight_follows_feedback_an_hour_after_use :
    let s : Statistics ℚ :=
      ofEvents [.probe (.success 0 (.ofMillis 100) 200), .use 5 true none .success]
    let hour := 5 + (Duration.ofSeconds 3600).ns
    let fast : Outcome := .success hour (.ofMillis 80) 200
    let slow : Outcome := .timeout hour (.ofSeconds 10)
    s.lastUsedAt = some 5 ∧ s.latency.mean = 100 ∧ s.weight 5 = 3 / 200 ∧
      s.weight hour ≤ s.weight 5 ∧ s.weight (hour + hour) = s.weight hour ∧
      s.weight hour ≤ (s.recordValidation fast).weight hour ∧
      (s.recordValidation slow).weight hour ≤ s.weight hour := by
  intro s hour fast slow
  have used : s.lastUsedAt = some 5 := rfl
  have mean : s.latency.mean = 100 := by decide +kernel
  have hfast : (fast.elapsed.toMillis : ℚ) ≤ s.latency.mean := by decide +kernel
  have hslow : s.latency.mean ≤ (slow.elapsed.toMillis : ℚ) := by decide +kernel
  obtain ⟨-, falls, -⟩ := weight_follows_feedback
    [.probe (.success 0 (.ofMillis 100) 200), .use 5 true none .success] 5
  obtain ⟨-, -, rests, succeeds, fails⟩ := weight_follows_feedback
    [.probe (.success 0 (.ofMillis 100) 200), .use 5 true none .success] hour
  refine ⟨used, mean, by decide +kernel, falls hour (Nat.le_add_right _ _), ?_, ?_, ?_⟩
  · exact rests 5 used le_rfl (hour + hour) (Nat.le_add_right _ _)
  · exact succeeds fast rfl hfast
  · exact fails slow rfl hslow

end Statistics
end ProxyLease
