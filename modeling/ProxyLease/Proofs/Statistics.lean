import Mathlib.Algebra.Order.BigOperators.Group.List
import Mathlib.Data.List.Induction
import Mathlib.Tactic.FieldSimp
import Mathlib.Tactic.Linarith
import Mathlib.Tactic.Positivity
import ProxyLease.Proofs.Exact

/-!
# Statistics tell their history

The statistics of a proxy are kept by a fold over what is recorded about it. They count the
events of each sort, hold the lengths of the runs at the end of the history, the times of the
first and last event of each sort, and the extremes and the mean of all response times.
-/

namespace ProxyLease
namespace Statistics

variable {R : Type} [Scalar R]

/-! ## Histories -/

/-- What is recorded about a proxy: the outcome of a probe, or a use as a consumer reports it. -/
inductive Event where
  | probe (outcome : Outcome)
  | use (now : Instant) (success : Bool) (elapsed : Option Duration) (verdict : Verdict)

namespace Event

def isProbe : Event → Bool
  | probe _ => true
  | use _ _ _ _ => false

def isSuccess : Event → Bool
  | probe outcome => outcome.isSuccess
  | use _ success _ _ => success

def verdict : Event → Verdict
  | probe outcome => outcome.verdict
  | use _ _ _ verdict => verdict

/-- The end of the probe, or the time of the report. -/
def time : Event → Instant
  | probe outcome => outcome.validatedAt
  | use now _ _ _ => now

/-- How long a probe took, and a use if that was reported. -/
def elapsed? : Event → Option Duration
  | probe outcome => some outcome.elapsed
  | use _ _ elapsed _ => elapsed

def responseMs? (e : Event) : Option ℚ := e.elapsed?.map fun d => d.ns / 1000000

end Event

def responseTimes (events : List Event) : List ℚ := events.filterMap Event.responseMs?

theorem responseTimes_concat (events : List Event) (e : Event) :
    responseTimes (events ++ [e]) = responseTimes events ++ e.responseMs?.toList := by
  cases h : e.responseMs? <;> simp [responseTimes, h]

def record (s : Statistics R) : Event → Statistics R
  | .probe outcome => s.recordValidation outcome
  | .use now success elapsed verdict => s.recordUse now success elapsed verdict

def ofEvents (events : List Event) : Statistics R := events.foldl record empty

theorem ofEvents_concat (events : List Event) (e : Event) :
    (ofEvents (events ++ [e]) : Statistics R) = (ofEvents events).record e := by
  simp [ofEvents]

theorem record_eq (s : Statistics R) (e : Event) : s.record e =
    { validations :=
        if e.isProbe then s.validations.record e.isSuccess e.verdict else s.validations
      uses := if e.isProbe then s.uses else s.uses.record e.isSuccess e.verdict
      latency := (e.elapsed?.map fun d => s.latency.record d.toMillis).getD s.latency
      successRun := if e.isSuccess then s.successRun + 1 else 0
      failureRun := if e.isSuccess then 0 else s.failureRun + 1
      firstValidatedAt :=
        if e.isProbe then some (s.firstValidatedAt.getD e.time) else s.firstValidatedAt
      lastValidatedAt := if e.isProbe then some e.time else s.lastValidatedAt
      lastUsedAt := if e.isProbe then s.lastUsedAt else some e.time
      lastSuccessAt := if e.isSuccess then some e.time else s.lastSuccessAt
      lastFailureAt := if e.isSuccess then s.lastFailureAt else some e.time } := by
  cases e with
  | probe outcome =>
    cases good : outcome.isSuccess <;>
      simp [record, recordValidation, mark, Event.isProbe, Event.isSuccess, Event.verdict,
        Event.time, Event.elapsed?, good]
  | use now success elapsed verdict =>
    cases success <;> cases elapsed <;> rfl

/-! ## Counts -/

structure Counts (t : Tally) (events : List Event) : Prop where
  total : t.total = events.length
  successes : t.successes = events.countP (·.isSuccess)
  failures : t.failures = events.countP (!·.isSuccess)
  timeouts : t.timeouts = events.countP fun e => !e.isSuccess && e.verdict == .timeout

namespace Counts

theorem empty : Counts .empty [] := ⟨rfl, rfl, rfl, rfl⟩

theorem record {t : Tally} {events : List Event} (h : Counts t events) (e : Event) :
    Counts (t.record e.isSuccess e.verdict) (events ++ [e]) := by
  unfold Tally.record
  cases good : e.isSuccess with
  | true =>
    constructor <;> simp [List.countP_append, good, h.total, h.successes, h.failures, h.timeouts]
  | false =>
    constructor <;> simp [List.countP_append, good, h.total, h.successes, h.failures, h.timeouts]
    split <;> simp

theorem total_eq {t : Tally} {events : List Event} (h : Counts t events) :
    t.total = t.successes + t.failures := by
  rw [h.total, h.successes, h.failures, List.length_eq_countP_add_countP (·.isSuccess)]
  simp

end Counts

/-! ## Runs and times -/

/-- The length of the run of members with a property that ends a list. -/
def runAtEnd (p : Event → Bool) (events : List Event) : Nat := (events.reverse.takeWhile p).length

theorem runAtEnd_concat (p : Event → Bool) (events : List Event) (e : Event) :
    runAtEnd p (events ++ [e]) = if p e then runAtEnd p events + 1 else 0 := by
  cases h : p e <;> simp [runAtEnd, h]

theorem runAtEnd_le (p : Event → Bool) (events : List Event) :
    runAtEnd p events ≤ events.length := by
  simpa [runAtEnd] using (List.takeWhile_sublist (l := events.reverse) p).length_le

theorem runAtEnd_eq_zero_or (p : Event → Bool) (events : List Event) :
    runAtEnd p events = 0 ∨ runAtEnd (fun e => !p e) events = 0 := by
  induction events using List.reverseRecOn with
  | nil => exact .inl rfl
  | append_singleton events e =>
    rw [runAtEnd_concat, runAtEnd_concat]
    cases p e with
    | true => exact .inr rfl
    | false => exact .inl rfl

def firstTime (p : Event → Bool) (events : List Event) : Option Instant :=
  (events.filter p).head?.map Event.time

def lastTime (p : Event → Bool) (events : List Event) : Option Instant :=
  (events.filter p).getLast?.map Event.time

theorem firstTime_concat (p : Event → Bool) (events : List Event) (e : Event) :
    firstTime p (events ++ [e]) =
      if p e then some ((firstTime p events).getD e.time) else firstTime p events := by
  cases h : p e with
  | false => simp [firstTime, h]
  | true =>
    cases earlier : events.filter p <;> simp [firstTime, h, earlier]

theorem lastTime_concat (p : Event → Bool) (events : List Event) (e : Event) :
    lastTime p (events ++ [e]) = if p e then some e.time else lastTime p events := by
  cases h : p e <;> simp [lastTime, h]

end Statistics

/-! ## Response times -/

namespace Latency

/-- Extremes, mean and last of some response times; all of them are zero over none. -/
structure Summarizes (l : Latency ℚ) (times : List ℚ) : Prop where
  samples : l.samples = times.length
  least : l.least = times.min?.getD 0
  greatest : l.greatest = times.max?.getD 0
  mean : l.mean = average times
  last : l.last = times.getLast?.getD 0

namespace Summarizes

theorem empty : Summarizes .empty [] := by
  constructor <;> simp [Latency.empty]

theorem record {l : Latency ℚ} {times : List ℚ} (h : l.Summarizes times) (ms : ℚ) :
    (l.record ms).Summarizes (times ++ [ms]) := by
  unfold Latency.record
  cases times with
  | nil =>
    have first : l.samples + 1 = 1 := by simp [h.samples]
    constructor <;> simp [first, average]
  | cons t rest =>
    have later : l.samples + 1 ≠ 1 := by simp [h.samples]
    dsimp only
    rw [if_neg later]
    constructor
    · simp [h.samples]
    · have earlier := h.least
      rw [List.min?_cons', Option.getD_some] at earlier
      rw [List.cons_append, List.min?_cons', Option.getD_some, List.foldl_append, ← earlier]
      simp
    · have earlier := h.greatest
      rw [List.max?_cons', Option.getD_some] at earlier
      rw [List.cons_append, List.max?_cons', Option.getD_some, List.foldl_append, ← earlier]
      simp
    · -- The old mean times the old count is the old sum.
      have some : ((rest.length : ℚ) + 1) ≠ 0 := by positivity
      simp only [average, h.mean, h.samples, Scalar.nat_rat, Scalar.one_rat, List.sum_append,
        List.length_append, List.sum_singleton, List.length_cons, List.length_nil]
      push_cast
      field_simp
      ring
    · rw [List.getLast?_concat, Option.getD_some]

theorem mean_mem {l : Latency ℚ} {times : List ℚ} (h : l.Summarizes times) :
    l.least ≤ l.mean ∧ l.mean ≤ l.greatest := by
  rw [h.least, h.greatest, h.mean, average]
  cases times with
  | nil => simp
  | cons t rest =>
    obtain ⟨low, hlow⟩ : ∃ low, (t :: rest).min? = some low := ⟨_, List.min?_cons'⟩
    obtain ⟨high, hhigh⟩ : ∃ high, (t :: rest).max? = some high := ⟨_, List.max?_cons'⟩
    have above := List.card_nsmul_le_sum (t :: rest) low ((List.le_min?_iff hlow).mp le_rfl)
    have below := List.sum_le_card_nsmul (t :: rest) high ((List.max?_le_iff hhigh).mp le_rfl)
    have some : 0 < ((t :: rest).length : ℚ) := by
      rw [List.length_cons]
      positivity
    rw [nsmul_eq_mul] at above below
    rw [hlow, hhigh, Option.getD_some, Option.getD_some, le_div_iff₀ some, div_le_iff₀ some]
    exact ⟨by linarith, by linarith⟩

end Summarizes
end Latency

namespace Statistics

/-! ## Whole histories -/

/-- Statistics that tell a history. -/
structure Tells (s : Statistics ℚ) (events : List Event) : Prop where
  validations : Counts s.validations (events.filter (·.isProbe))
  uses : Counts s.uses (events.filter (!·.isProbe))
  successRun : s.successRun = runAtEnd (·.isSuccess) events
  failureRun : s.failureRun = runAtEnd (!·.isSuccess) events
  firstValidatedAt : s.firstValidatedAt = firstTime (·.isProbe) events
  lastValidatedAt : s.lastValidatedAt = lastTime (·.isProbe) events
  lastUsedAt : s.lastUsedAt = lastTime (!·.isProbe) events
  lastSuccessAt : s.lastSuccessAt = lastTime (·.isSuccess) events
  lastFailureAt : s.lastFailureAt = lastTime (!·.isSuccess) events
  latency : s.latency.Summarizes (responseTimes events)

namespace Tells

theorem empty : Tells .empty [] where
  validations := .empty
  uses := .empty
  successRun := rfl
  failureRun := rfl
  firstValidatedAt := rfl
  lastValidatedAt := rfl
  lastUsedAt := rfl
  lastSuccessAt := rfl
  lastFailureAt := rfl
  latency := .empty

theorem record {s : Statistics ℚ} {events : List Event} (h : s.Tells events) (e : Event) :
    (s.record e).Tells (events ++ [e]) := by
  rw [record_eq]
  constructor
  · cases probe : e.isProbe <;> simp [probe, h.validations, h.validations.record]
  · cases probe : e.isProbe <;> simp [probe, h.uses, h.uses.record]
  · simp only [runAtEnd_concat, h.successRun]
  · cases good : e.isSuccess <;> simp [runAtEnd_concat, good, h.failureRun]
  · simp only [firstTime_concat, h.firstValidatedAt]
  · simp only [lastTime_concat, h.lastValidatedAt]
  · cases probe : e.isProbe <;> simp [lastTime_concat, probe, h.lastUsedAt]
  · simp only [lastTime_concat, h.lastSuccessAt]
  · cases good : e.isSuccess <;> simp [lastTime_concat, good, h.lastFailureAt]
  · cases timed : e.elapsed? with
    | none => simpa [responseTimes_concat, Event.responseMs?, timed] using h.latency
    | some d =>
      simpa [responseTimes_concat, Event.responseMs?, timed] using
        h.latency.record (d.ns / 1000000)

theorem ofEvents (events : List Event) : (ofEvents events : Statistics ℚ).Tells events := by
  induction events using List.reverseRecOn with
  | nil => exact .empty
  | append_singleton events e ih =>
    rw [ofEvents_concat]
    exact ih.record e

end Tells

/-- The statistics of a history tell it: they count its events, of which each is a success or a
failure, and hold its runs, its times and its response times. One of the two runs is empty, the
mean lies between the extremes, and no number exceeds that of the events. -/
theorem history_is_told (events : List Event) :
    let s : Statistics ℚ := ofEvents events
    s.Tells events ∧
      s.validations.total = s.validations.successes + s.validations.failures ∧
      s.uses.total = s.uses.successes + s.uses.failures ∧
      (s.successRun = 0 ∨ s.failureRun = 0) ∧
      (s.latency.least ≤ s.latency.mean ∧ s.latency.mean ≤ s.latency.greatest) ∧
      s.validations.total + s.uses.total = events.length ∧
      s.successRun ≤ events.length ∧ s.failureRun ≤ events.length ∧
      s.latency.samples ≤ events.length := by
  intro s
  have told : s.Tells events := .ofEvents events
  refine ⟨told, told.validations.total_eq, told.uses.total_eq, ?_, told.latency.mean_mem, ?_, ?_,
    ?_, ?_⟩
  · rw [told.successRun, told.failureRun]
    exact runAtEnd_eq_zero_or (·.isSuccess) events
  · rw [told.validations.total, told.uses.total]
    exact (List.length_eq_length_filter_add _).symm
  · rw [told.successRun]
    exact runAtEnd_le _ events
  · rw [told.failureRun]
    exact runAtEnd_le _ events
  · rw [told.latency.samples]
    exact List.length_filterMap_le _ events

end Statistics
end ProxyLease
