import Mathlib.Algebra.Order.BigOperators.Group.List
import Mathlib.Order.Interval.Set.Basic
import Mathlib.Tactic.Linarith
import Mathlib.Tactic.Positivity
import ProxyLease.Proofs.Choice
import ProxyLease.Proofs.Exact

/-!
# Shares of the wheel

In exact numbers the roulette is a partition: the shares of the candidates lie side by side on the
wheel, each as long as its weight, and a draw falls on exactly one of them. That share belongs to
the candidate that is picked.
-/

namespace ProxyLease
namespace Roulette

variable {weights : List ℚ} {roll sum w : ℚ} {i : Nat}

/-- Where the share of a position begins: after all weights before it. -/
def start (weights : List ℚ) (i : Nat) : ℚ := (weights.take i).sum

@[simp] theorem start_zero (weights : List ℚ) : start weights 0 = 0 := by simp [start]

@[simp] theorem start_cons_succ (w : ℚ) (weights : List ℚ) (i : Nat) :
    start (w :: weights) (i + 1) = w + start weights i := by
  simp [start]

theorem start_succ (hi : i < weights.length) :
    start weights (i + 1) = start weights i + weights[i] :=
  List.sum_take_succ weights i hi

theorem start_le_sum (hw : ∀ w ∈ weights, 0 ≤ w) (i : Nat) : start weights i ≤ weights.sum := by
  have rest : 0 ≤ (weights.drop i).sum :=
    List.sum_nonneg fun w hmem => hw w (List.mem_of_mem_drop hmem)
  have parts := List.sum_take_add_sum_drop weights i
  rw [start]
  linarith

theorem start_nonneg (hw : ∀ w ∈ weights, 0 ≤ w) (i : Nat) : 0 ≤ start weights i :=
  List.sum_nonneg fun w hmem => hw w (List.mem_of_mem_take hmem)

theorem land_cons_cons (roll sum w v : ℚ) (later : List ℚ) :
    land roll sum (w :: v :: later) =
      if roll ≤ sum + w then 0 else land roll (sum + w) (v :: later) + 1 := rfl

/-- The running sum that stops at a position reaches the roll there, and not before. -/
theorem land_eq_iff (hw : ∀ w ∈ weights, 0 ≤ w) (hroll : roll ≤ sum + weights.sum)
    (hi : i < weights.length) :
    land roll sum weights = i ↔
      roll ≤ sum + start weights (i + 1) ∧ (0 < i → sum + start weights i < roll) := by
  induction weights generalizing sum i with
  | nil => cases hi
  | cons w rest ih =>
    cases rest with
    | nil =>
      obtain rfl : i = 0 := by simpa using hi
      simpa [land] using hroll
    | cons v later =>
      have hrest : ∀ u ∈ v :: later, 0 ≤ u := fun u hu => hw u (List.mem_cons_of_mem _ hu)
      rw [land_cons_cons]
      by_cases reached : roll ≤ sum + w
      · rw [if_pos reached]
        cases i with
        | zero => simpa using reached
        | succ j =>
          have hstart := start_nonneg hrest j
          refine ⟨fun hzero => absurd hzero.symm j.succ_ne_zero, fun after => ?_⟩
          have passed := after.2 j.succ_pos
          rw [start_cons_succ] at passed
          linarith
      · rw [if_neg reached]
        cases i with
        | zero => simpa using reached
        | succ j =>
          rw [List.sum_cons, ← add_assoc] at hroll
          have hj := ih hrest hroll (Nat.lt_of_succ_lt_succ hi)
          rw [Nat.add_right_cancel_iff, hj, start_cons_succ w, start_cons_succ w, ← add_assoc,
            ← add_assoc]
          refine and_congr_right fun _ => ⟨fun hpassed _ => ?_, fun hpassed _ => hpassed j.succ_pos⟩
          cases j with
          | zero => simpa using reached
          | succ j => exact hpassed j.succ_pos

/-- A roll falls on the share of a position: beyond its beginning, unless it is the first one,
and not beyond its end. -/
structure OnShare (weights : List ℚ) (roll : ℚ) (i : Nat) : Prop where
  within : i < weights.length
  reached : roll ≤ start weights (i + 1)
  passed : 0 < i → start weights i < roll

/-- The lengths of the shares: weights, of which the least are raised. -/
def shares (weights : List ℚ) : List ℚ := weights.map fun w => max w (1 / 10000)

@[simp] theorem length_shares (weights : List ℚ) : (shares weights).length = weights.length :=
  List.length_map _

theorem pos_of_mem_shares (hw : w ∈ shares weights) : 0 < w := by
  obtain ⟨v, -, rfl⟩ := List.mem_map.mp hw
  exact lt_max_of_lt_right (by norm_num)

theorem nonneg_of_mem_shares (weights : List ℚ) : ∀ w ∈ shares weights, 0 ≤ w :=
  fun _ hw => (pos_of_mem_shares hw).le

theorem sum_shares_pos (hne : weights ≠ []) : 0 < (shares weights).sum :=
  List.sum_pos _ (fun _ hw => pos_of_mem_shares hw) (by simpa [shares] using hne)

theorem spin_eq_land (weights : List ℚ) (draw : ℚ) :
    spin weights draw = land (draw * (shares weights).sum) 0 (shares weights) := by
  have raised : weights.map (Scalar.max · floorWeight) = shares weights := by
    simp [shares, floorWeight, Scalar.ratio]
  rw [spin, raised, Scalar.zero_rat, List.sum_eq_foldl]

/-- A draw picks the position on whose share it falls, and it falls on one. -/
theorem spin_eq_iff {draw : ℚ} (hne : weights ≠ []) (hdraw : draw < 1) :
    spin weights draw = i ↔ OnShare (shares weights) (draw * (shares weights).sum) i := by
  have within : spin weights draw < (shares weights).length := by
    rw [length_shares]
    exact spin_lt_length hne draw
  have hroll : draw * (shares weights).sum ≤ 0 + (shares weights).sum := by
    have hpos := sum_shares_pos hne
    nlinarith
  have position (hi : i < (shares weights).length) :=
    land_eq_iff (nonneg_of_mem_shares weights) hroll hi
  simp only [zero_add, ← spin_eq_land] at position
  constructor
  · rintro rfl
    obtain ⟨reached, passed⟩ := (position within).mp rfl
    exact ⟨within, reached, passed⟩
  · intro on
    exact (position on.within).mpr ⟨on.reached, on.passed⟩

theorem onShare_mul_iff {draw total : ℚ} (htotal : 0 < total) (hi : i < weights.length) :
    OnShare weights (draw * total) i ↔
      draw ≤ start weights (i + 1) / total ∧ (0 < i → start weights i / total < draw) := by
  rw [le_div_iff₀ htotal, div_lt_iff₀ htotal]
  exact ⟨fun on => ⟨on.reached, on.passed⟩, fun on => ⟨hi, on.1, on.2⟩⟩

/-- The draws that pick a position form an interval, as long as its share of the wheel. -/
theorem draws_interval (hi : i < weights.length) :
    let total := (shares weights).sum
    let draws := {draw | draw ∈ Set.Ico 0 1 ∧ spin weights draw = i}
    let low := start (shares weights) i / total
    let high := start (shares weights) (i + 1) / total
    Set.Ioo low high ⊆ draws ∧ draws ⊆ Set.Icc low high ∧
      high - low = max weights[i] (1 / 10000) / total ∧ low < high := by
  intro total draws low high
  have hne : weights ≠ [] := List.ne_nil_of_length_pos (by omega)
  have htotal : 0 < total := sum_shares_pos hne
  have hi' : i < (shares weights).length := by rwa [length_shares]
  have hlow : 0 ≤ low :=
    div_nonneg (start_nonneg (nonneg_of_mem_shares weights) i) htotal.le
  have hhigh : high ≤ 1 :=
    (div_le_one htotal).mpr (start_le_sum (nonneg_of_mem_shares weights) (i + 1))
  have hlength : high - low = max weights[i] (1 / 10000) / total := by
    have share : (shares weights)[i] = max weights[i] (1 / 10000) := List.getElem_map _
    rw [← sub_div, start_succ hi', add_sub_cancel_left, share]
  have hpos : 0 < max weights[i] (1 / 10000) / total :=
    div_pos (lt_max_of_lt_right (by norm_num)) htotal
  refine ⟨?_, ?_, hlength, by linarith⟩
  · rintro draw ⟨hbegin, hend⟩
    have hdraw : draw < 1 := hend.trans_le hhigh
    refine ⟨⟨by linarith, hdraw⟩, ?_⟩
    exact (spin_eq_iff hne hdraw).mpr ((onShare_mul_iff htotal hi').mpr ⟨hend.le, fun _ => hbegin⟩)
  · rintro draw ⟨⟨hzero, hone⟩, hpicked⟩
    obtain ⟨hend, hbegin⟩ := (onShare_mul_iff htotal hi').mp ((spin_eq_iff hne hone).mp hpicked)
    refine ⟨?_, hend⟩
    obtain rfl | later := Nat.eq_zero_or_pos i
    · simpa [low] using hzero
    · exact (hbegin later).le

/-- Every draw falls on the share of exactly one candidate, which is picked. The draws that pick a
candidate form an interval whose length is its raised weight over the sum of all of them, and some
draw picks it. -/
theorem draws_fall_on_shares {candidates : List (Record ℚ)} (hne : candidates ≠ [])
    (now : Instant) :
    let weights := candidates.map (·.weight now)
    let total := (shares weights).sum
    (∀ draw ∈ Set.Ico (0 : ℚ) 1, ∃ i, ∃ hi : i < candidates.length,
      spin weights draw = i ∧ pick (·.weight now) candidates draw = some candidates[i] ∧
      OnShare (shares weights) (draw * total) i ∧
      ∀ j, OnShare (shares weights) (draw * total) j → j = i) ∧
    ∀ i, ∀ hi : i < candidates.length,
      let draws := {draw | draw ∈ Set.Ico 0 1 ∧ spin weights draw = i}
      ∃ low high, Set.Ioo low high ⊆ draws ∧ draws ⊆ Set.Icc low high ∧
        high - low = max (candidates[i].weight now) (1 / 10000) / total ∧
        ∃ draw ∈ draws, pick (·.weight now) candidates draw = some candidates[i] := by
  intro weights total
  have hweights : weights ≠ [] := by simpa [weights] using hne
  have hlength : weights.length = candidates.length := List.length_map _
  have picked {draw : ℚ} {i : Nat} (hi : i < candidates.length) (hspin : spin weights draw = i) :
      pick (·.weight now) candidates draw = some candidates[i] := by
    subst hspin
    exact List.getElem?_eq_getElem hi
  refine ⟨?_, ?_⟩
  · rintro draw ⟨-, hone⟩
    have hi : spin weights draw < candidates.length := hlength ▸ spin_lt_length hweights draw
    refine ⟨spin weights draw, hi, rfl, picked hi rfl, (spin_eq_iff hweights hone).mp rfl, ?_⟩
    intro j on
    exact ((spin_eq_iff hweights hone).mpr on).symm
  · intro i hi draws
    have hi' : i < weights.length := hlength.symm ▸ hi
    obtain ⟨inner, outer, share, proper⟩ := draws_interval hi'
    refine ⟨_, _, inner, outer, by rw [share, List.getElem_map], ?_⟩
    obtain ⟨draw, hdraw⟩ := exists_between proper
    exact ⟨draw, inner hdraw, picked hi (inner hdraw).2⟩

/-- A proxy that answers in 50 ms has ten times the share of one that answers in 500 ms. A draw on
the border between them picks the first one. -/
theorem draws_fall_on_shares_of_two :
    let probed (host : String) (ms : Nat) : Record ℚ :=
      ⟨.plain host 8080 .http, 0, .available,
        Statistics.empty.recordValidation (.success 0 (.ofMillis ms) 200), 1⟩
    let candidates := [probed "fast" 50, probed "slow" 500]
    candidates ≠ [] ∧ candidates.map (·.weight 0) = [3 / 100, 3 / 1000] ∧
      (∃ i, ∃ hi : i < candidates.length,
        pick (·.weight 0) candidates (10 / 11) = some candidates[i] ∧ i = 0) ∧
      ∃ low high : ℚ, high - low = 1 / 11 ∧
        Set.Ioo low high ⊆
          {draw | draw ∈ Set.Ico 0 1 ∧ spin (candidates.map (·.weight 0)) draw = 1} := by
  intro probed candidates
  have hne : candidates ≠ [] := List.cons_ne_nil _ _
  have hweights : candidates.map (·.weight 0) = [3 / 100, 3 / 1000] := by decide +kernel
  obtain ⟨falls, intervals⟩ := draws_fall_on_shares hne 0
  refine ⟨hne, hweights, ?_, ?_⟩
  · obtain ⟨i, hi, -, picked, -, unique⟩ := falls (10 / 11) ⟨by norm_num, by norm_num⟩
    have first : OnShare (shares (candidates.map (·.weight 0)))
        (10 / 11 * (shares (candidates.map (·.weight 0))).sum) 0 := by
      rw [hweights]
      exact ⟨by decide, by decide +kernel, nofun⟩
    exact ⟨i, hi, picked, (unique 0 first).symm⟩
  · obtain ⟨low, high, inner, -, share, -⟩ := intervals 1 (by decide)
    refine ⟨low, high, ?_, inner⟩
    rw [share, hweights]
    decide +kernel

end Roulette
end ProxyLease
