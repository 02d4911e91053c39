import Mathlib.Algebra.BigOperators.Group.List.Basic
import Mathlib.Algebra.Order.Field.Rat
import Mathlib.Tactic.Common
import Mathlib.Tactic.Ring
import ProxyLease.Statistics

/-!
# Exact numbers

Averages and weights computed over the rationals: nothing is rounded, so that the formulas
of the pool can be compared with the sums and means that they stand for.
-/

namespace ProxyLease

/-- Rationals; a natural number is exactly itself. -/
instance : Scalar ℚ where
  nat n := n
  decLe := inferInstance

namespace Scalar

@[simp] theorem nat_rat (n : Nat) : (nat n : ℚ) = n := rfl

@[simp] theorem zero_rat : (zero : ℚ) = 0 := Nat.cast_zero

@[simp] theorem one_rat : (one : ℚ) = 1 := Nat.cast_one

@[simp] theorem min_rat (a b : ℚ) : Scalar.min a b = Min.min a b := (min_def a b).symm

@[simp] theorem max_rat (a b : ℚ) : Scalar.max a b = Max.max a b := (max_def a b).symm

/-- A mean over nothing is zero, as a quotient by zero is. -/
@[simp] theorem mean_rat (sum : ℚ) (count : Nat) : Scalar.mean sum count = sum / count := by
  unfold Scalar.mean
  split
  · rename_i nothing
    simp [nothing]
  · rfl

end Scalar

/-- The arithmetic mean, and zero over nothing. -/
def average (times : List ℚ) : ℚ := times.sum / times.length

@[simp] theorem average_nil : average [] = 0 := by simp [average]

theorem average_mul_length (times : List ℚ) : average times * times.length = times.sum := by
  cases times with
  | nil => simp
  | cons t rest =>
    have some : ((t :: rest).length : ℚ) ≠ 0 := Nat.cast_ne_zero.mpr (Nat.succ_ne_zero _)
    exact div_mul_cancel₀ _ some

theorem average_perm {times times' : List ℚ} (h : times.Perm times') :
    average times = average times' := by
  rw [average, average, h.sum_eq, h.length_eq]

theorem sum_flatMap {α : Type} (f : α → List ℚ) (l : List α) :
    (l.flatMap f).sum = (l.map fun a => (f a).sum).sum := by
  rw [List.flatMap_def, List.sum_flatten, List.map_map]
  rfl

@[simp] theorem Duration.toMillis_rat (d : Duration) : (d.toMillis : ℚ) = d.ns / 1000000 := by
  have parts : (d.ns : ℚ) = d.seconds * 1000000000 + d.subsecNanos := by
    have whole := Nat.div_add_mod d.ns Duration.perSecond
    exact_mod_cast (by rw [seconds, subsecNanos, Nat.mul_comm]; exact whole.symm)
  change ((d.seconds : ℚ) + d.subsecNanos / 1000000000) * 1000 = d.ns / 1000000
  rw [parts]
  ring

end ProxyLease
