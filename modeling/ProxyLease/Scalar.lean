/-!
# Scalars

The averages, weights and shares of the pool are computed over any type of
numbers with the four operations, an order that can be tested, and the natural
numbers. Programs run on doubles; laws are stated over exact numbers. Every
formula fixes the order of its operations, because doubles round.
-/

namespace ProxyLease

/-- Numbers on which latencies, rates and weights are computed. -/
class Scalar (R : Type) extends Add R, Sub R, Mul R, Div R, LE R where
  /-- The number nearest to a natural number below `2^64`. -/
  nat : Nat → R
  /-- The order can be tested. -/
  decLe : ∀ a b : R, Decidable (a ≤ b)

namespace Scalar

variable {R : Type} [Scalar R]

instance (a b : R) : Decidable (a ≤ b) := decLe a b

def zero : R := nat 0
def one : R := nat 1
def ratio (a b : Nat) : R := nat a / nat b

def max (a b : R) : R := if a ≤ b then b else a

def min (a b : R) : R := if a ≤ b then a else b

def clamp (x lo hi : R) : R := min (max x lo) hi

/-- `sum / count`, and zero over nothing. -/
def mean (sum : R) (count : Nat) : R := if count = 0 then zero else sum / nat count

end Scalar

/-- Doubles; a natural number is rounded to the nearest one. -/
instance : Scalar Float where
  nat n := n.toUInt64.toFloat
  decLe _ _ := inferInstance

end ProxyLease
