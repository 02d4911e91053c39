/-!
# Durations and instants

A duration is a whole number of nanoseconds, bounded by `2^64 - 1` seconds and
`999 999 999` nanoseconds; an instant counts nanoseconds on one monotonic clock.
The printed form of a duration uses the largest unit that leaves a positive
whole part, and no trailing zeros after the point.
-/

namespace ProxyLease

/-- Nanoseconds since the clock was started. -/
abbrev Instant := Nat

/-- A length of time in nanoseconds. -/
structure Duration where
  ns : Nat
  deriving DecidableEq, Inhabited

namespace Duration

def perSecond : Nat := 1000000000
def perMilli : Nat := 1000000
def perMicro : Nat := 1000

/-- The longest duration: `2^64 - 1` seconds and `999 999 999` nanoseconds. -/
def longest : Duration := ⟨Nat.pow 2 64 * perSecond - 1⟩

def zero : Duration := ⟨0⟩
def ofParts (seconds nanos : Nat) : Duration := ⟨seconds * perSecond + nanos⟩
def ofSeconds (n : Nat) : Duration := ⟨n * perSecond⟩
def ofMillis (n : Nat) : Duration := ⟨n * perMilli⟩

def seconds (d : Duration) : Nat := d.ns / perSecond
def subsecNanos (d : Duration) : Nat := d.ns % perSecond
def millis (d : Duration) : Nat := d.ns / perMilli

instance : LE Duration := ⟨fun a b => a.ns ≤ b.ns⟩
instance (a b : Duration) : Decidable (a ≤ b) := inferInstanceAs (Decidable (a.ns ≤ b.ns))
instance : LT Duration := ⟨fun a b => a.ns < b.ns⟩
instance (a b : Duration) : Decidable (a < b) := inferInstanceAs (Decidable (a.ns < b.ns))

theorem le_iff {a b : Duration} : a ≤ b ↔ a.ns ≤ b.ns := Iff.rfl

/-- The time from `start` to `now`; zero when `start` lies in the future. -/
def since (start now : Instant) : Duration := ⟨now - start⟩

/-- The sum, or nothing when it is longer than `longest`. -/
def add? (a b : Duration) : Option Duration :=
  if a.ns + b.ns ≤ longest.ns then some ⟨a.ns + b.ns⟩ else none

theorem add?_eq_some {a b c : Duration} (h : add? a b = some c) : c.ns = a.ns + b.ns := by
  unfold add? at h
  split at h
  · cases h; rfl
  · cases h

/-- Decimal digits of `n`, padded with zeros on the left to `width`. -/
def paddedDigits (width n : Nat) : List Char :=
  let digits := Nat.toDigits 10 n
  List.replicate (width - digits.length) '0' ++ digits

/-- A fraction of `width` digits, without its trailing zeros and without the
point when nothing is left. -/
def fractionText (width n : Nat) : List Char :=
  match ((paddedDigits width n).reverse.dropWhile (· == '0')).reverse with
  | [] => []
  | digits => '.' :: digits

/-- The duration in the largest unit with a positive whole part: `1.5s`, `200ms`,
`1.001µs`, `0ns`. -/
def text (d : Duration) : String :=
  let shown (unit width : Nat) (name : String) : String :=
    String.ofList (Nat.toDigits 10 (d.ns / unit) ++ fractionText width (d.ns % unit)) ++ name
  if perSecond ≤ d.ns then shown perSecond 9 "s"
  else if perMilli ≤ d.ns then shown perMilli 6 "ms"
  else if perMicro ≤ d.ns then shown perMicro 3 "µs"
  else shown 1 0 "ns"

end Duration
end ProxyLease
