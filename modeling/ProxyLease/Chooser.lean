import ProxyLease.Registry

/-!
# Choosing among candidates

The roulette gives every candidate a share of a wheel in proportion to its weight
and picks the one on whose share the draw falls. Turns go around the candidates in
their order; draws pick by number. A script names its picks, which need not be
candidates.
-/

namespace ProxyLease

namespace Roulette

variable {R : Type} [Scalar R]

def floorWeight : R := Scalar.ratio 1 10000

/-- The position of the first weight at which the running sum, begun at `sum`, reaches
the roll; the last position when none does. -/
def land (roll : R) : R → List R → Nat
  | _, [] => 0
  | _, [_] => 0
  | sum, w :: rest => if roll ≤ sum + w then 0 else land roll (sum + w) rest + 1

/-- The position that a draw between zero and one picks. -/
def spin (weights : List R) (draw : R) : Nat :=
  let raised := weights.map (Scalar.max · floorWeight)
  land (draw * raised.foldl (· + ·) Scalar.zero) Scalar.zero raised

/-- The candidate on whose share of the wheel a draw falls; nobody without candidates. -/
def pick {α : Type} (weight : α → R) (candidates : List α) (draw : R) : Option α :=
  candidates[spin (candidates.map weight) draw]?

/-- A draw out of `2^53` as a number below one. -/
def drawn (n : Nat) : R := Scalar.ratio n (Nat.pow 2 53)

end Roulette

inductive Pick where
  | nobody
  | first
  | last
  /-- The proxy the directory lists under an identity, candidate or not. -/
  | named (id : String)
  deriving DecidableEq

inductive Chooser where
  /-- Weights decide; the draws are used in turn, then zero. -/
  | weighted (draws : List Nat)
  /-- Candidates take turns; the counter wraps at `2^64`. -/
  | roundRobin (turn : Nat)
  /-- A draw picks by its remainder; the draws are used in turn, then zero. -/
  | uniform (draws : List Nat)
  /-- The picks are used in turn, then the first candidate. -/
  | scripted (picks : List Pick) (directory : List (String × Handle))

inductive Strategy where
  | weighted
  | roundRobin
  | random
  deriving DecidableEq, Inhabited

def Strategy.name : Strategy → String
  | .weighted => "Weighted"
  | .roundRobin => "RoundRobin"
  | .random => "Random"

def Strategy.chooser : Strategy → Chooser
  | .weighted => .weighted []
  | .roundRobin => .roundRobin 0
  | .random => .uniform []

namespace Chooser

/-- Chooses one proxy, or nobody; a scripted pick or a draw is used up by every call,
a turn only by a call with candidates. -/
def select (c : Chooser) (weight : Handle → Float) (candidates : List Handle) :
    Option Handle × Chooser :=
  match c with
  | .weighted draws =>
    (Roulette.pick weight candidates (Roulette.drawn (draws.headD 0)), .weighted draws.tail)
  | .roundRobin turn =>
    if candidates = [] then (none, c)
    else (candidates[turn % candidates.length]?, .roundRobin ((turn + 1) % Nat.pow 2 64))
  | .uniform draws =>
    (candidates[draws.headD 0 % candidates.length]?, .uniform draws.tail)
  | .scripted picks directory =>
    let choice := match picks.headD .first with
      | .nobody => none
      | .first => candidates.head?
      | .last => candidates.getLast?
      | .named id => directory.lookup id
    (choice, .scripted picks.tail directory)

/-- How many further choices may name a proxy that is no candidate. -/
def foreignPicks : Chooser → Nat
  | .scripted picks _ => picks.length
  | _ => 0

def mapDirectory (c : Chooser) (f : List (String × Handle) → List (String × Handle)) : Chooser :=
  match c with
  | .scripted picks directory => .scripted picks (f directory)
  | _ => c

end Chooser
end ProxyLease
