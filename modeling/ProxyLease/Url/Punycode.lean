/-!
# Punycode

A label with characters beyond ASCII is written in ASCII: first its ASCII characters,
then, after a hyphen, one number for each other character. Taken in the order of
their codes, each number counts the places that were passed over since the character
before it. Numbers are written with digits of a varying range, which adapts to the
sizes seen so far. Such a text is read by putting the characters in one by one, in the
same order.
-/

namespace ProxyLease.Punycode

def digitChar (d : Nat) : Char := Char.ofNat (if d < 26 then 0x61 + d else 0x30 + (d - 26))

/-- How many values the digit of weight `k` has that may end a number. -/
def threshold (k bias : Nat) : Nat := Nat.max 1 (Nat.min 26 (k - bias))

theorem one_le_threshold (k bias : Nat) : 1 ≤ threshold k bias := Nat.le_max_left _ _

/-- The digits of a number; the first one has weight `k`. -/
def digits (bias k n : Nat) : List Char :=
  let t := threshold k bias
  if n < t then [digitChar n]
  else digitChar (t + (n - t) % (36 - t)) :: digits bias (k + 36) ((n - t) / (36 - t))
termination_by n
decreasing_by
  have h := one_le_threshold k bias
  exact Nat.lt_of_le_of_lt (Nat.div_le_self _ _) (by omega)

/-- Divides by 35 down to 455 at most, and counts 36 for each division. -/
def shrink (n weight : Nat) : Nat × Nat :=
  if 455 < n then shrink (n / 35) (weight + 36) else (n, weight)
termination_by n
decreasing_by exact Nat.div_lt_self (by omega) (by decide)

/-- The bias after a number, the `count`-th of the label. -/
def adapt (n count : Nat) (isFirst : Bool) : Nat :=
  let damped := if isFirst then n / 700 else n / 2
  let (rest, weight) := shrink (damped + damped / count) 0
  weight + 36 * rest / (rest + 38)

/-- The numbers found so far, latest first, and the places passed over since. -/
structure Progress where
  numbers : List Nat
  skipped : Nat

/-- Passes over one character while those with code `code` are looked for. -/
def Progress.visit (code : Nat) (p : Progress) (c : Char) : Progress :=
  if c.toNat < code then { p with skipped := p.skipped + 1 }
  else if c.toNat = code then ⟨p.skipped :: p.numbers, 0⟩
  else p

def isBasic (c : Char) : Bool := c.toNat < 0x80

/-- Goes through the codes of the other characters in increasing order; `next` is the
least code that was not considered. -/
def collect (label : List Char) (basic : Nat) : Nat → Progress → List Nat → Progress
  | _, p, [] => p
  | next, p, code :: rest =>
    let places := basic + p.numbers.length + 1
    let passed := { p with skipped := p.skipped + (code - next) * places }
    let visited := label.foldl (Progress.visit code) passed
    collect label basic (code + 1) { visited with skipped := visited.skipped + 1 } rest

/-- One number for each character beyond ASCII. -/
def numbers (label : List Char) : List Nat :=
  let codes := ((label.filter (!isBasic ·)).map Char.toNat).eraseDups.mergeSort
  (collect label (label.filter isBasic).length 0x80 ⟨[], 0⟩ codes).numbers.reverse

/-- Writes numbers; `written` characters were written before them. -/
def write (basic : Nat) : Nat → Nat → List Nat → List Char
  | _, _, [] => []
  | bias, written, n :: rest =>
    digits bias 36 n ++
      write basic (adapt n (written + 1) (written == basic)) (written + 1) rest

def encode (label : List Char) : List Char :=
  let basic := label.filter isBasic
  let head := if basic = [] then [] else basic ++ ['-']
  head ++ write basic.length 72 basic.length (numbers label)

def digitValue? (c : Char) : Option Nat :=
  if 0x61 ≤ c.toNat ∧ c.toNat ≤ 0x7A then some (c.toNat - 0x61)
  else if 0x30 ≤ c.toNat ∧ c.toNat ≤ 0x39 then some (c.toNat - 0x30 + 26)
  else none

/-- Reads numbers. The one at hand has come to `sum`; its next digit has weight `k` and
counts `unit` for each one of its value. -/
def read? (basic bias written k unit sum : Nat) : List Char → Option (List Nat)
  | [] => if k = 36 then some [] else none
  | c :: rest => do
    let d ← digitValue? c
    let t := threshold k bias
    let sum := sum + d * unit
    if d < t then
      (read? basic (adapt sum (written + 1) (written == basic)) (written + 1) 36 1 0 rest).map
        (sum :: ·)
    else read? basic bias written (k + 36) (unit * (36 - t)) sum rest

/-- A text that characters are put into: the code and the place that were reached. -/
structure Insertion where
  code : Nat
  place : Nat
  text : List Char

/-- Passes over `n` places, from code to code, and puts in the character that is due. -/
def Insertion.next? (s : Insertion) (n : Nat) : Option Insertion :=
  let places := s.text.length + 1
  let code := s.code + (s.place + n) / places
  let place := (s.place + n) % places
  if code.isValidChar then some ⟨code, place + 1, s.text.insertIdx place (Char.ofNat code)⟩
  else none

/-- What comes before the last hyphen, and what comes after it. A hyphen that comes
first separates nothing. -/
def split (text : List Char) : List Char × List Char :=
  match text.reverse.span (· ≠ '-') with
  | (tail, _ :: c :: front) => ((c :: front).reverse, tail.reverse)
  | _ => ([], text)

def decode? (text : List Char) : Option (List Char) := do
  let (head, tail) := split text
  if head.all isBasic then
    let numbers ← read? head.length 72 head.length 36 1 0 tail
    let last ← numbers.foldlM Insertion.next? ⟨0x80, 0, head⟩
    return last.text
  else none

end ProxyLease.Punycode
