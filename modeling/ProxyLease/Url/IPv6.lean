import ProxyLease.Text.Fields
import ProxyLease.Url.Percent

/-!
# Numeric hosts of the second family

Eight pieces of up to four hexadecimal digits, separated by colons. One `::`
stands for at least one zero piece, and the last two pieces may be written as four
decimal bytes. The printed form shortens the first longest run of at least two
zero pieces.
-/

namespace ProxyLease.IPv6

/-- Pieces read so far: those before the gap, latest first and with one zero for the
gap itself, and those after it. -/
structure Pieces where
  before : List Nat
  after : Option (List Nat)

namespace Pieces

def count (p : Pieces) : Nat := p.before.length + (p.after.map List.length).getD 0

def push (p : Pieces) (value : Nat) : Pieces :=
  match p.after with
  | none => { p with before := value :: p.before }
  | some list => { p with after := some (value :: list) }

/-- Opens the gap; a second one is refused. -/
def open? (p : Pieces) : Option Pieces :=
  match p.after with
  | none => some ⟨0 :: p.before, some []⟩
  | some _ => none

/-- Fills the gap with zeros up to eight pieces. -/
def close? (p : Pieces) : Option (List Nat) :=
  match p.after with
  | none => if p.before.length = 8 then some p.before.reverse else none
  | some list =>
    some (p.before.reverse ++ List.replicate (8 - p.count) 0 ++ list.reverse)

end Pieces

/-- Reads at most `limit` hexadecimal digits: their value and what follows. -/
def takeHex : Nat → Nat → List Char → Nat × List Char
  | 0, value, cs => (value, cs)
  | _ + 1, value, [] => (value, [])
  | limit + 1, value, c :: rest =>
    match Percent.hexValue? c with
    | some d => takeHex limit (value * 16 + d) rest
    | none => (value, c :: rest)

/-- A decimal byte without a leading zero. -/
def byte? : List Char → Option Nat
  | [] => none
  | ['0'] => some 0
  | '0' :: _ => none
  | digits =>
    if digits.all Char.isDigit then
      let value := digits.foldl (fun total c => total * 10 + (c.toNat - 0x30)) 0
      if value ≤ 255 then some value else none
    else none

/-- The two pieces written by four decimal bytes with dots between them. -/
def dotted? (cs : List Char) : Option (Nat × Nat) :=
  match (Text.fields (· == '.') cs).mapM byte? with
  | some [a, b, c, d] => some (a * 256 + b, c * 256 + d)
  | _ => none

/-- Reads pieces until the text ends; each round takes at least one character, so
`fuel` may be the length of the text. -/
def pieces? : Nat → Pieces → List Char → Option Pieces
  | _, p, [] => some p
  | 0, _, _ :: _ => none
  | fuel + 1, p, c :: rest =>
    if p.count = 8 then none
    else if c = ':' then p.open?.bind fun q => pieces? fuel q rest
    else
      match takeHex 4 0 (c :: rest) with
      | (value, []) => some (p.push value)
      | (value, ':' :: d :: tail) =>
        pieces? fuel (p.push value) (d :: tail)
      | (_, '.' :: _) =>
        if c = '.' ∨ 6 < p.count then none
        else (dotted? (c :: rest)).map fun (high, low) => (p.push high).push low
      | _ => none

def parse? (cs : List Char) : Option (List Nat) :=
  match cs with
  | [] | [_] => none
  | ':' :: ':' :: rest => (pieces? rest.length ⟨[0], some []⟩ rest).bind Pieces.close?
  | ':' :: _ => none
  | _ => (pieces? cs.length ⟨[], none⟩ cs).bind Pieces.close?

/-- Length of the run of zeros that begins a list. -/
def zeroRun (pieces : List Nat) : Nat := (pieces.takeWhile (· == 0)).length

/-- Start and length of the first longest run of at least two zeros. -/
def longestRun : List Nat → Nat → Option (Nat × Nat)
  | [], _ => none
  | p :: rest, start =>
    let here := zeroRun (p :: rest)
    match longestRun rest (start + 1) with
    | some (s, n) => if n ≤ here then some (start, here) else some (s, n)
    | none => if 2 ≤ here then some (start, here) else none

def hexText (n : Nat) : List Char := Nat.toDigits 16 n

def joined (pieces : List Nat) : List Char :=
  (pieces.map hexText).intersperse [':'] |>.flatten

/-- The shortest usual form, in lower case. -/
def text (pieces : List Nat) : List Char :=
  match longestRun pieces 0 with
  | none => joined pieces
  | some (start, n) =>
    joined (pieces.take start) ++ ':' :: ':' :: joined (pieces.drop (start + n))

end ProxyLease.IPv6
