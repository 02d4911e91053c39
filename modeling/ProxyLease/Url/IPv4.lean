import ProxyLease.Text.Fields
import ProxyLease.Url.Percent

/-!
# Numeric hosts of the first family

One to four numbers separated by dots, with one trailing dot allowed: decimal,
octal after a leading `0`, hexadecimal after `0x`. The last number fills all the
bytes that the ones before it leave; it is printed as four decimal bytes.
-/

namespace ProxyLease.IPv4

def labels (name : List Char) : List (List Char) := Text.fields (· == '.') name

/-- The labels without an empty last one. -/
def significantLabels (name : List Char) : List (List Char) :=
  match (labels name).reverse with
  | [] :: front => front.reverse
  | _ => labels name

def digitValue? (radix : Nat) (c : Char) : Option Nat :=
  (Percent.hexValue? c).filter (· < radix)

/-- The number written by digits of a radix, zero for no digits. -/
def digitsValue? (radix : Nat) (digits : List Char) : Option Nat :=
  (digits.mapM (digitValue? radix)).map fun values =>
    values.foldl (fun total v => total * radix + v) 0

def number? : List Char → Option Nat
  | [] => none
  | '0' :: 'x' :: digits => digitsValue? 16 digits
  | '0' :: 'X' :: digits => digitsValue? 16 digits
  | '0' :: d :: digits => digitsValue? 8 (d :: digits)
  | digits => digitsValue? 10 digits

def isDecimal (label : List Char) : Bool := label != [] && label.all Char.isDigit

/-- Whether a name must be read as a numeric host: its last label, or the one before
an empty last label, is a number. -/
def endsInNumber (name : List Char) : Bool :=
  match (significantLabels name).getLast? with
  | none => false
  | some label => isDecimal label || (number? label).isSome

/-- Adds up the leading bytes, the first one in the highest place. -/
def leadingBytes : List Nat → Nat → Nat
  | [], _ => 0
  | b :: rest, place => b * Nat.pow 256 place + leadingBytes rest (place - 1)

def parse? (name : List Char) : Option Nat := do
  let parts := significantLabels name
  if 4 < parts.length then none
  else
    let numbers ← parts.mapM number?
    let last ← numbers.getLast?
    let leading := numbers.dropLast
    if leading.any (255 < ·) then none
    else if Nat.pow 256 (4 - leading.length) ≤ last then none
    else some (leadingBytes leading 3 + last)

def text (value : Nat) : List Char :=
  let byte (place : Nat) := Nat.toDigits 10 (value / Nat.pow 256 place % 256)
  byte 3 ++ '.' :: byte 2 ++ '.' :: byte 1 ++ '.' :: byte 0

end ProxyLease.IPv4
