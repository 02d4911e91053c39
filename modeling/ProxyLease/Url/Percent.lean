/-!
# Percent-encoding

A character of an encode set is written as its bytes, each as `%` and two
hexadecimal digits in upper case; every other character stands for itself. The
percent sign belongs to no set, so a text that is encoded already stays as it is.
-/

namespace ProxyLease.Percent

/-- Characters a given part of an address cannot hold. -/
abbrev EncodeSet := Char → Bool

/-- Control characters and everything beyond ASCII. -/
def controls : EncodeSet := fun c => c.toNat < 0x20 || 0x7E < c.toNat

def fragment : EncodeSet := fun c => controls c || c ∈ [' ', '"', '<', '>', '\x60']

def query : EncodeSet := fun c => controls c || c ∈ [' ', '"', '#', '<', '>']

def specialQuery : EncodeSet := fun c => query c || c == '\''

def path : EncodeSet := fun c => fragment c || c ∈ ['#', '?', '\x7b', '\x7d']

def userinfo : EncodeSet := fun c =>
  path c || c ∈ ['/', ':', ';', '=', '@', '[', '\\', ']', '^', '|']

def hexDigit (n : Nat) : Char := Char.ofNat (if n < 10 then 0x30 + n else 0x37 + n)

def encodeByte (b : UInt8) : List Char :=
  ['%', hexDigit (b.toNat / 16), hexDigit (b.toNat % 16)]

def encodeChar (set : EncodeSet) (c : Char) : List Char :=
  if set c then (String.utf8EncodeChar c).flatMap encodeByte else [c]

def encode (set : EncodeSet) (text : List Char) : List Char := text.flatMap (encodeChar set)

@[simp] theorem encode_nil (set : EncodeSet) : encode set [] = [] := rfl

@[simp] theorem encode_cons (set : EncodeSet) (c : Char) (text : List Char) :
    encode set (c :: text) = encodeChar set c ++ encode set text := rfl

theorem encode_eq_self {set : EncodeSet} {text : List Char} (h : ∀ c ∈ text, set c = false) :
    encode set text = text := by
  induction text with
  | nil => rfl
  | cons c rest ih =>
    have hc : set c = false := h c (by simp)
    have hr : encode set rest = rest := ih fun d hd => h d (by simp [hd])
    simp [encodeChar, hc, hr]

def hexValue? (c : Char) : Option Nat :=
  if '0' ≤ c ∧ c ≤ '9' then some (c.toNat - 0x30)
  else if 'A' ≤ c ∧ c ≤ 'F' then some (c.toNat - 0x37)
  else if 'a' ≤ c ∧ c ≤ 'f' then some (c.toNat - 0x57)
  else none

/-- The bytes of a text in which a percent sign before two hexadecimal digits stands
for the byte they name. -/
def decodeBytes : List Char → List UInt8
  | [] => []
  | [c] => String.utf8EncodeChar c
  | [c, d] => String.utf8EncodeChar c ++ String.utf8EncodeChar d
  | c :: d :: e :: rest =>
    if c = '%' then
      match hexValue? d, hexValue? e with
      | some hi, some lo => UInt8.ofNat (hi * 16 + lo) :: decodeBytes rest
      | _, _ => String.utf8EncodeChar c ++ decodeBytes (d :: e :: rest)
    else String.utf8EncodeChar c ++ decodeBytes (d :: e :: rest)

end ProxyLease.Percent
