import ProxyLease.Url.Basic
import ProxyLease.Url.IPv4
import ProxyLease.Url.IPv6
import ProxyLease.Url.International

/-!
# Hosts

Under a special scheme a host is percent-decoded, put into lower case and read as
a number if its last label is one. Under any other scheme it is opaque: its case
is kept and characters beyond ASCII are percent-encoded. Brackets hold a numeric
host of the second family under every scheme.
-/

namespace ProxyLease.Host

/-- Characters that no opaque host can hold. -/
def isForbidden (c : Char) : Bool :=
  c ∈ ['\x00', '\t', '\n', '\r', ' ', '#', '/', ':', '<', '>', '?', '@', '[', '\\', ']', '^', '|']

/-- Characters that no name under a special scheme can hold. -/
def isForbiddenInDomain (c : Char) : Bool :=
  isForbidden c || c.toNat < 0x20 || c == '%' || c.toNat == 0x7F

def parseBracketed (text : List Char) : Except Url.Error Host :=
  match text.reverse with
  | ']' :: inner =>
    match IPv6.parse? (inner.reverse.drop 1) with
    | some pieces => .ok (.ipv6 pieces)
    | none => .error .invalidIPv6
  | _ => .error .invalidIPv6

/-- A host under a scheme that is not special. -/
def parseOpaque (text : List Char) : Except Url.Error Host :=
  if text.head? = some '[' then parseBracketed text
  else if text.any isForbidden then .error .invalidHostCharacter
  else .ok (.domain (Percent.encode Percent.controls text))

/-- The name that decoded bytes stand for, in lower case and in ASCII. -/
def asciiName? (bytes : List UInt8) : Option (List Char) :=
  if bytes.all (· < 0x80) then
    International.asciiText? (bytes.map fun b => (Char.ofNat b.toNat).toLower)
  else
    (String.fromUTF8? ⟨bytes.toArray⟩).bind fun name => International.asciiName? name.toList

/-- The name that a text stands for under a special scheme. -/
def domainName? (text : List Char) : Option (List Char) :=
  (asciiName? (Percent.decodeBytes text)).filter fun name => !name.any isForbiddenInDomain

def parseSpecial (text : List Char) : Except Url.Error Host :=
  if text.head? = some '[' then parseBracketed text
  else
    match domainName? text with
    | none => .error .internationalName
    | some [] => .error .emptyHost
    | some name =>
      if IPv4.endsInNumber name then
        match IPv4.parse? name with
        | some value => .ok (.ipv4 value)
        | none => .error .invalidIPv4
      else .ok (.domain name)

def chars : Host → List Char
  | .domain name => name
  | .ipv4 value => IPv4.text value
  | .ipv6 pieces => '[' :: IPv6.text pieces ++ [']']

end ProxyLease.Host
