import ProxyLease.Text.Fields
import ProxyLease.Text.SmallLetter
import ProxyLease.Url.Punycode

/-!
# International names

A name with characters beyond ASCII is prepared character by character: wide forms
become plain ones, capitals become small letters, and characters that only shape the
text are dropped. Then every label that is not plain is written in ASCII after the
mark `xn--`. A label that has the mark already must stand for one that would be written
so. Names are taken to be composed and to hold letters, digits and symbols; controls and
characters for private use are refused.
-/

namespace ProxyLease.International

/-- Characters that separate labels like a dot. -/
def isDot (c : Char) : Bool := c ∈ ['.', '\u3002', '\uff0e', '\uff61']

def isDropped (c : Char) : Bool :=
  c ∈ ['\u00ad', '\u200b', '\u2060', '\ufeff'] || (0xFE00 ≤ c.toNat && c.toNat ≤ 0xFE0F)

def isRefused (c : Char) : Bool :=
  let n := c.toNat
  (0x80 ≤ n && n ≤ 0x9F) || n == 0xFFFD || (0xE000 ≤ n && n ≤ 0xF8FF) || 0xE0000 ≤ n ||
    n == 0x200E || n == 0x200F || (0x2028 ≤ n && n ≤ 0x202E)

/-- The plain form of a wide character. -/
def narrow (c : Char) : Char :=
  if 0xFF01 ≤ c.toNat ∧ c.toNat ≤ 0xFF5E then Char.ofNat (c.toNat - 0xFEE0) else c

/-- What a character of a name stands for, or nothing when it is refused. -/
def prepare? (c : Char) : Option (List Char) :=
  if isDropped c then some []
  else if isRefused c then none
  else if isDot c then some ['.']
  else some [Text.smallLetter (narrow c)]

/-- What comes before a label that is written in ASCII. -/
def mark : List Char := ['x', 'n', '-', '-']

def isMarked (label : List Char) : Bool := mark.isPrefixOf label

/-- A label that a name can hold as it is: all its characters stand for themselves. -/
def isSettled (label : List Char) : Bool :=
  label.all (fun c => prepare? c == some [c]) && !isMarked label

/-- A marked label stands for a settled one that is not plain. -/
def isEncoded (label : List Char) : Bool :=
  (Punycode.decode? (label.drop mark.length)).any fun own =>
    !own.all Punycode.isBasic && isSettled own

/-- A label in ASCII, if names can hold it. -/
def labelText? (label : List Char) : Option (List Char) :=
  if label.all Punycode.isBasic then
    if isMarked label && !isEncoded label then none else some label
  else if isSettled label then some (mark ++ Punycode.encode label)
  else none

/-- A prepared name in ASCII. -/
def asciiText? (prepared : List Char) : Option (List Char) :=
  ((Text.fields (· == '.') prepared).mapM labelText?).map fun labels =>
    (labels.intersperse ['.']).flatten

def asciiName? (name : List Char) : Option (List Char) := do
  let prepared ← name.mapM prepare?
  asciiText? prepared.flatten

end ProxyLease.International
