import ProxyLease.Url.Host
import ProxyLease.Url.Path

/-!
# Reading and writing addresses

Blanks and control characters around the text, and tabs and line ends inside it,
do not count. An address needs a scheme. Under a special scheme any number of
slashes leads to the authority, under another one only `//` does; without an
authority the path is opaque unless it begins with a slash. `Url.text` writes an
address back and leaves out a default port.
-/

namespace ProxyLease.Url

/-- The characters that count: no blanks or controls around, no tabs or line ends inside. -/
def significant (text : List Char) : List Char :=
  let edge (c : Char) : Bool := c.toNat ≤ 0x20
  let trimmed := ((text.dropWhile edge).reverse.dropWhile edge).reverse
  trimmed.filter fun c => !(c == '\t' || c == '\n' || c == '\r')

def isSchemeChar (c : Char) : Bool := c.isAlphanum || c == '+' || c == '-' || c == '.'

/-- The scheme in lower case and what follows its colon. -/
def splitScheme? (text : List Char) : Option (List Char × List Char) :=
  match text.head?, text.dropWhile isSchemeChar with
  | some c, ':' :: rest =>
    if c.isAlpha then some ((text.takeWhile isSchemeChar).map Char.toLower, rest) else none
  | _, _ => none

def endsAuthority (kind : SchemeKind) (c : Char) : Bool :=
  c == '/' || c == '?' || c == '#' || (kind.isSpecial && c == '\\')

/-- User information before the last at sign of the authority, and what follows it. -/
def splitUserinfo? (kind : SchemeKind) (text : List Char) : Option (List Char × List Char) :=
  let inside (c : Char) : Bool := !endsAuthority kind c
  let reversed := (text.takeWhile inside).reverse
  match reversed.dropWhile (· != '@') with
  | _ :: before =>
    some (before.reverse, (reversed.takeWhile (· != '@')).reverse ++ text.dropWhile inside)
  | [] => none

/-- User name and password, encoded; an empty password is none. -/
def credentials (userinfo : List Char) : List Char × Option (List Char) :=
  let name := Percent.encode Percent.userinfo (userinfo.takeWhile (· != ':'))
  match (userinfo.dropWhile (· != ':')).drop 1 with
  | [] => (name, none)
  | password => (name, some (Percent.encode Percent.userinfo password))

/-- Cuts a text after its host: at a colon outside brackets, or where the authority ends. -/
def splitHost (kind : SchemeKind) : Bool → List Char → List Char × List Char
  | _, [] => ([], [])
  | bracketed, c :: rest =>
    if (c == ':' && !bracketed) || endsAuthority kind c then ([], c :: rest)
    else
      let inside := if c == '[' then true else if c == ']' then false else bracketed
      let (host, after) := splitHost kind inside rest
      (c :: host, after)

/-- Reads the digits of a port up to a slash of either kind, a query or a fragment;
`digits` is what was read so far. -/
def parsePort : Option Nat → List Char → Except Error (Option Nat × List Char)
  | digits, [] => .ok (digits, [])
  | digits, c :: rest =>
    if c.isDigit then
      let port := digits.getD 0 * 10 + (c.toNat - 0x30)
      if 65535 < port then .error .invalidPort else parsePort (some port) rest
    else if c ∈ ['/', '\\', '?', '#'] then .ok (digits, c :: rest)
    else .error .invalidPort

/-- The host, or nothing for an empty one under a scheme that is not special. -/
def parseHost (kind : SchemeKind) (text : List Char) : Except Error (Option Host) :=
  if kind = .special then
    if text = [] then .error .emptyHost else (Host.parseSpecial text).map some
  else
    (Host.parseOpaque text).map fun host =>
      if host = .domain [] then none else some host

def parseAuthority (scheme : List Char) (kind : SchemeKind) (text : List Char) :
    Except Error (Authority × List Char) := do
  let (userinfo, afterUser) := (splitUserinfo? kind text).getD ([], text)
  if (splitUserinfo? kind text).isSome && userinfo = [] &&
      (afterUser.head?.map (endsAuthority kind)).getD false then
    throw .emptyHost
  let (username, password) := credentials userinfo
  let (hostText, afterHost) := splitHost kind false afterUser
  let host ← parseHost kind hostText
  if host = none ∧ afterHost.head? = some ':' then throw .emptyHost
  let (port, rest) ←
    match afterHost with
    | ':' :: digits => parsePort none digits
    | _ => .ok (none, afterHost)
  if host = none ∧ ¬(username = [] ∧ password = none) then throw .emptyHost
  let named := if port = defaultPort? scheme then none else port
  return (⟨username, password, host, named⟩, rest)

/-- Query and fragment at the end of an address. -/
def parseTail (kind : SchemeKind) (text : List Char) :
    Option (List Char) × Option (List Char) :=
  let set := if kind.isSpecial then Percent.specialQuery else Percent.query
  let isHash (c : Char) : Bool := c == '#'
  let fragmentOf : List Char → Option (List Char)
    | _ :: rest => some (Percent.encode Percent.fragment rest)
    | [] => none
  match text with
  | '?' :: rest =>
    (some (Percent.encode set (rest.takeWhile (!isHash ·))),
      fragmentOf (rest.dropWhile (!isHash ·)))
  | _ => (none, fragmentOf text)

def assemble (scheme : List Char) (kind : SchemeKind) (authority : Option Authority)
    (path : List Char → UrlPath) (rest : List Char) : Url :=
  let inPath (c : Char) : Bool := !(c == '?' || c == '#')
  let (query, fragment) := parseTail kind (rest.dropWhile inPath)
  ⟨scheme, authority, path (rest.takeWhile inPath), query, fragment⟩

def pathAfterAuthority (kind : SchemeKind) (text : List Char) : UrlPath :=
  match text with
  | [] => .hierarchical (if kind.isSpecial then UrlPath.parseSegments kind [] else [])
  | c :: rest =>
    if c == '/' || (kind.isSpecial && c == '\\') then .hierarchical (UrlPath.parseSegments kind rest)
    else .hierarchical (UrlPath.parseSegments kind (c :: rest))

def pathWithoutAuthority (kind : SchemeKind) (text : List Char) : UrlPath :=
  match text with
  | '/' :: rest => .hierarchical (UrlPath.parseSegments kind rest)
  | _ => .opaqueText (Percent.encode Percent.controls text)

def isSlash (c : Char) : Bool := c == '/' || c == '\\'

/-- A file address from its host on; a drive letter at the front of its path leaves no host. -/
def fileAddress (scheme : List Char) (host : Option Host) (rest : List Char) : Url :=
  let url := assemble scheme .file (some ⟨[], none, host, none⟩) (pathAfterAuthority .file) rest
  match url.path with
  | .hierarchical (first :: _) =>
    if UrlPath.isDriveLetter first then { url with authority := some ⟨[], none, none, none⟩ }
    else url
  | _ => url

/-- A file address: the host is optional, and `localhost` or a host before a drive
letter is none. -/
def parseFile (scheme text : List Char) : Except Error Url := do
  match text with
  | c :: d :: rest =>
    if isSlash c && isSlash d then
      let hostText := rest.takeWhile (!endsAuthority .file ·)
      if hostText = [] ∨ UrlPath.isDriveLetter hostText then return fileAddress scheme none rest
      else
        let host ← Host.parseSpecial hostText
        let after := rest.dropWhile (!endsAuthority .file ·)
        return fileAddress scheme (if host = .domain "localhost".toList then none else some host)
          after
    else return fileAddress scheme none (c :: d :: rest)
  | _ => return fileAddress scheme none text

def parseChars (input : List Char) : Except Error Url :=
  match splitScheme? (significant input) with
  | none => .error .missingBase
  | some (scheme, rest) =>
    match SchemeKind.ofScheme scheme with
    | .file => parseFile scheme rest
    | .special => do
      let (authority, after) ← parseAuthority scheme .special (rest.dropWhile isSlash)
      return assemble scheme .special (some authority) (pathAfterAuthority .special) after
    | .other =>
      match rest with
      | '/' :: '/' :: after => do
        let (authority, tail) ← parseAuthority scheme .other after
        return assemble scheme .other (some authority) (pathAfterAuthority .other) tail
      | _ => .ok (assemble scheme .other none (pathWithoutAuthority .other) rest)

def parse (input : String) : Except Error Url := parseChars input.toList

/-- User name and password before their at sign. -/
def credentialChars (a : Authority) : List Char :=
  match a.username, a.password with
  | [], none => []
  | name, none => name ++ ['@']
  | name, some password => name ++ ':' :: password ++ ['@']

def authorityChars (a : Authority) : List Char :=
  let port := match a.port with
    | none => []
    | some n => ':' :: Nat.toDigits 10 n
  '/' :: '/' :: credentialChars a ++ ((a.host.map Host.chars).getD [] ++ port)

/-- The path; `/.` keeps an empty first segment from being taken for an authority. -/
def pathChars (u : Url) : List Char :=
  match u.authority, u.path with
  | none, .hierarchical ([] :: second :: rest) =>
    '/' :: '.' :: UrlPath.chars (.hierarchical ([] :: second :: rest))
  | _, path => path.chars

def chars (u : Url) : List Char :=
  let marked (mark : Char) : Option (List Char) → List Char
    | none => []
    | some text => mark :: text
  u.scheme ++ ':' :: ((u.authority.map authorityChars).getD [] ++
    (u.pathChars ++ (marked '?' u.query ++ marked '#' u.fragment)))

def text (u : Url) : String := String.ofList u.chars

/-- The address with other credentials; an address without a host, and one of a file,
keeps what it has. -/
def withCredentials (u : Url) (username : String) (password : Option String) : Url :=
  match u.authority with
  | none => u
  | some a =>
    if a.host = none ∨ SchemeKind.ofScheme u.scheme = .file then u
    else
      let encode (s : String) := Percent.encode Percent.userinfo s.toList
      let secret := (password.map encode).filter (· ≠ [])
      { u with authority := some { a with username := encode username, password := secret } }

end ProxyLease.Url
