/-!
# Addresses of resources

An address is kept in parts: its scheme, the authority with user name, password,
host and port, the path, the query and the fragment. User name, password, path,
query and fragment are kept percent-encoded; every part holds characters only.
-/

namespace ProxyLease

/-- How a scheme shapes the addresses under it. -/
inductive SchemeKind where
  /-- A host is optional and a path may begin with a drive letter. -/
  | file
  /-- A host is required, and a backslash works as a slash. -/
  | special
  /-- The host is opaque and the path may be too. -/
  | other
  deriving DecidableEq

namespace SchemeKind

def ofScheme (scheme : List Char) : SchemeKind :=
  if scheme ∈ ["http", "https", "ws", "wss", "ftp"].map String.toList then .special
  else if scheme = "file".toList then .file
  else .other

def isSpecial (k : SchemeKind) : Bool := k != .other

end SchemeKind

/-- The port an address of this scheme means when it names none. -/
def defaultPort? (scheme : List Char) : Option Nat :=
  if scheme = "http".toList ∨ scheme = "ws".toList then some 80
  else if scheme = "https".toList ∨ scheme = "wss".toList then some 443
  else if scheme = "ftp".toList then some 21
  else none

/-- A host: a name, or an address of one of the two numeric families. -/
inductive Host where
  | domain (name : List Char)
  | ipv4 (value : Nat)
  | ipv6 (pieces : List Nat)
  deriving DecidableEq

/-- The part of an address between `//` and the path. An empty host is no host. -/
structure Authority where
  username : List Char
  password : Option (List Char)
  host : Option Host
  port : Option Nat
  deriving DecidableEq

/-- A path in segments, each written after a slash, or one opaque text. -/
inductive UrlPath where
  | hierarchical (segments : List (List Char))
  | opaqueText (text : List Char)
  deriving DecidableEq

structure Url where
  scheme : List Char
  authority : Option Authority
  path : UrlPath
  query : Option (List Char)
  fragment : Option (List Char)
  deriving DecidableEq

namespace Url

inductive Error where
  | emptyHost
  | internationalName
  | invalidPort
  | invalidIPv4
  | invalidIPv6
  | invalidHostCharacter
  /-- There is no scheme, so the text is relative, and nothing to be relative to. -/
  | missingBase
  deriving DecidableEq

def Error.message : Error → String
  | .emptyHost => "empty host"
  | .internationalName => "invalid international domain name"
  | .invalidPort => "invalid port number"
  | .invalidIPv4 => "invalid IPv4 address"
  | .invalidIPv6 => "invalid IPv6 address"
  | .invalidHostCharacter => "invalid domain character"
  | .missingBase => "relative URL without a base"

def host? (u : Url) : Option Host := u.authority.bind (·.host)

def username (u : Url) : List Char := (u.authority.map (·.username)).getD []

def password? (u : Url) : Option (List Char) := u.authority.bind (·.password)

/-- The port named in the address, or the default one of its scheme. -/
def effectivePort? (u : Url) : Option Nat :=
  (u.authority.bind (·.port)).or (defaultPort? u.scheme)

end Url
end ProxyLease
