import ProxyLease.Url.Parse

/-!
# Endpoints

An endpoint says where a proxy listens, what it speaks and how to log in. Its
identity is the host, with ASCII letters in lower case, and the port: two
endpoints that differ in transport or credentials only are the same proxy.
-/

namespace ProxyLease

/-- What is spoken to a proxy. -/
inductive Transport where
  | http
  | https
  | socks4
  | socks5
  deriving DecidableEq, Inhabited

namespace Transport

def name : Transport → String
  | .http => "Http"
  | .https => "Https"
  | .socks4 => "Socks4"
  | .socks5 => "Socks5"

def scheme : Transport → String
  | .http => "http"
  | .https => "https"
  | .socks4 => "socks4"
  | .socks5 => "socks5"

/-- The transport a scheme names, in any case; a final `a` or `h` asks the proxy to
look names up and changes nothing here. -/
def ofScheme? (scheme : List Char) : Option Transport :=
  match String.ofList (scheme.map Char.toLower) with
  | "http" => some .http
  | "https" => some .https
  | "socks4" | "socks4a" => some .socks4
  | "socks5" | "socks5h" => some .socks5
  | _ => none

end Transport

/-- Where a proxy listens and how it is spoken to. -/
structure Endpoint where
  host : String
  port : Nat
  transport : Transport
  username : Option String
  password : Option String
  /-- The source that named this endpoint. -/
  source : Option String
  deriving DecidableEq, Inhabited

namespace Endpoint

def plain (host : String) (port : Nat) (transport : Transport) : Endpoint :=
  ⟨host, port, transport, none, none, none⟩

def withCredentials (e : Endpoint) (username : String) (password : Option String) : Endpoint :=
  { e with username := some username, password }

/-- The identity of the proxy: host in lower case, a colon, the port. -/
def id (e : Endpoint) : String :=
  String.ofList (e.host.toList.map Char.toLower ++ ':' :: Nat.toDigits 10 e.port)

/-- The address without credentials, as it is shown and as it is read. -/
def text (e : Endpoint) : String :=
  e.transport.scheme ++ "://" ++ e.host ++ ":" ++ toString e.port

def url (e : Endpoint) : Except Url.Error Url := do
  let url ← Url.parse e.text
  return match e.username with
    | none => url
    | some name => url.withCredentials name e.password

/-- The endpoint with a source, unless it names one already. -/
def withDefaultSource (e : Endpoint) (name : String) : Endpoint :=
  { e with source := some (e.source.getD name) }

end Endpoint
end ProxyLease
