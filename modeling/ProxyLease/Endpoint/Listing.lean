import ProxyLease.Endpoint.Basic
import ProxyLease.Text.Blank

/-!
# Listings of endpoints

A listing names one endpoint a line, as `host:port` or as an address with a
scheme. Blank lines, lines that begin with `#` and lines that are neither are
skipped, so every line is read on its own.
-/

namespace ProxyLease.Listing

/-- A port: an optional plus sign and decimal digits, with a value below `2^16`. -/
def port? (text : List Char) : Option Nat :=
  let digits := match text with
    | '+' :: rest => rest
    | _ => text
  if digits != [] && digits.all Char.isDigit then
    let value := digits.foldl (fun total c => total * 10 + (c.toNat - 0x30)) 0
    if value < 65536 then some value else none
  else none

/-- Whether a text holds `://`. -/
def hasSchemeMark : List Char → Bool
  | [] => false
  | c :: rest => (c :: rest).take 3 == [':', '/', '/'] || hasSchemeMark rest

/-- Reads a trimmed line of the form `host:port`. -/
def bareEndpoint? (fallback : Transport) (line : List Char) : Option Endpoint :=
  let host := line.takeWhile (· != ':')
  match line.dropWhile (· != ':') with
  | _ :: portText =>
    if host = [] ∨ ':' ∈ portText then none
    else
      (port? (Text.trim portText)).map fun port =>
        .plain (String.ofList (Text.trim host)) port fallback
  | [] => none

/-- Reads a trimmed line that holds an address; an unknown scheme means the fallback. -/
def addressedEndpoint? (fallback : Transport) (line : List Char) : Option Endpoint := do
  let url ← (Url.parseChars line).toOption
  let host ← url.host?
  let port ← url.effectivePort?
  let transport := (Transport.ofScheme? url.scheme).getD fallback
  let endpoint := Endpoint.plain (String.ofList host.chars) port transport
  if url.username = [] then endpoint
  else endpoint.withCredentials (String.ofList url.username) (url.password?.map String.ofList)

def endpoint? (fallback : Transport) (line : List Char) : Option Endpoint :=
  let line := Text.trim line
  if line = [] ∨ line.head? = some '#' then none
  else if hasSchemeMark line then addressedEndpoint? fallback line
  else bareEndpoint? fallback line

/-- The endpoints of a listing in the order of their lines. -/
def parse (fallback : Transport) (content : String) : List Endpoint :=
  (Text.fields (· == '\n') content.toList).filterMap (endpoint? fallback)

end ProxyLease.Listing
