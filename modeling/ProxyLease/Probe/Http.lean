import ProxyLease.Network.Peer
import ProxyLease.Outcome
import ProxyLease.Probe.ClientCache
import ProxyLease.Settings

/-!
# Probes over HTTP

A proxy is probed by one request through a client that was built from an endpoint
and is cached under the proxy's identity. The answer decides the outcome: status
407 means failed authentication, an accepted answer success, any other an invalid
response; no answer is a timeout, a refused connection or an exception.
-/

namespace ProxyLease

/-- Why no request can be made to an address. -/
inductive RequestFlaw where
  /-- No address, or one without a host. -/
  | unusable
  /-- An address under a scheme that is not requested over HTTP. -/
  | foreignScheme (url : Url)

def RequestFlaw.message : RequestFlaw → String
  | .unusable => "builder error"
  | .foreignScheme url => "builder error for url (" ++ url.text ++ ")"

/-- The address as it is requested: without credentials, which are sent apart. -/
def Url.target (url : Url) : Except RequestFlaw Url :=
  if url.scheme = "http".toList ∨ url.scheme = "https".toList then
    .ok (url.withCredentials "" none)
  else .error (.foreignScheme url)

/-- The address a text stands for in a request; it needs a host. -/
def requestAddress (text : String) : Except RequestFlaw Url :=
  match Url.parse text with
  | .error _ => .error .unusable
  | .ok url => if url.host? = none then .error .unusable else .ok url

def requestTarget (text : String) : Except RequestFlaw Url :=
  (requestAddress text).bind Url.target

def exchangeFailure (url : Url) : String :=
  "error sending request for url (" ++ url.text ++ ")"

structure HttpProber where
  settings : ProbeSettings
  /-- Clients, each remembered by the endpoint it was built from. -/
  clients : ClientCache Endpoint

/-- A finished probe: its outcome, the time it took, and the client it went through, if
any request was sent. -/
structure HttpProbe where
  outcome : Outcome
  took : Duration
  client : Option Endpoint

namespace HttpProber

def ofSettings (s : ProbeSettings) : HttpProber :=
  ⟨s, .empty s.maxCachedClients s.clientIdleTimeout⟩

def accepts (s : ProbeSettings) (answer : Response) : Bool :=
  match s.requiredHeader with
  | some header => answer.headers.any fun h => h.1.toLower == header.toLower
  | none => 200 ≤ answer.status && answer.status < 300 && answer.status == s.expectedStatus

/-- The outcome an answer stands for. -/
def classify (s : ProbeSettings) (now : Instant) (elapsed : Duration) (answer : Response) :
    Outcome :=
  if answer.status = 407 then
    (Outcome.failed now .authenticationFailed elapsed "Proxy authentication required").withStatus 407
  else if accepts s answer then .success now elapsed answer.status
  else
    (Outcome.failed now .invalidResponse elapsed
      ("Unexpected response status " ++ statusText answer.status)).withStatus answer.status

/-- Probes a proxy at `now`; `exchange` says what a request through the client built from
an endpoint comes to. -/
def check (p : HttpProber) (now : Instant) (endpoint : Endpoint)
    (exchange : Endpoint → Exchange) : HttpProbe × HttpProber :=
  let make : Except RequestFlaw Endpoint :=
    match endpoint.url with
    | .ok _ => .ok endpoint
    | .error _ => .error .unusable
  let (client, clients) := p.clients.obtain endpoint.id now make
  let failed (verdict : Verdict) (text : String) : Outcome := .failed now verdict .zero text
  let probe : HttpProbe :=
    match client with
    | .error flaw =>
      ⟨failed .exception
        ("Failed to build client for " ++ endpoint.text ++ ": " ++ flaw.message), .zero, none⟩
    | .ok client =>
      match requestTarget p.settings.validationUrl with
      | .error flaw => ⟨failed .exception flaw.message, .zero, none⟩
      | .ok url =>
        let (delivery, took) := (exchange client).within p.settings.timeout
        let done := now + took.ns
        let outcome := match delivery with
          | .answered answer => classify p.settings done took answer
          | .timedOut => .timeout done took
          | .refused => .failed done .connectionFailed took (exchangeFailure url)
          | .broken => .failed done .exception took (exchangeFailure url)
        ⟨outcome, took, some client⟩
  (probe, { p with clients })

end HttpProber
end ProxyLease
