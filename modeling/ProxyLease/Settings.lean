import ProxyLease.Chooser
import ProxyLease.Duration
import ProxyLease.Text.Quoted

/-!
# Settings

The settings of a pool and of the probes it sends. Whatever they say, at least one proxy
is probed at a time. In normalized settings a ceiling of zero available proxies is none; a
pool that is given such a ceiling as it stands queues no new proxy.
-/

namespace ProxyLease

structure Settings where
  validationTimeout : Duration
  validationConcurrency : Nat
  /-- Address requested through a proxy to probe it. -/
  validationUrl : String
  /-- An available proxy is probed again once its last probe is this old. -/
  validationInterval : Duration
  minPoolSize : Nat
  maxPoolSize : Nat
  /-- A proxy this old is dropped instead of probed. -/
  proxyTtl : Duration
  /-- Failures in a row after which a proxy is disabled. -/
  maxConsecutiveFailures : Nat
  /-- Rest of a failed proxy before the next probe. -/
  cooldownDuration : Duration
  defaultGetTimeout : Duration
  /-- Proxies are handed out once and forgotten. -/
  removeAfterGet : Bool
  /-- Endpoints asked of a source at a time; zero asks for all that fit. -/
  fetchBatchSize : Nat
  fetchInterval : Duration
  /-- New proxies are not queued for a probe while this many are available. -/
  maxAvailableForValidation : Option Nat
  strategy : Strategy
  maxRequestsPerSecond : Float
  /-- Further attempts of a request after a failed one. -/
  retryCount : Nat

namespace Settings

def standard : Settings where
  validationTimeout := .ofSeconds 10
  validationConcurrency := 10
  validationUrl := "http://httpbin.org/ip"
  validationInterval := .ofSeconds 300
  minPoolSize := 5
  maxPoolSize := 100
  proxyTtl := .ofSeconds 3600
  maxConsecutiveFailures := 3
  cooldownDuration := .ofSeconds 60
  defaultGetTimeout := .ofSeconds 30
  removeAfterGet := false
  fetchBatchSize := 50
  fetchInterval := .ofSeconds 60
  maxAvailableForValidation := none
  strategy := .weighted
  maxRequestsPerSecond := 5
  retryCount := 3

/-- The settings in force when these are asked for. -/
def normalized (s : Settings) : Settings :=
  { s with
    validationConcurrency := Nat.max s.validationConcurrency 1
    maxAvailableForValidation := s.maxAvailableForValidation.filter (0 < ·) }

end Settings

structure ProbeSettings where
  validationUrl : String
  timeout : Duration
  /-- The status a healthy proxy answers with, unless a header is asked for. -/
  expectedStatus : Nat
  /-- A healthy proxy answers with this header, whatever the status. -/
  requiredHeader : Option String
  headers : List (String × String)
  maxCachedClients : Nat
  /-- A client unused for this long is dropped. -/
  clientIdleTimeout : Duration
  connectionIdleTimeout : Duration
  maxIdleConnectionsPerHost : Nat

namespace ProbeSettings

def standard (validationUrl : String) : ProbeSettings where
  validationUrl := validationUrl
  timeout := .ofSeconds 10
  expectedStatus := 200
  requiredHeader := none
  headers := []
  maxCachedClients := 512
  clientIdleTimeout := .ofSeconds 300
  connectionIdleTimeout := .ofSeconds 120
  maxIdleConnectionsPerHost := 4

/-- The probes of a pool: its address and its deadline. -/
def ofPool (s : Settings) : ProbeSettings :=
  { standard s.validationUrl with timeout := s.validationTimeout }

def debugText (s : ProbeSettings) : String :=
  "HttpCheckerConfig \x7b validation_url: " ++ Text.quoted s.validationUrl ++
    ", timeout: " ++ s.timeout.text ++
    ", expected_status: " ++ toString s.expectedStatus ++
    ", predicate: " ++ toString s.requiredHeader.isSome ++
    ", max_cached_clients: " ++ toString s.maxCachedClients ++
    ", client_idle_timeout: " ++ s.clientIdleTimeout.text ++ " \x7d"

end ProbeSettings
end ProxyLease
