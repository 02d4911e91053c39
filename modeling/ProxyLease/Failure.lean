import ProxyLease.Duration
import ProxyLease.Url.Basic

/-!
# Failures

What can go wrong in front of a caller of the pool, and what can go wrong in a
source. A failed probe is no failure here: it is an outcome.
-/

namespace ProxyLease

inductive PoolFailure where
  | noSource
  | timedOut (wait : Duration)
  | cancelled
  | stopped
  | invalidConcurrency (workers : Nat)
  | invalidUrl (cause : Url.Error)
  deriving DecidableEq

def PoolFailure.message : PoolFailure → String
  | .noSource => "At least one proxy source is required"
  | .timedOut wait => "Timed out after " ++ wait.text ++ " waiting for a proxy"
  | .cancelled => "Wait for a proxy was cancelled"
  | .stopped => "Proxy pool is stopped"
  | .invalidConcurrency n => "Validation concurrency must be at least 1, got " ++ toString n
  | .invalidUrl cause => "Invalid validation URL: " ++ cause.message

inductive SourceFailure where
  | download
  /-- A listing could not be read, for the given reason. -/
  | read (reason : String)
  deriving DecidableEq

def SourceFailure.message : SourceFailure → String
  | .download => "Failed to fetch proxy list"
  | .read reason => "Failed to read proxy list: " ++ reason

end ProxyLease
