import ProxyLease.Duration

/-!
# Outcomes of probes

A probe ends with a verdict, the time it took, the status of the answer if there
was one, a text saying what went wrong, and the instant of its end.
-/

namespace ProxyLease

/-- How a probe, or a use of a proxy, went. -/
inductive Verdict where
  | success
  | timeout
  | connectionFailed
  | authenticationFailed
  | invalidResponse
  | exception
  deriving DecidableEq, Inhabited

namespace Verdict

def name : Verdict → String
  | .success => "Success"
  | .timeout => "Timeout"
  | .connectionFailed => "ConnectionFailed"
  | .authenticationFailed => "AuthenticationFailed"
  | .invalidResponse => "InvalidResponse"
  | .exception => "Exception"

def phrase : Verdict → String
  | .success => "success"
  | .timeout => "timeout"
  | .connectionFailed => "connection failed"
  | .authenticationFailed => "authentication failed"
  | .invalidResponse => "invalid response"
  | .exception => "exception"

end Verdict

structure Outcome where
  verdict : Verdict
  elapsed : Duration
  status : Option Nat
  error : Option String
  validatedAt : Instant
  deriving DecidableEq, Inhabited

namespace Outcome

def isSuccess (o : Outcome) : Bool := o.verdict == .success

def success (now : Instant) (elapsed : Duration) (status : Nat) : Outcome :=
  ⟨.success, elapsed, some status, none, now⟩

def timeout (now : Instant) (elapsed : Duration) : Outcome :=
  ⟨.timeout, elapsed, none, some "Timeout", now⟩

def failed (now : Instant) (verdict : Verdict) (elapsed : Duration) (error : String) : Outcome :=
  ⟨verdict, elapsed, none, some error, now⟩

def withStatus (o : Outcome) (status : Nat) : Outcome := { o with status := some status }

def withElapsed (o : Outcome) (elapsed : Duration) : Outcome := { o with elapsed }

end Outcome
end ProxyLease
