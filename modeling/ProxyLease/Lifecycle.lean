/-!
# The life of a pooled proxy

A proxy is in one of seven states. Six of them are live; an expired proxy has
left the registry. The states are listed in the order in which reports name them.
-/

namespace ProxyLease

inductive Lifecycle where
  /-- Waits for a probe. -/
  | pending
  /-- A probe is in flight. -/
  | validating
  /-- Healthy and free to be handed out. -/
  | available
  /-- Held by a consumer. -/
  | inUse
  /-- Failed lately and rests before the next probe. -/
  | cooldown
  /-- Failed too often in a row. -/
  | disabled
  /-- Past its time to live and out of the registry. -/
  | expired
  deriving DecidableEq, Inhabited

namespace Lifecycle

def all : List Lifecycle :=
  [.pending, .validating, .available, .inUse, .cooldown, .disabled, .expired]

/-- The states a registered proxy can be in. -/
def live : List Lifecycle :=
  [.pending, .validating, .available, .inUse, .cooldown, .disabled]

theorem mem_live {s : Lifecycle} : s ∈ live ↔ s ≠ .expired := by cases s <;> simp [live]

def name : Lifecycle → String
  | .pending => "Pending"
  | .validating => "Validating"
  | .available => "Available"
  | .inUse => "InUse"
  | .cooldown => "Cooldown"
  | .disabled => "Disabled"
  | .expired => "Expired"

end Lifecycle
end ProxyLease
