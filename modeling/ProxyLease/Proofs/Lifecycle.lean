import Mathlib.Tactic.Common
import ProxyLease.Lifecycle

/-!
# Courses of life

From every state a proxy moves to some states and to no others. A course is a chain of
such moves. Nothing follows in it once the proxy is disabled or expired.
-/

namespace ProxyLease.Lifecycle

def next : Lifecycle → List Lifecycle
  | .pending => [.validating]
  | .validating => [.available, .cooldown, .disabled, .expired]
  | .available => [.inUse, .pending]
  | .inUse => [.available, .cooldown, .disabled]
  | .cooldown => [.pending]
  | .disabled | .expired => []

theorem ne_of_mem_next {s t : Lifecycle} (hnext : t ∈ s.next) : s ≠ t := by
  cases s <;> cases t <;> simp [next] at hnext ⊢

/-- Moves that lead from one state to another, each from where the last one ended. -/
inductive Course : Lifecycle → List (Lifecycle × Lifecycle) → Lifecycle → Prop
  | nil (s : Lifecycle) : Course s [] s
  | cons {s t u : Lifecycle} {rest : List (Lifecycle × Lifecycle)} (hnext : t ∈ s.next)
      (hrest : Course t rest u) : Course s ((s, t) :: rest) u

namespace Course

variable {s t u : Lifecycle} {path more : List (Lifecycle × Lifecycle)}

theorem append (hp : Course s path t) (hm : Course t more u) : Course s (path ++ more) u := by
  induction hp with
  | nil => exact hm
  | cons hnext _ ih => exact .cons hnext (ih hm)

theorem snoc (hp : Course s path t) (hnext : u ∈ t.next) : Course s (path ++ [(t, u)]) u :=
  hp.append (.cons hnext (.nil u))

theorem split : ∀ {s : Lifecycle} {path : List (Lifecycle × Lifecycle)},
    Course s (path ++ more) u → ∃ t, Course s path t ∧ Course t more u
  | s, [], hc => ⟨s, .nil s, hc⟩
  | _, _ :: _, .cons hnext hrest => by
    obtain ⟨t, hpath, hmore⟩ := split hrest
    exact ⟨t, .cons hnext hpath, hmore⟩

theorem eq_nil_of_final {a b : Lifecycle} (hc : Course s (path ++ (a, b) :: more) u)
    (hb : b.next = []) : more = [] := by
  obtain ⟨_, _, hsplit⟩ := hc.split
  cases hsplit with
  | cons _ hrest =>
    cases hrest with
    | nil => rfl
    | cons hnext => rw [hb] at hnext; cases hnext

end Course
end ProxyLease.Lifecycle
