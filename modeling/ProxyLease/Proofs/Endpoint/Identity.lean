import Mathlib.Data.List.Basic
import ProxyLease.Endpoint.Basic

/-!
# Identities of endpoints

An identity is written as host, colon and port. Digits hold no colon, so both parts can be
read off it again: one identity means one port, and one host but for the case of letters.
-/

namespace ProxyLease

/-- Nothing of a list is lost when a separator that does not occur again ends it. -/
theorem append_cons_inj {c : Char} {heads heads' tails tails' : List Char} (htails : c ∉ tails)
    (htails' : c ∉ tails') (heq : heads ++ c :: tails = heads' ++ c :: tails') :
    heads = heads' ∧ tails = tails' := by
  rcases List.append_eq_append_iff.mp heq with ⟨mid, rfl, hmid⟩ | ⟨mid, rfl, hmid⟩
  · cases mid with
    | nil => simpa using hmid
    | cons x mid =>
      obtain ⟨-, rfl⟩ := List.cons.inj hmid
      simp at htails
  · cases mid with
    | nil => simpa [eq_comm] using hmid
    | cons x mid =>
      obtain ⟨-, rfl⟩ := List.cons.inj hmid
      simp at htails'

namespace Endpoint

variable {a b : Endpoint}

/-- Endpoints of one proxy: the same port, and the same host but for the case of ASCII
letters. -/
def SameProxy (a b : Endpoint) : Prop :=
  a.host.toList.map Char.toLower = b.host.toList.map Char.toLower ∧ a.port = b.port

instance : Decidable (a.SameProxy b) := inferInstanceAs (Decidable (_ ∧ _))

theorem colon_not_mem_digits (n : Nat) : ':' ∉ Nat.toDigits 10 n := by
  intro hmem
  have hdigit := Nat.isDigit_of_mem_toDigits (by decide) (by decide) hmem
  exact absurd hdigit (by decide)

theorem id_eq_iff : a.id = b.id ↔ a.SameProxy b := by
  constructor
  · intro hid
    obtain ⟨hhost, hport⟩ := append_cons_inj (colon_not_mem_digits _) (colon_not_mem_digits _)
      (String.ofList_injective hid)
    refine ⟨hhost, ?_⟩
    calc a.port = Nat.ofDigitChars 10 (Nat.toDigits 10 a.port) 0 :=
          Nat.ofDigitChars_ten_toDigits.symm
      _ = Nat.ofDigitChars 10 (Nat.toDigits 10 b.port) 0 := by rw [hport]
      _ = b.port := Nat.ofDigitChars_ten_toDigits
  · rintro ⟨hhost, hport⟩
    simp only [id, hhost, hport]

@[simp] theorem id_withDefaultSource (e : Endpoint) (name : String) :
    (e.withDefaultSource name).id = e.id := rfl

@[simp] theorem withDefaultSource_withDefaultSource (e : Endpoint) (name other : String) :
    (e.withDefaultSource name).withDefaultSource other = e.withDefaultSource name := rfl

end Endpoint
end ProxyLease
