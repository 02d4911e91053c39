import Mathlib.Algebra.Order.Ring.Nat
import Mathlib.Tactic.Common
import ProxyLease.Proofs.Url.Members
import ProxyLease.Url.IPv4

/-!
# Four decimal bytes

A name that ends in a number is read as a value below `2^32`, and the four decimal
bytes in which such a value is printed are read as the same value again.
-/

namespace ProxyLease.IPv4

/-- The decimal form of a byte is read as that byte: it has no leading zero. -/
theorem number?_toDigits {b : Nat} (h : b < 256) : number? (Nat.toDigits 10 b) = some b := by
  have every : ∀ b < 256, number? (Nat.toDigits 10 b) = some b := by decide +kernel
  exact every b h

theorem isDigit_of_mem_toDigits {n : Nat} {c : Char} (h : c ∈ Nat.toDigits 10 n) :
    c.isDigit = true :=
  Nat.isDigit_of_mem_toDigits (by decide) (by decide) h

theorem not_dot_of_mem_toDigits {n : Nat} {c : Char} (h : c ∈ Nat.toDigits 10 n) :
    (c == '.') = false := by
  have digit := isDigit_of_mem_toDigits h
  by_contra dot
  have : c = '.' := by simpa using dot
  subst this
  exact absurd digit (by decide)

theorem digit_or_dot_of_mem_text {v : Nat} {c : Char} (h : c ∈ text v) :
    c.isDigit = true ∨ c = '.' := by
  simp only [text, List.mem_append, List.mem_cons] at h
  rcases h with ((h | h | h) | h | h) | h | h
  · exact .inl (isDigit_of_mem_toDigits h)
  · exact .inr h
  · exact .inl (isDigit_of_mem_toDigits h)
  · exact .inr h
  · exact .inl (isDigit_of_mem_toDigits h)
  · exact .inr h
  · exact .inl (isDigit_of_mem_toDigits h)

theorem labels_text (v : Nat) :
    labels (text v) = [3, 2, 1, 0].map fun place =>
      Nat.toDigits 10 (v / Nat.pow 256 place % 256) := by
  have plain (n : Nat) : ∀ c ∈ Nat.toDigits 10 n, (c == '.') = false := fun c =>
    not_dot_of_mem_toDigits
  simp only [labels, text, List.append_assoc, List.cons_append, List.map_cons, List.map_nil]
  iterate 3 rw [Text.fields_append_cons (plain _) (by decide)]
  rw [Text.fields_eq_singleton (plain _)]

theorem isDigit_of_mem_labels_text {v : Nat} {label : List Char} (h : label ∈ labels (text v)) :
    ∀ c ∈ label, c.isDigit = true := by
  rw [labels_text] at h
  obtain ⟨place, -, rfl⟩ := List.mem_map.mp h
  exact fun c => isDigit_of_mem_toDigits

theorem significantLabels_text (v : Nat) : significantLabels (text v) = labels (text v) := by
  unfold significantLabels
  rw [labels_text]
  simp only [List.map_cons, List.map_nil, List.reverse_cons, List.reverse_nil, List.nil_append,
    List.cons_append]
  split
  · rename_i h
    exact absurd (List.cons.inj h).1 Nat.toDigits_ne_nil
  · rfl

theorem endsInNumber_text (v : Nat) : endsInNumber (text v) = true := by
  have digits : ∀ n, isDecimal (Nat.toDigits 10 n) = true := by
    intro n
    have : Nat.toDigits 10 n ≠ [] := Nat.toDigits_ne_nil
    simp only [isDecimal, bne_iff_ne, ne_eq, this, not_false_eq_true, Bool.and_eq_true,
      List.all_eq_true, true_and]
    exact fun c => isDigit_of_mem_toDigits
  simp [endsInNumber, significantLabels_text, labels_text, digits]

theorem parse?_text {v : Nat} (h : v < 256 ^ 4) : parse? (text v) = some v := by
  have byte : ∀ place, number? (Nat.toDigits 10 (v / Nat.pow 256 place % 256)) =
      some (v / Nat.pow 256 place % 256) :=
    fun place => number?_toDigits (Nat.mod_lt _ (by decide))
  have numbers : (labels (text v)).mapM number? =
      some ([3, 2, 1, 0].map fun place => v / Nat.pow 256 place % 256) := by
    rw [labels_text]
    simp only [List.map_cons, List.map_nil, List.mapM_cons, List.mapM_nil, byte]
    rfl
  have length : (labels (text v)).length = 4 := by rw [labels_text]; rfl
  have small : ∀ n, ¬255 < n % 256 := by omega
  simp only [parse?, significantLabels_text, length, numbers, Option.bind_eq_bind]
  simp [small, leadingBytes]
  omega

theorem leadingBytes_add_lt {bytes : List Nat} {place last : Nat}
    (hb : ∀ b ∈ bytes, b ≤ 255) (hl : bytes.length ≤ place)
    (hlast : last < 256 ^ (place + 1 - bytes.length)) :
    leadingBytes bytes place + last < 256 ^ (place + 1) := by
  induction bytes generalizing place with
  | nil => simpa [leadingBytes] using hlast
  | cons b rest ih =>
    obtain ⟨p, rfl⟩ : ∃ p, place = p + 1 := ⟨place - 1, by simp at hl; omega⟩
    have hrest : leadingBytes rest p + last < 256 ^ (p + 1) :=
      ih (fun c hc => hb c (by simp [hc])) (by simpa using hl)
        (by simpa [Nat.succ_sub_succ] using hlast)
    have hhead : b ≤ 255 := hb b (by simp)
    have top : b * 256 ^ (p + 1) ≤ 255 * 256 ^ (p + 1) := Nat.mul_le_mul_right _ hhead
    simp only [leadingBytes, Nat.pow_eq, Nat.add_sub_cancel]
    rw [Nat.pow_succ 256 (p + 1)]
    omega

theorem parse?_lt {name : List Char} {v : Nat} (h : parse? name = some v) : v < 256 ^ 4 := by
  simp only [parse?, Option.bind_eq_bind] at h
  split at h
  · cases h
  rename_i few
  obtain ⟨numbers, hn, h⟩ := Option.bind_eq_some_iff.mp h
  obtain ⟨last, hlast, h⟩ := Option.bind_eq_some_iff.mp h
  split at h
  · cases h
  rename_i small
  split at h
  · cases h
  rename_i fits
  obtain rfl := Option.some.inj h
  have length : numbers.length ≤ 4 := by
    have := (forall₂_of_mapM hn).length_eq
    omega
  have : numbers.dropLast.length ≤ 3 := by simp; omega
  exact leadingBytes_add_lt (by simpa using small) this (by simpa using fits)

end ProxyLease.IPv4
