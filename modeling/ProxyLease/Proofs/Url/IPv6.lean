import Mathlib.Algebra.Order.Ring.Nat
import Mathlib.Data.List.TakeWhile
import Mathlib.Tactic.Common
import ProxyLease.Proofs.Url.Members
import ProxyLease.Url.IPv6

/-!
# Eight pieces

What is read from a text are always eight pieces of 16 bits, and eight such pieces
are read back from their printed form: a gap that stands for the longest run of
zeros is filled with as many zeros as it took.
-/

namespace ProxyLease.IPv6

/-! ## Hexadecimal digits -/

theorem hexValue?_lt {c : Char} {d : Nat} (h : Percent.hexValue? c = some d) : d < 16 := by
  unfold Percent.hexValue? at h
  have codes : ∀ a b : Char, a ≤ b → a.toNat ≤ b.toNat := fun a b h => h
  split at h
  · rename_i hc
    have := codes _ _ hc.2
    have nine : '9'.toNat = 0x39 := rfl
    grind
  · split at h
    · rename_i hc
      have := codes _ _ hc.2
      have last : 'F'.toNat = 0x46 := rfl
      grind
    · split at h
      · rename_i hc
        have := codes _ _ hc.2
        have last : 'f'.toNat = 0x66 := rfl
        grind
      · cases h

theorem takeHex_lt (limit value : Nat) (cs : List Char) :
    (takeHex limit value cs).1 < (value + 1) * 16 ^ limit := by
  induction limit generalizing value cs with
  | zero => simp [takeHex]
  | succ limit ih =>
    have less : value < (value + 1) * 16 ^ (limit + 1) :=
      Nat.lt_of_lt_of_le (Nat.lt_succ_self value)
        (Nat.le_mul_of_pos_right _ (Nat.pow_pos (by decide)))
    cases cs with
    | nil => exact less
    | cons c rest =>
      unfold takeHex
      split
      · rename_i d hd
        have digit := hexValue?_lt hd
        calc (takeHex limit (value * 16 + d) rest).1
            < (value * 16 + d + 1) * 16 ^ limit := ih _ _
          _ ≤ ((value + 1) * 16) * 16 ^ limit := Nat.mul_le_mul_right _ (by omega)
          _ = (value + 1) * 16 ^ (limit + 1) := by
            rw [Nat.pow_succ, Nat.mul_assoc, Nat.mul_comm 16]
      · exact less

theorem hexValue?_digitChar {d : Nat} (h : d < 16) :
    Percent.hexValue? (Nat.digitChar d) = some d := by
  have every : ∀ d < 16, Percent.hexValue? (Nat.digitChar d) = some d := by decide
  exact every d h

theorem takeHex_toDigits {n limit : Nat} (h : (Nat.toDigits 16 n).length ≤ limit)
    (rest : List Char) :
    takeHex limit 0 (Nat.toDigits 16 n ++ rest) =
      takeHex (limit - (Nat.toDigits 16 n).length) n rest := by
  induction n using Nat.strongRecOn generalizing rest with
  | ind n ih =>
    rw [Nat.toDigits_eq_if (by decide)] at h ⊢
    split
    · rename_i small
      obtain ⟨k, rfl⟩ : ∃ k, limit = k + 1 := by
        simp only [small, if_true, List.length_singleton] at h
        exact ⟨limit - 1, by omega⟩
      simp [takeHex, hexValue?_digitChar small]
    · rename_i large
      simp only [large, if_false, List.length_append, List.length_singleton] at h ⊢
      have front := ih (n / 16) (by omega) (by omega) (Nat.digitChar (n % 16) :: rest)
      obtain ⟨k, hk⟩ : ∃ k, limit - (Nat.toDigits 16 (n / 16)).length = k + 1 :=
        ⟨limit - (Nat.toDigits 16 (n / 16)).length - 1, by omega⟩
      have digit := hexValue?_digitChar (Nat.mod_lt n (by decide : 16 > 0))
      rw [List.append_assoc, List.singleton_append, front, hk]
      simp only [takeHex, digit]
      congr 1
      · omega
      · omega

/-- Four digits hold a piece, and no more are taken before a colon or the end. -/
theorem takeHex_hexText {v : Nat} (hv : v < 65536) (rest : List Char)
    (hr : rest = [] ∨ ∃ tail, rest = ':' :: tail) :
    takeHex 4 0 (hexText v ++ rest) = (v, rest) := by
  have length : (Nat.toDigits 16 v).length ≤ 4 :=
    (Nat.length_toDigits_le_iff (by decide) (by decide)).mpr hv
  rw [hexText, takeHex_toDigits length]
  rcases hr with rfl | ⟨tail, rfl⟩
  · cases 4 - (Nat.toDigits 16 v).length <;> rfl
  · cases 4 - (Nat.toDigits 16 v).length with
    | zero => rfl
    | succ k =>
      have colon : Percent.hexValue? ':' = none := by decide
      simp [takeHex, colon]

/-! ## What is read are eight pieces -/

namespace Pieces

@[simp] theorem count_push (p : Pieces) (value : Nat) : (p.push value).count = p.count + 1 := by
  rcases p with ⟨before, _ | after⟩ <;> simp [push, count]
  omega

/-- At most eight pieces were read, and each fits into 16 bits. -/
structure Fits (p : Pieces) : Prop where
  count_le : p.count ≤ 8
  before : ∀ v ∈ p.before, v < 65536
  after : ∀ list ∈ p.after, ∀ v ∈ list, v < 65536

theorem Fits.push {p : Pieces} (h : p.Fits) (room : p.count < 8) {value : Nat}
    (hv : value < 65536) : (p.push value).Fits where
  count_le := by simp; omega
  before := by
    have := h.before
    rcases p with ⟨before, _ | after⟩ <;> simp_all [Pieces.push]
  after := by
    have := h.after
    rcases p with ⟨before, _ | after⟩ <;> simp_all [Pieces.push]

theorem Fits.open {p q : Pieces} (h : p.Fits) (room : p.count < 8) (ho : p.open? = some q) :
    q.Fits := by
  rcases p with ⟨before, _ | after⟩
  · obtain rfl : ⟨0 :: before, some []⟩ = q := by simpa [open?] using ho
    refine ⟨?_, ?_, by simp⟩
    · simp [count] at room ⊢
      omega
    · simpa using h.before
  · simp [open?] at ho

theorem Fits.close {p : Pieces} (h : p.Fits) {list : List Nat} (hc : p.close? = some list) :
    list.length = 8 ∧ ∀ v ∈ list, v < 65536 := by
  rcases p with ⟨before, _ | after⟩
  · simp only [close?] at hc
    split at hc
    · rename_i full
      obtain rfl := Option.some.inj hc
      exact ⟨by simpa using full, by simpa using h.before⟩
    · cases hc
  · obtain rfl : before.reverse ++ List.replicate (8 - (Pieces.mk before (some after)).count) 0 ++
        after.reverse = list := by simpa [close?] using hc
    have few := h.count_le
    refine ⟨?_, ?_⟩
    · simp [count] at few ⊢
      omega
    · intro v hv
      simp only [List.mem_append, List.mem_reverse, List.mem_replicate] at hv
      rcases hv with (hv | ⟨-, rfl⟩) | hv
      · exact h.before v hv
      · decide
      · exact h.after _ rfl v hv

end Pieces

theorem byte?_le {cs : List Char} {v : Nat} (h : byte? cs = some v) : v ≤ 255 := by
  unfold byte? at h
  split at h
  · cases h
  · obtain rfl := Option.some.inj h
    decide
  · cases h
  · simp only [Option.ite_none_right_eq_some, Option.some.injEq] at h
    obtain ⟨-, fits, rfl⟩ := h
    exact fits

theorem dotted?_lt {cs : List Char} {high low : Nat} (h : dotted? cs = some (high, low)) :
    high < 65536 ∧ low < 65536 := by
  unfold dotted? at h
  split at h
  · rename_i a b c d read
    obtain ⟨rfl, rfl⟩ := Prod.mk.inj (Option.some.inj h)
    have small : ∀ v ∈ [a, b, c, d], v ≤ 255 := by
      intro v hv
      obtain ⟨_, -, hb⟩ := exists_of_mem_mapM read hv
      exact byte?_le hb
    simp only [List.forall_mem_cons] at small
    omega
  · cases h

/-- Every round of the reading keeps what was read within bounds. -/
theorem pieces?_fits {fuel : Nat} {p q : Pieces} {cs : List Char} (h : p.Fits)
    (hp : pieces? fuel p cs = some q) : q.Fits := by
  have room {p : Pieces} (h : p.Fits) (full : ¬p.count = 8) : p.count < 8 := by
    have := h.count_le
    omega
  have taken {cs rest : List Char} {value : Nat} (hx : takeHex 4 0 cs = (value, rest)) :
      value < 65536 := by
    have := takeHex_lt 4 0 cs
    rw [hx] at this
    simpa using this
  fun_induction pieces? fuel p cs with
  | case1 => exact Option.some.inj hp ▸ h
  | case4 fuel p rest full ih =>
    obtain ⟨r, opened, hr⟩ := Option.bind_eq_some_iff.mp hp
    exact ih r (h.open (room h full) opened) hr
  | case5 fuel p c rest full colon value hx =>
    exact Option.some.inj hp ▸ h.push (room h full) (taken hx)
  | case6 fuel p c rest full colon value d tail hx ih =>
    exact ih (h.push (room h full) (taken hx)) hp
  | case8 fuel p c rest full colon value tail hx late =>
    obtain ⟨⟨high, low⟩, read, rfl⟩ := Option.map_eq_some_iff.mp hp
    obtain ⟨hhigh, hlow⟩ := dotted?_lt read
    have fits := h.push (room h full) hhigh
    exact fits.push (by simp; omega) hlow
  | _ => cases hp

theorem parse?_fits {cs : List Char} {pieces : List Nat} (h : parse? cs = some pieces) :
    pieces.length = 8 ∧ ∀ v ∈ pieces, v < 65536 := by
  unfold parse? at h
  split at h
  · cases h
  · cases h
  · obtain ⟨p, hp, closed⟩ := Option.bind_eq_some_iff.mp h
    have start : Pieces.Fits ⟨[0], some []⟩ := ⟨by decide, by decide, by simp⟩
    exact (pieces?_fits start hp).close closed
  · cases h
  · obtain ⟨p, hp, closed⟩ := Option.bind_eq_some_iff.mp h
    have start : Pieces.Fits ⟨[], none⟩ := ⟨by decide, by simp, by simp⟩
    exact (pieces?_fits start hp).close closed

/-! ## Eight pieces are read back -/

theorem exists_digit_of_mem_hexText {v : Nat} {c : Char} (h : c ∈ hexText v) :
    ∃ d < 16, c = Nat.digitChar d := by
  unfold hexText at h
  induction v using Nat.strongRecOn with
  | ind v ih =>
    rw [Nat.toDigits_eq_if (by decide)] at h
    split at h
    · rename_i small
      exact ⟨v, small, by simpa using h⟩
    · rename_i large
      rcases List.mem_append.mp h with h | h
      · exact ih (v / 16) (by omega) h
      · exact ⟨v % 16, Nat.mod_lt _ (by decide), by simpa using h⟩

theorem ne_colon_of_mem_hexText {v : Nat} {c : Char} (h : c ∈ hexText v) : c ≠ ':' := by
  obtain ⟨d, hd, rfl⟩ := exists_digit_of_mem_hexText h
  have every : ∀ d < 16, Nat.digitChar d ≠ ':' := by decide
  exact every d hd

theorem hexText_ne_nil (v : Nat) : hexText v ≠ [] := Nat.toDigits_ne_nil

@[simp] theorem joined_nil : joined [] = [] := rfl

@[simp] theorem joined_singleton (v : Nat) : joined [v] = hexText v := by simp [joined]

theorem joined_cons_cons (v w : Nat) (rest : List Nat) :
    joined (v :: w :: rest) = hexText v ++ ':' :: joined (w :: rest) := by
  simp [joined]

theorem joined_ne_nil (v : Nat) (rest : List Nat) : joined (v :: rest) ≠ [] := by
  cases rest with
  | nil => simpa using hexText_ne_nil v
  | cons w rest => simp [joined_cons_cons]

theorem colon_or_digit_of_mem_joined {pieces : List Nat} {c : Char} (h : c ∈ joined pieces) :
    c = ':' ∨ ∃ d < 16, c = Nat.digitChar d := by
  obtain ⟨text, ht, hc⟩ := List.mem_flatten.mp h
  rcases eq_or_mem_of_mem_intersperse ht with rfl | ht
  · exact .inl (by simpa using hc)
  · obtain ⟨v, -, rfl⟩ := List.mem_map.mp ht
    exact .inr (exists_digit_of_mem_hexText hc)

theorem colon_or_digit_of_mem_text {pieces : List Nat} {c : Char} (h : c ∈ text pieces) :
    c = ':' ∨ ∃ d < 16, c = Nat.digitChar d := by
  unfold text at h
  split at h
  · exact colon_or_digit_of_mem_joined h
  · simp only [List.mem_append, List.mem_cons] at h
    rcases h with h | rfl | rfl | h
    · exact colon_or_digit_of_mem_joined h
    · exact .inl rfl
    · exact .inl rfl
    · exact colon_or_digit_of_mem_joined h

section Round

variable {fuel : Nat} {p : Pieces} {v : Nat}

theorem pieces?_hexText (room : p.count < 8) (hv : v < 65536) :
    pieces? (fuel + 1) p (hexText v) = some (p.push v) := by
  have taken := takeHex_hexText hv [] (.inl rfl)
  rw [List.append_nil] at taken
  cases h : hexText v with
  | nil => exact absurd h (hexText_ne_nil v)
  | cons c tail =>
    have colon : c ≠ ':' := ne_colon_of_mem_hexText (v := v) (by simp [h])
    have full : p.count ≠ 8 := by omega
    rw [h] at taken
    simp [pieces?, full, colon, taken]

theorem pieces?_hexText_colon (room : p.count < 8) (hv : v < 65536) (d : Char)
    (tail : List Char) :
    pieces? (fuel + 1) p (hexText v ++ ':' :: d :: tail) = pieces? fuel (p.push v) (d :: tail) := by
  have taken := takeHex_hexText hv (':' :: d :: tail) (.inr ⟨_, rfl⟩)
  cases h : hexText v with
  | nil => exact absurd h (hexText_ne_nil v)
  | cons c front =>
    have colon : c ≠ ':' := ne_colon_of_mem_hexText (v := v) (by simp [h])
    have full : p.count ≠ 8 := by omega
    rw [h, List.cons_append] at taken
    simp [pieces?, full, colon, taken]

theorem pieces?_colon {before : List Nat} (room : before.length < 8) (tail : List Char) :
    pieces? (fuel + 1) ⟨before, none⟩ (':' :: tail) = pieces? fuel ⟨0 :: before, some []⟩ tail := by
  have full : (Pieces.mk before none).count ≠ 8 := by
    simp [Pieces.count]
    omega
  simp [pieces?, full, Pieces.open?]

end Round

theorem Pieces.foldl_push (pieces before : List Nat) :
    pieces.foldl Pieces.push ⟨before, none⟩ = ⟨pieces.reverse ++ before, none⟩ := by
  induction pieces generalizing before with
  | nil => rfl
  | cons v rest ih => simp [Pieces.push, ih]

theorem Pieces.foldl_push_gap (pieces before after : List Nat) :
    pieces.foldl Pieces.push ⟨before, some after⟩ = ⟨before, some (pieces.reverse ++ after)⟩ := by
  induction pieces generalizing after with
  | nil => rfl
  | cons v rest ih => simp [Pieces.push, ih]

theorem pieces?_joined {pieces : List Nat} {p : Pieces} {fuel : Nat}
    (small : ∀ v ∈ pieces, v < 65536) (room : p.count + pieces.length ≤ 8)
    (enough : (joined pieces).length ≤ fuel) :
    pieces? fuel p (joined pieces) = some (pieces.foldl Pieces.push p) := by
  induction pieces generalizing p fuel with
  | nil => simp [pieces?]
  | cons v rest ih =>
    have hv : v < 65536 := small v (by simp)
    have hroom : p.count < 8 := by simp at room; omega
    obtain ⟨fuel, rfl⟩ : ∃ k, fuel = k + 1 := by
      have := List.length_pos_of_ne_nil (joined_ne_nil v rest)
      exact ⟨fuel - 1, by omega⟩
    cases rest with
    | nil => simpa using pieces?_hexText hroom hv
    | cons w rest =>
      rw [joined_cons_cons] at enough ⊢
      obtain ⟨d, tail, hj⟩ := List.exists_cons_of_ne_nil (joined_ne_nil w rest)
      rw [hj, pieces?_hexText_colon hroom hv, ← hj]
      have step : pieces? fuel (p.push v) (joined (w :: rest)) =
          some ((w :: rest).foldl Pieces.push (p.push v)) :=
        ih (fun u hu => small u (by simp [hu])) (by simp at room ⊢; omega)
          (by simp at enough; omega)
      simpa using step

/-- Pieces on both sides of a gap. -/
theorem pieces?_joined_gap {v : Nat} {front back : List Nat} (before : List Nat) {fuel : Nat}
    (small : ∀ u ∈ v :: front, u < 65536) (smallBack : ∀ u ∈ back, u < 65536)
    (room : before.length + (v :: front).length + 1 + back.length ≤ 8)
    (enough : (joined (v :: front) ++ ':' :: ':' :: joined back).length ≤ fuel) :
    pieces? fuel ⟨before, none⟩ (joined (v :: front) ++ ':' :: ':' :: joined back) =
      some ⟨0 :: ((v :: front).reverse ++ before), some back.reverse⟩ := by
  have hv : v < 65536 := small v (by simp)
  have hroom : (Pieces.mk before none).count < 8 := by
    simp [Pieces.count] at room ⊢
    omega
  have digits := List.length_pos_of_ne_nil (hexText_ne_nil v)
  induction front generalizing v before fuel with
  | nil =>
    simp at enough room
    obtain ⟨fuel, rfl⟩ : ∃ k, fuel = k + 2 := ⟨fuel - 2, by omega⟩
    have filled : pieces? fuel ⟨0 :: v :: before, some []⟩ (joined back) =
        some (back.foldl Pieces.push ⟨0 :: v :: before, some []⟩) :=
      pieces?_joined smallBack (by simp [Pieces.count]; omega) (by omega)
    calc pieces? (fuel + 2) ⟨before, none⟩ (joined [v] ++ ':' :: ':' :: joined back)
        = pieces? (fuel + 1) ⟨v :: before, none⟩ (':' :: joined back) := by
          rw [joined_singleton, pieces?_hexText_colon hroom hv]
          rfl
      _ = pieces? fuel ⟨0 :: v :: before, some []⟩ (joined back) :=
          pieces?_colon (by simp; omega) _
      _ = some ⟨0 :: ([v].reverse ++ before), some back.reverse⟩ := by
          rw [filled, Pieces.foldl_push_gap]
          simp
  | cons w rest ih =>
    rw [joined_cons_cons, List.append_assoc, List.cons_append] at enough ⊢
    obtain ⟨fuel, rfl⟩ : ∃ k, fuel = k + 1 := ⟨fuel - 1, by simp at enough; omega⟩
    obtain ⟨d, tail, hj⟩ := List.exists_cons_of_ne_nil (joined_ne_nil w rest)
    have step : pieces? fuel ⟨v :: before, none⟩ (joined (w :: rest) ++ ':' :: ':' :: joined back) =
        some ⟨0 :: ((w :: rest).reverse ++ v :: before), some back.reverse⟩ :=
      ih (v :: before) (fun u hu => small u (by simp [List.mem_cons.mp hu]))
      (by simp at room ⊢; omega) (by simp at enough ⊢; omega) (small w (by simp))
      (by simp [Pieces.count] at room ⊢; omega) (List.length_pos_of_ne_nil (hexText_ne_nil w))
    rw [hj] at step ⊢
    rw [List.cons_append, pieces?_hexText_colon hroom hv, ← List.cons_append]
    simpa [Pieces.push] using step

/-- The first longest run of zeros stands between what `longestRun` leaves on its sides. -/
theorem longestRun_spec {pieces : List Nat} {offset start n : Nat}
    (h : longestRun pieces offset = some (start, n)) :
    2 ≤ n ∧ ∃ front back, pieces = front ++ List.replicate n 0 ++ back ∧
      start = offset + front.length := by
  induction pieces generalizing offset start n with
  | nil => cases h
  | cons v rest ih =>
    have here : v :: rest = List.replicate (zeroRun (v :: rest)) 0 ++
        (v :: rest).dropWhile (· == 0) := by
      have zeros : (v :: rest).takeWhile (· == 0) = List.replicate (zeroRun (v :: rest)) 0 :=
        List.eq_replicate_iff.mpr ⟨rfl, fun u hu => by simpa using List.mem_takeWhile_imp hu⟩
      rw [← zeros, List.takeWhile_append_dropWhile]
    unfold longestRun at h
    split at h
    · rename_i s k found
      obtain ⟨two, front, back, hrest, hs⟩ := ih found
      dsimp only at h
      split at h
      · rename_i longer
        obtain ⟨rfl, rfl⟩ := Prod.mk.inj (Option.some.inj h)
        exact ⟨by omega, [], _, here, rfl⟩
      · obtain ⟨rfl, rfl⟩ := Prod.mk.inj (Option.some.inj h)
        exact ⟨two, v :: front, back, by simp [hrest], by simp; omega⟩
    · dsimp only at h
      split at h
      · rename_i two
        obtain ⟨rfl, rfl⟩ := Prod.mk.inj (Option.some.inj h)
        exact ⟨two, [], _, here, rfl⟩
      · cases h

/-- The gap takes up as many zeros as were left out for it. -/
theorem close?_gap {front back : List Nat} {n : Nat} (hn : 2 ≤ n)
    (eight : front.length + n + back.length = 8) :
    Pieces.close? ⟨0 :: front.reverse, some back.reverse⟩ =
      some (front ++ List.replicate n 0 ++ back) := by
  obtain ⟨n, rfl⟩ : ∃ k, n = k + 1 := ⟨n - 1, by omega⟩
  have left : 8 - (Pieces.mk (0 :: front.reverse) (some back.reverse)).count = n := by
    simp [Pieces.count]
    omega
  simp [Pieces.close?, left, List.replicate_succ]

theorem parse?_joined_colon (v : Nat) (front : List Nat) (tail : List Char) :
    let cs := joined (v :: front) ++ ':' :: tail
    parse? cs = (pieces? cs.length ⟨[], none⟩ cs).bind Pieces.close? := by
  intro cs
  obtain ⟨c, rest, digits⟩ := List.exists_cons_of_ne_nil (hexText_ne_nil v)
  have colon : c ≠ ':' := ne_colon_of_mem_hexText (v := v) (by simp [digits])
  obtain ⟨d, rest, hcs⟩ : ∃ d rest, cs = c :: d :: rest := by
    cases front <;> cases rest <;> simp [cs, joined_cons_cons, digits]
  rw [hcs]
  unfold parse?
  split <;> simp_all

theorem parse?_text {pieces : List Nat} (eight : pieces.length = 8)
    (small : ∀ v ∈ pieces, v < 65536) : parse? (text pieces) = some pieces := by
  unfold text
  split
  · obtain ⟨v, w, rest, rfl⟩ : ∃ v w rest, pieces = v :: w :: rest := by
      match pieces, eight with
      | v :: w :: rest, _ => exact ⟨v, w, rest, rfl⟩
    have read := pieces?_joined (p := ⟨[], none⟩) small (by simp [Pieces.count] at eight ⊢; omega)
      (Nat.le_refl _)
    rw [Pieces.foldl_push, List.append_nil] at read
    have begun := parse?_joined_colon v [] (joined (w :: rest))
    rw [joined_singleton, ← joined_cons_cons] at begun
    rw [begun, read]
    simpa [Pieces.close?] using eight
  · rename_i start n found
    obtain ⟨two, front, back, rfl, hs⟩ := longestRun_spec found
    obtain rfl : start = front.length := by simpa using hs
    have sum : front.length + n + back.length = 8 := by simpa [Nat.add_assoc] using eight
    have hfront : (front ++ List.replicate n 0 ++ back).take front.length = front := by simp
    have hback : (front ++ List.replicate n 0 ++ back).drop (front.length + n) = back := by simp
    rw [hfront, hback]
    have smallBack : ∀ v ∈ back, v < 65536 := fun v hv => small v (by simp [hv])
    have closed := close?_gap two sum
    cases front with
    | nil =>
      have read := pieces?_joined (p := ⟨[0], some []⟩) smallBack
        (by simp [Pieces.count] at sum ⊢; omega) (Nat.le_refl _)
      rw [Pieces.foldl_push_gap, List.append_nil] at read
      simp only [joined_nil, List.nil_append, parse?, read]
      exact closed
    | cons v front =>
      have smallFront : ∀ u ∈ v :: front, u < 65536 := fun u hu => small u (by
        rw [List.append_assoc]
        exact List.mem_append_left _ hu)
      have read := pieces?_joined_gap [] smallFront smallBack
        (by simp at sum ⊢; omega) (Nat.le_refl _)
      rw [parse?_joined_colon, read, List.append_nil]
      exact closed

end ProxyLease.IPv6
