import Mathlib.Data.List.Infix
import Mathlib.Data.List.TakeWhile
import Mathlib.Tactic.Common
import ProxyLease.Endpoint.Listing
import ProxyLease.Proofs.Text.Lines
import ProxyLease.Proofs.Url.Members

/-!
# Lines of host and port

Every line of a listing is read on its own, whichever line end follows it. A line without
`://` names an endpoint exactly if it has the form `host:port`: blanks around it and around
its colon do not count, and the port is a decimal number of 16 bits, which may have leading
zeros and a plus sign.
-/

namespace ProxyLease.Listing

/-! ## Ports -/

/-- A port as it may be written: one or more decimal digits with a value of 16 bits, which a
plus sign may precede. -/
def WritesPort (text : List Char) (port : Nat) : Prop :=
  ∃ digits, (text = digits ∨ text = '+' :: digits) ∧ digits ≠ [] ∧
    (∀ c ∈ digits, c.isDigit = true) ∧ Nat.ofDigitChars 10 digits 0 = port ∧ port ≤ 65535

theorem foldl_eq_ofDigitChars (digits : List Char) :
    digits.foldl (fun total c => total * 10 + (c.toNat - 0x30)) 0 =
      Nat.ofDigitChars 10 digits 0 := by
  have step : (fun total (c : Char) => total * 10 + (c.toNat - 0x30)) =
      fun total c => 10 * total + (c.toNat - '0'.toNat) := by
    funext total c
    rw [Nat.mul_comm]
    rfl
  rw [step]
  rfl

/-- Digits are read as their value if it has 16 bits, and a plus sign before them is passed over. -/
theorem port?_of_digits {text digits : List Char} (form : text = digits ∨ text = '+' :: digits)
    (some : digits ≠ []) (hd : ∀ c ∈ digits, c.isDigit = true)
    (fits : Nat.ofDigitChars 10 digits 0 ≤ 65535) :
    port? text = .some (Nat.ofDigitChars 10 digits 0) := by
  have fits : Nat.ofDigitChars 10 digits 0 < 65536 := by omega
  have digit : digits.all Char.isDigit = true := List.all_eq_true.mpr hd
  unfold port?
  simp only [foldl_eq_ofDigitChars]
  rcases form with rfl | rfl
  · split
    · exact absurd (hd '+' (by simp)) (by decide)
    · simp [some, digit, fits]
  · simp [some, digit, fits]

theorem port?_eq_some_iff {text : List Char} {port : Nat} :
    port? text = some port ↔ WritesPort text port := by
  constructor
  · intro h
    unfold port? at h
    simp only [Option.ite_none_right_eq_some, Option.some.injEq, Bool.and_eq_true, bne_iff_ne,
      List.all_eq_true, foldl_eq_ofDigitChars] at h
    obtain ⟨⟨some, digits⟩, fits, value⟩ := h
    refine ⟨_, ?_, some, digits, value, by omega⟩
    split
    · exact .inr rfl
    · exact .inl rfl
  · rintro ⟨digits, form, some, hd, rfl, fits⟩
    exact port?_of_digits form some hd fits

/-! ## Lines -/

theorem hasSchemeMark_iff {line : List Char} :
    hasSchemeMark line = true ↔ "://".toList <:+: line := by
  induction line with
  | nil => decide
  | cons c rest ih =>
    rw [hasSchemeMark, Bool.or_eq_true, ih, beq_iff_eq, List.infix_cons_iff,
      List.prefix_iff_eq_take]
    exact or_congr_left eq_comm

theorem hasSchemeMark_trim (line : List Char) :
    hasSchemeMark (Text.trim line) = hasSchemeMark line := by
  have solid : ∀ c ∈ "://".toList, Text.isBlank c = false := forall_mem_of_all (by decide)
  rw [Bool.eq_iff_iff, hasSchemeMark_iff, hasSchemeMark_iff,
    Text.infix_trim_iff (by decide) solid]

theorem bareEndpoint?_eq_some_iff {fallback : Transport} {line : List Char} {e : Endpoint} :
    bareEndpoint? fallback line = some e ↔
      ∃ before after port, line = before ++ ':' :: after ∧ before ≠ [] ∧ ':' ∉ before ∧
        ':' ∉ after ∧ WritesPort (Text.trim after) port ∧
          e = .plain (String.ofList (Text.trim before)) port fallback := by
  constructor
  · intro h
    unfold bareEndpoint? at h
    dsimp only at h
    split at h
    · rename_i mark after cut
      split at h
      · cases h
      · rename_i form
        obtain ⟨some, colon⟩ := not_or.mp form
        obtain ⟨port, read, rfl⟩ := Option.map_eq_some_iff.mp h
        have whole := List.takeWhile_append_dropWhile (p := (· != ':')) (l := line)
        have first := List.head?_dropWhile_not (· != ':') line
        obtain rfl : mark = ':' := by simpa [cut] using first
        rw [cut] at whole
        refine ⟨line.takeWhile (· != ':'), after, port, whole.symm, some, ?_, colon,
          port?_eq_some_iff.mp read, rfl⟩
        exact fun inside => by simpa using List.mem_takeWhile_imp inside
    · cases h
  · rintro ⟨before, after, port, rfl, some, outside, colon, written, rfl⟩
    have host : ∀ c ∈ before, (c != ':') = true := by
      intro c hc
      rw [bne_iff_ne]
      rintro rfl
      exact outside hc
    unfold bareEndpoint?
    rw [List.takeWhile_append_of_pos host, List.dropWhile_append_of_pos host]
    simp [some, colon, port?_eq_some_iff.mpr written]

/-- A line in the form `host:port`: when it is trimmed it is no comment, holds one colon, and has
something before the colon and a port after it. Blanks around the colon do not count. -/
def IsBare (line host : List Char) (port : Nat) : Prop :=
  (Text.trim line).head? ≠ some '#' ∧
    ∃ before after, Text.trim line = before ++ ':' :: after ∧ before ≠ [] ∧ ':' ∉ before ∧
      ':' ∉ after ∧ host = Text.trim before ∧ WritesPort (Text.trim after) port

/-- Without `://` a line names an endpoint exactly if it is bare. -/
theorem endpoint?_eq_some_iff {fallback : Transport} {line : List Char}
    (unmarked : ¬"://".toList <:+: line) {e : Endpoint} :
    endpoint? fallback line = some e ↔
      ∃ host port, IsBare line host port ∧ e = .plain (String.ofList host) port fallback := by
  have mark : hasSchemeMark (Text.trim line) = false := by
    rwa [← Bool.not_eq_true, hasSchemeMark_trim, hasSchemeMark_iff]
  unfold endpoint?
  dsimp only
  rw [mark]
  split
  · rename_i skipped
    simp only [false_iff, reduceCtorEq]
    rintro ⟨host, port, ⟨comment, before, after, form, -⟩, -⟩
    rcases skipped with empty | sharp
    · simp [empty] at form
    · exact comment sharp
  · rename_i kept
    rw [if_neg Bool.false_ne_true, bareEndpoint?_eq_some_iff]
    constructor
    · rintro ⟨before, after, port, form, some, outside, colon, written, rfl⟩
      exact ⟨_, port, ⟨(not_or.mp kept).2, before, after, form, some, outside, colon, rfl, written⟩,
        rfl⟩
    · rintro ⟨_, port, ⟨-, before, after, form, some, outside, colon, rfl, written⟩, rfl⟩
      exact ⟨before, after, port, form, some, outside, colon, written, rfl⟩

/-! ## Listings -/

theorem parse_append_lineEnd (fallback : Transport) (text rest : String) :
    parse fallback (text ++ "\n" ++ rest) = parse fallback text ++ parse fallback rest := by
  have chars : (text ++ "\n" ++ rest).toList = text.toList ++ '\n' :: rest.toList := by simp
  rw [parse, chars, Text.fields_append (by decide), List.filterMap_append]
  rfl

/-- A carriage return at the end of a listing makes no difference. -/
theorem parse_append_return (fallback : Transport) (text : String) :
    parse fallback (text ++ "\r") = parse fallback text := by
  obtain ⟨front, last, short, long⟩ :=
    Text.fields_concat (· == '\n') (c := '\r') (by decide) text.toList
  have same : endpoint? fallback (last ++ ['\r']) = endpoint? fallback last := by
    rw [endpoint?, endpoint?, Text.trim_concat (by decide)]
  have chars : (text ++ "\r").toList = text.toList ++ ['\r'] := by simp
  rw [parse, parse, chars, short, long]
  simp only [List.filterMap_append, List.filterMap_cons, same]

theorem parse_of_line (fallback : Transport) {line : String} (h : '\n' ∉ line.toList) :
    parse fallback line = (endpoint? fallback line.toList).toList := by
  rw [parse, Text.fields_eq_singleton]
  · cases named : endpoint? fallback line.toList <;> simp [named]
  · intro c hc
    rw [beq_eq_false_iff_ne]
    rintro rfl
    exact h hc

/-- Listings are read line by line, under either line end, and a line without `://` names one
endpoint if it is bare and none if it is not. -/
theorem lines_stand_alone_and_bare_ones_have_form (fallback : Transport) :
    (∀ text rest : String,
      parse fallback (text ++ "\n" ++ rest) = parse fallback text ++ parse fallback rest ∧
      parse fallback (text ++ "\r\n" ++ rest) = parse fallback text ++ parse fallback rest) ∧
    ∀ line : String, '\n' ∉ line.toList → ¬"://".toList <:+: line.toList →
      (∀ host port, IsBare line.toList host port →
        parse fallback line = [.plain (String.ofList host) port fallback]) ∧
      ((¬∃ host port, IsBare line.toList host port) → parse fallback line = []) := by
  constructor
  · intro text rest
    refine ⟨parse_append_lineEnd fallback text rest, ?_⟩
    have ends : text ++ "\r\n" ++ rest = text ++ "\r" ++ "\n" ++ rest := by
      simp [String.append_assoc]
    rw [ends, parse_append_lineEnd, parse_append_return]
  · intro line single unmarked
    rw [parse_of_line fallback single]
    constructor
    · intro host port bare
      rw [(endpoint?_eq_some_iff unmarked).mpr ⟨host, port, bare, rfl⟩]
      rfl
    · intro none
      cases named : endpoint? fallback line.toList with
      | none => rfl
      | some e =>
        obtain ⟨host, port, bare, -⟩ := (endpoint?_eq_some_iff unmarked).mp named
        exact absurd ⟨host, port, bare⟩ none

/-- Blanks beyond ASCII, a plus sign and leading zeros: a line that is bare, and one that is not
because of a second colon. -/
theorem lines_stand_alone_and_bare_ones_have_form_of_two :
    parse .socks5 "\u00a0proxy :\u2003+0080\r" = [.plain "proxy" 80 .socks5] ∧
      parse .socks5 "proxy:80:" = [] := by
  obtain ⟨-, lines⟩ := lines_stand_alone_and_bare_ones_have_form .socks5
  constructor
  · refine (lines "\u00a0proxy :\u2003+0080\r" (by decide) (by decide)).1 "proxy".toList 80 ?_
    refine ⟨by decide, "proxy ".toList, "\u2003+0080".toList, by decide, by decide, by decide,
      by decide, by decide, "0080".toList, .inr (by decide), by decide,
      forall_mem_of_all (by decide), by decide, by decide⟩
  · refine (lines "proxy:80:" (by decide) (by decide)).2 ?_
    rintro ⟨host, port, -, before, after, form, -, outside, colon, -⟩
    have colons := congrArg (List.count ':') form
    rw [List.count_append, List.count_cons_self, List.count_eq_zero_of_not_mem outside,
      List.count_eq_zero_of_not_mem colon] at colons
    exact absurd colons (by decide)

end ProxyLease.Listing
