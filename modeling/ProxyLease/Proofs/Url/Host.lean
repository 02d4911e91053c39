import Mathlib.Tactic.Common
import ProxyLease.Proofs.Url.IPv4
import ProxyLease.Proofs.Url.IPv6
import ProxyLease.Proofs.Url.International
import ProxyLease.Url.Parse

/-!
# Hosts are read back

Every host that was read is the host its printed form is read as, under the same kind
of scheme. A text with a forbidden character is no host of either kind, unless it
stands in brackets.
-/

namespace ProxyLease

open International (IsSmall)

/-! ## Bytes of a text -/

namespace Percent

theorem utf8EncodeChar_ascii {c : Char} (h : c.toNat < 0x80) :
    String.utf8EncodeChar c = [UInt8.ofNat c.toNat] := by
  simp only [String.utf8EncodeChar, Char.toNat_val]
  rw [if_pos (by omega)]

theorem eq_of_mem_utf8EncodeChar {c : Char} {b : UInt8} (h : b ∈ String.utf8EncodeChar c)
    (ascii : b.toNat < 0x80) : c.toNat = b.toNat := by
  have beyond (n : Nat) (top : UInt8) (ht : 0x80 ≤ top.toNat) (fits : n + top.toNat < 0x100) :
      ¬(UInt8.ofNat n + top).toNat < 0x80 := by
    rw [UInt8.toNat_add, UInt8.toNat_ofNat']
    omega
  have tail (n : Nat) : ¬(UInt8.ofNat (n % 0x40) + 0x80).toNat < 0x80 :=
    beyond _ _ (by decide) (by have : (0x80 : UInt8).toNat = 0x80 := rfl; omega)
  simp only [String.utf8EncodeChar, Char.toNat_val] at h
  split at h
  · obtain rfl := List.mem_singleton.mp h
    rw [UInt8.toNat_ofNat']
    omega
  · exfalso
    split at h
    · have head := beyond (c.toNat / 64 % 32) 0xC0 (by decide)
        (by have : (0xC0 : UInt8).toNat = 0xC0 := rfl; omega)
      rcases (by simpa using h : _ ∨ _) with rfl | rfl
      · exact head ascii
      · exact tail _ ascii
    · split at h
      · have head := beyond (c.toNat / 4096 % 16) 0xE0 (by decide)
          (by have : (0xE0 : UInt8).toNat = 0xE0 := rfl; omega)
        rcases (by simpa using h : _ ∨ _ ∨ _) with rfl | rfl | rfl
        · exact head ascii
        · exact tail _ ascii
        · exact tail _ ascii
      · have head := beyond (c.toNat / 262144 % 8) 0xF0 (by decide)
          (by have : (0xF0 : UInt8).toNat = 0xF0 := rfl; omega)
        rcases (by simpa using h : _ ∨ _ ∨ _ ∨ _) with rfl | rfl | rfl | rfl
        · exact head ascii
        · exact tail _ ascii
        · exact tail _ ascii
        · exact tail _ ascii

theorem cases_of_mem_encode {set : EncodeSet} {text : List Char} {c : Char}
    (hc : c ∈ encode set text) :
    c = '%' ∨ (∃ n < 16, c = hexDigit n) ∨ (c ∈ text ∧ set c = false) := by
  obtain ⟨d, hd, hc⟩ := List.mem_flatMap.mp hc
  unfold encodeChar at hc
  split at hc
  · obtain ⟨b, -, hc⟩ := List.mem_flatMap.mp hc
    have := b.toNat_lt
    simp only [encodeByte, List.mem_cons, List.not_mem_nil, or_false] at hc
    rcases hc with rfl | rfl | rfl
    · exact .inl rfl
    · exact .inr (.inl ⟨_, by omega, rfl⟩)
    · exact .inr (.inl ⟨_, by omega, rfl⟩)
  · rename_i kept
    obtain rfl := List.mem_singleton.mp hc
    exact .inr (.inr ⟨hd, by simpa using kept⟩)

theorem encode_ne_nil {set : EncodeSet} {text : List Char} (h : text ≠ []) :
    encode set text ≠ [] := by
  obtain ⟨c, rest, rfl⟩ := List.exists_cons_of_ne_nil h
  have first : encodeChar set c ≠ [] := by
    unfold encodeChar
    split
    · obtain ⟨b, bytes, encoded⟩ :=
        List.exists_cons_of_ne_nil (String.utf8EncodeChar_ne_nil (c := c))
      simp [encoded, encodeByte]
    · simp
  simp [first]

theorem decodeBytes_eq_flatMap {text : List Char} (h : '%' ∉ text) :
    decodeBytes text = text.flatMap String.utf8EncodeChar := by
  fun_induction decodeBytes text with
  | case1 => rfl
  | case2 => simp
  | case3 => simp
  | _ => simp_all

/-- A character in ASCII that takes no part in percent-encoding is among the bytes. -/
theorem mem_decodeBytes {text : List Char} {c : Char} (h : c ∈ text) (ascii : c.toNat < 0x80)
    (sign : c ≠ '%') (digit : hexValue? c = none) : UInt8.ofNat c.toNat ∈ decodeBytes text := by
  have own : UInt8.ofNat c.toNat ∈ String.utf8EncodeChar c := by
    rw [utf8EncodeChar_ascii ascii]
    simp
  have ne_of_digit {d : Char} {n : Nat} (hd : hexValue? d = some n) : c ≠ d := by
    rintro rfl
    simp [digit] at hd
  fun_induction decodeBytes text with
  | case1 => simp at h
  | case2 d =>
    obtain rfl : c = d := by simpa using h
    exact own
  | case3 d e =>
    rcases (by simpa using h : c = d ∨ c = e) with rfl | rfl
    · exact List.mem_append_left _ own
    · exact List.mem_append_right _ own
  | case4 d e rest high low hlow hhigh ih =>
    have : c ∈ rest := by simpa [sign, ne_of_digit hhigh, ne_of_digit hlow] using h
    exact List.mem_cons_of_mem _ (ih this)
  | case5 d e rest _ ih =>
    have : c ∈ d :: e :: rest := by simpa [sign] using h
    exact List.mem_append_right _ (ih this)
  | case6 first d e rest _ ih =>
    rcases List.mem_cons.mp h with rfl | h
    · exact List.mem_append_left _ own
    · exact List.mem_append_right _ (ih h)

theorem exists_of_fromUTF8? {bytes : List UInt8} {s : String}
    (h : String.fromUTF8? ⟨bytes.toArray⟩ = some s) {b : UInt8} (hb : b ∈ bytes) :
    ∃ c ∈ s.toList, b ∈ String.utf8EncodeChar c := by
  unfold String.fromUTF8? at h
  split at h
  · obtain rfl := Option.some.inj h
    rename_i valid
    have encoded : (String.fromUTF8 ⟨bytes.toArray⟩ valid).toList.utf8Encode = ⟨bytes.toArray⟩ :=
      String.utf8Encode_toList
    have same := congrArg (·.data.toList) encoded
    simp only [List.utf8Encode, List.toList_data_toByteArray] at same
    rw [← List.mem_flatMap, same]
    exact hb
  · cases h

end Percent

namespace Host

/-! ## Names under a special scheme -/

theorem exists_of_asciiName? {bytes : List UInt8} {name : List Char}
    (h : asciiName? bytes = some name) :
    ∃ prepared, International.asciiText? prepared = some name ∧
      ∀ c ∈ prepared, c.toNat < 0x80 → IsSmall c := by
  unfold asciiName? at h
  split at h
  · rename_i ascii
    refine ⟨_, h, fun c hc _ => ?_⟩
    obtain ⟨b, hb, rfl⟩ := List.mem_map.mp hc
    have small : b.toNat < 0x80 := by
      simpa [UInt8.lt_iff_toNat_lt] using List.all_eq_true.mp ascii b hb
    have every : ∀ n < 0x80, IsSmall (Char.ofNat n).toLower := by decide
    exact every b.toNat small
  · obtain ⟨text, -, h⟩ := Option.bind_eq_some_iff.mp h
    obtain ⟨prepared, read, h⟩ := International.exists_of_asciiName? h
    exact ⟨_, h, fun c hc => International.isSmall_of_mem_prepared read hc⟩

theorem domainName?_spec {text name : List Char} (h : domainName? text = some name) :
    (∀ c ∈ name, IsSmall c ∧ isForbiddenInDomain c = false) ∧
      International.asciiText? name = some name := by
  obtain ⟨read, allowed⟩ := Option.filter_eq_some_iff.mp h
  obtain ⟨prepared, made, small⟩ := exists_of_asciiName? read
  refine ⟨fun c hc => ⟨International.isSmall_of_mem_asciiText? small made hc, ?_⟩,
    International.asciiText?_self made⟩
  simpa using List.any_eq_false.mp (by simpa using allowed) c hc

theorem domainName?_self {name : List Char}
    (h : ∀ c ∈ name, IsSmall c ∧ isForbiddenInDomain c = false)
    (settled : International.asciiText? name = some name) : domainName? name = some name := by
  have plain : '%' ∉ name := fun hm => absurd (h '%' hm).2 (by decide)
  have bytes : Percent.decodeBytes name = name.map fun c => UInt8.ofNat c.toNat := by
    rw [Percent.decodeBytes_eq_flatMap plain]
    clear plain settled
    induction name with
    | nil => rfl
    | cons c rest ih =>
      rw [List.flatMap_cons, Percent.utf8EncodeChar_ascii (h c (by simp)).1.1,
        ih fun d hd => h d (by simp [hd])]
      rfl
  have codes : ∀ c ∈ name, (UInt8.ofNat c.toNat).toNat = c.toNat := by
    intro c hc
    have := (h c hc).1.1
    rw [UInt8.toNat_ofNat']
    omega
  have lower : (name.map fun c => UInt8.ofNat c.toNat).map
      (fun b => (Char.ofNat b.toNat).toLower) = name := by
    rw [List.map_map]
    refine (List.map_congr_left fun c hc => ?_).trans name.map_id
    simp only [Function.comp_apply, codes c hc, Char.ofNat_toNat]
    exact (h c hc).1.2
  have ascii : asciiName? (Percent.decodeBytes name) = some name := by
    rw [bytes, asciiName?, if_pos, lower, settled]
    rw [List.all_map, List.all_eq_true]
    intro c hc
    have := (h c hc).1.1
    simpa [UInt8.lt_iff_toNat_lt, codes c hc] using this
  rw [domainName?, ascii, Option.filter_some, if_pos]
  simpa using fun c hc => (h c hc).2

/-- What an opaque host cannot hold, a name cannot hold either, however it is written. -/
theorem domainName?_of_forbidden {text : List Char} {c : Char} (h : c ∈ text)
    (hc : isForbidden c = true) : domainName? text = none := by
  have listed : ∀ d ∈ ['\x00', '\t', '\n', '\r', ' ', '#', '/', ':', '<', '>', '?', '@', '[', '\\',
      ']', '^', '|'], d.toNat < 0x80 ∧ d ≠ '%' ∧ Percent.hexValue? d = none ∧
        d.toLower = d ∧ International.prepare? d = some [d] ∧ (d == '.') = false :=
    forall_mem_of_all (by decide +kernel)
  obtain ⟨ascii, sign, digit, lower, kept, inside⟩ := listed c (by simpa [isForbidden] using hc)
  have byte := Percent.mem_decodeBytes h ascii sign digit
  have code : (UInt8.ofNat c.toNat).toNat = c.toNat := by
    rw [UInt8.toNat_ofNat']
    omega
  cases read : asciiName? (Percent.decodeBytes text) with
  | none => simp [domainName?, read]
  | some name =>
    have there : c ∈ name := by
      unfold asciiName? at read
      split at read
      · refine International.mem_of_asciiText? read (List.mem_map.mpr ⟨_, byte, ?_⟩) ascii inside
        rw [code, Char.ofNat_toNat, lower]
      · obtain ⟨s, hs, read⟩ := Option.bind_eq_some_iff.mp read
        obtain ⟨d, hd, encoded⟩ := Percent.exists_of_fromUTF8? hs byte
        have same := Percent.eq_of_mem_utf8EncodeChar encoded (by omega)
        obtain rfl : d = c := Char.toNat_inj.mp (same.trans code)
        exact International.mem_of_asciiName? read hd ascii kept inside
    have refused : name.any isForbiddenInDomain = true :=
      List.any_eq_true.mpr ⟨c, there, by simp [isForbiddenInDomain, hc]⟩
    simp only [domainName?, read, Option.filter_some, refused]
    rfl

/-! ## Reading a printed host -/

theorem parseBracketed_spec {text : List Char} {host : Host} (h : parseBracketed text = .ok host) :
    ∃ pieces, host = .ipv6 pieces ∧ pieces.length = 8 ∧ ∀ v ∈ pieces, v < 65536 := by
  unfold parseBracketed at h
  split at h
  · split at h
    · rename_i pieces read
      obtain rfl := Except.ok.inj h
      exact ⟨pieces, rfl, IPv6.parse?_fits read⟩
    · cases h
  · cases h

theorem parseBracketed_chars {pieces : List Nat} (eight : pieces.length = 8)
    (small : ∀ v ∈ pieces, v < 65536) :
    parseBracketed (chars (.ipv6 pieces)) = .ok (.ipv6 pieces) := by
  have inner : (chars (.ipv6 pieces)).reverse = ']' :: (('[' :: IPv6.text pieces).reverse) := by
    simp [chars]
  rw [parseBracketed, inner]
  simp [IPv6.parse?_text eight small]

theorem domainName?_text (value : Nat) :
    domainName? (IPv4.text value) = some (IPv4.text value) := by
  have plain {c : Char} (ascii : c.toNat < 0x80) : c.isDigit = true ∨ c = '.' →
      IsSmall c ∧ isForbiddenInDomain c = false :=
    International.forall_ascii (p := fun c => c.isDigit = true ∨ c = '.' →
      IsSmall c ∧ isForbiddenInDomain c = false) (by decide +kernel) ascii
  have digit_lt {c : Char} (digit : c.isDigit = true) : c.toNat < 0x80 := by
    have bound : c.toNat ≤ 0x39 := (Char.isDigit_iff_toNat.mp digit).2
    omega
  refine domainName?_self (fun c hc => ?_) (International.asciiText?_of_labels fun label hl => ?_)
  · have shape := IPv4.digit_or_dot_of_mem_text hc
    refine plain ?_ shape
    rcases shape with digit | rfl
    · exact digit_lt digit
    · decide
  · have digits := IPv4.isDigit_of_mem_labels_text hl
    refine International.labelText?_of_plain (fun c hc => digit_lt (digits c hc)) ?_
    cases label with
    | nil => rfl
    | cons c rest =>
      have : c ≠ 'x' := by
        rintro rfl
        exact absurd (digits 'x' List.mem_cons_self) (by decide)
      simp [International.isMarked, International.mark, List.isPrefixOf, this.symm]

theorem parseSpecial_self {name : List Char} (some : name ≠ [])
    (h : domainName? name = .some name) :
    parseSpecial name =
      if IPv4.endsInNumber name then
        (IPv4.parse? name).elim (.error .invalidIPv4) fun value => .ok (.ipv4 value)
      else .ok (.domain name) := by
  obtain ⟨c, rest, rfl⟩ := List.exists_cons_of_ne_nil some
  have bracket : c ≠ '[' := by
    rintro rfl
    exact absurd ((domainName?_spec h).1 '[' (by simp)).2 (by decide)
  rw [parseSpecial, if_neg (by simpa using bracket), h]
  dsimp only
  cases IPv4.parse? (c :: rest) <;> rfl

/-- Under a special scheme a printed host is the host it was printed from. -/
theorem parseSpecial_chars {text : List Char} {host : Host} (h : parseSpecial text = .ok host) :
    parseSpecial host.chars = .ok host := by
  unfold parseSpecial at h
  split at h
  · obtain ⟨pieces, rfl, eight, small⟩ := parseBracketed_spec h
    exact parseBracketed_chars eight small
  · split at h
    · cases h
    · cases h
    · rename_i name some read
      split at h
      · split at h
        · rename_i value number
          obtain rfl := Except.ok.inj h
          have dotted : IPv4.text value ≠ [] := by simp [IPv4.text]
          rw [chars, parseSpecial_self dotted (domainName?_text value), IPv4.endsInNumber_text,
            IPv4.parse?_text (IPv4.parse?_lt number)]
          rfl
        · cases h
      · rename_i number
        obtain rfl := Except.ok.inj h
        obtain ⟨allowed, settled⟩ := domainName?_spec read
        rw [chars, parseSpecial_self some (domainName?_self allowed settled), if_neg number]

theorem plain_of_mem_encode {text : List Char} (allowed : text.any isForbidden = false) {c : Char}
    (hc : c ∈ Percent.encode Percent.controls text) :
    isForbidden c = false ∧ Percent.controls c = false := by
  have digit : ∀ n < 16, isForbidden (Percent.hexDigit n) = false ∧
      Percent.controls (Percent.hexDigit n) = false := by decide
  rcases Percent.cases_of_mem_encode hc with rfl | ⟨n, hn, rfl⟩ | ⟨inside, kept⟩
  · decide
  · exact digit n hn
  · exact ⟨by simpa using List.any_eq_false.mp allowed c inside, kept⟩

theorem parseOpaque_chars {text : List Char} {host : Host} (h : parseOpaque text = .ok host) :
    parseOpaque host.chars = .ok host := by
  unfold parseOpaque at h
  split at h
  · obtain ⟨pieces, rfl, eight, small⟩ := parseBracketed_spec h
    exact parseBracketed_chars eight small
  · split at h
    · cases h
    · rename_i allowed
      obtain rfl := Except.ok.inj h
      have plain {c : Char} := plain_of_mem_encode (c := c) (by simpa using allowed)
      have bracket : (Percent.encode Percent.controls text).head? ≠ some '[' := by
        intro first
        exact absurd (plain (List.mem_of_head? first)).1 (by decide)
      have clean : (Percent.encode Percent.controls text).any isForbidden = false :=
        List.any_eq_false.mpr fun c hc => by simp [(plain hc).1]
      rw [chars, parseOpaque, if_neg bracket, clean, if_neg (by decide),
        Percent.encode_eq_self fun c hc => (plain hc).2]

end Host

namespace Url

@[simp] theorem parseHost_nil_of_special : parseHost .special [] = .error .emptyHost := rfl

theorem parseHost_special {text : List Char} {host : Host} :
    parseHost .special text = .ok (some host) ↔ text ≠ [] ∧ Host.parseSpecial text = .ok host := by
  by_cases empty : text = []
  · subst empty
    simp
  · cases read : Host.parseSpecial text <;> simp [parseHost, empty, read, Except.map]

theorem parseHost_other {kind : SchemeKind} (other : kind ≠ .special) {text : List Char}
    {host : Host} :
    parseHost kind text = .ok (some host) ↔
      Host.parseOpaque text = .ok host ∧ host ≠ .domain [] := by
  cases read : Host.parseOpaque text with
  | error e => simp [parseHost, other, read, Except.map]
  | ok h =>
    by_cases empty : h = .domain []
    · subst empty
      simpa [parseHost, other, read, Except.map] using Eq.symm
    · simpa [parseHost, other, read, Except.map, empty] using fun same => same ▸ empty

theorem parseHost_chars {kind : SchemeKind} {text : List Char} {host : Host}
    (h : parseHost kind text = .ok (some host)) : parseHost kind host.chars = .ok (some host) := by
  by_cases special : kind = .special
  · subst special
    have read := Host.parseSpecial_chars (parseHost_special.mp h).2
    refine parseHost_special.mpr ⟨?_, read⟩
    intro empty
    have nothing : Host.parseSpecial [] = .error .emptyHost := rfl
    rw [empty, nothing] at read
    cases read
  · obtain ⟨read, some⟩ := (parseHost_other special).mp h
    exact (parseHost_other special).mpr ⟨Host.parseOpaque_chars read, some⟩

theorem parseHost_bracketed (kind : SchemeKind) {text : List Char}
    (h : text.head? = some '[') : parseHost kind text = (Host.parseBracketed text).map some := by
  have some : text ≠ [] := by
    rintro rfl
    cases h
  by_cases special : kind = .special
  · simp [parseHost, special, some, Host.parseSpecial, h]
  · cases read : Host.parseBracketed text with
    | error e => simp [parseHost, special, Host.parseOpaque, h, read, Except.map]
    | ok host =>
      obtain ⟨pieces, rfl, -⟩ := Host.parseBracketed_spec read
      simp [parseHost, special, Host.parseOpaque, h, read, Except.map]

/-- Outside brackets a forbidden character makes a text no host, under whatever scheme. -/
theorem parseHost_of_forbidden (kind : SchemeKind) {text : List Char} {c : Char}
    (head : text.head? ≠ some '[') (h : c ∈ text) (hc : Host.isForbidden c = true) :
    ∃ e, parseHost kind text = .error e := by
  by_cases special : kind = .special
  · have named := Host.domainName?_of_forbidden h hc
    exact ⟨.internationalName, by
      simp [parseHost, special, List.ne_nil_of_mem h, Host.parseSpecial, head, named, Except.map]⟩
  · have forbidden : text.any Host.isForbidden = true := List.any_eq_true.mpr ⟨c, h, hc⟩
    exact ⟨.invalidHostCharacter, by
      simp only [parseHost, special, if_false, Host.parseOpaque, head, forbidden, if_true]
      rfl⟩

end Url
end ProxyLease
