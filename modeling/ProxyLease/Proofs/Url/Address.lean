import Mathlib.Tactic.Common
import ProxyLease.Proofs.Url.Authority

/-!
# What a read address is made of

The host of an address was read under its scheme, its port fits into 16 bits, and its
scheme is in lower case.
-/

namespace ProxyLease.Url

theorem parsePort_le {read : Option Nat} {text rest : List Char} {port : Nat}
    (small : read.getD 0 ≤ 65535) (h : parsePort read text = .ok (some port, rest)) :
    port ≤ 65535 := by
  induction text generalizing read with
  | nil =>
    obtain ⟨rfl, -⟩ : read = some port ∧ [] = rest := by simpa [parsePort] using h
    exact small
  | cons c tail ih =>
    unfold parsePort at h
    split at h
    · dsimp only at h
      split at h
      · cases h
      · rename_i fits
        exact ih (by simpa using fits) h
    · split at h
      · obtain ⟨rfl, -⟩ : read = some port ∧ c :: tail = rest := by simpa using h
        exact small
      · cases h

section Steps

variable {ε α β : Type}

/-- A sequence of steps that ends well has a first step that ends well. -/
theorem exists_of_bind {m : Except ε α} {k : α → Except ε β} {b : β} (h : (m >>= k) = .ok b) :
    ∃ a, m = .ok a ∧ k a = .ok b := by
  cases m with
  | error e => cases h
  | ok a => exact ⟨a, rfl, h⟩

theorem passed {c : Prop} [Decidable c] {e : ε} {k : PUnit → Except ε β} {m : Except ε β} {b : β}
    (h : (if c then throw e >>= k else m) = .ok b) : ¬c ∧ m = .ok b := by
  split at h
  · cases h
  · rename_i hc
    exact ⟨hc, h⟩

end Steps

/-- An authority is made of credentials, of a host that was read under its kind of scheme and of
a port, which is kept unless the scheme means it anyway. -/
theorem spec_of_parseAuthority {scheme text rest : List Char} {kind : SchemeKind} {a : Authority}
    (h : parseAuthority scheme kind text = .ok (a, rest)) :
    ∃ (userinfo hostText : List Char) (host : Option Host) (port : Option Nat),
      parseHost kind hostText = .ok host ∧ (∀ n, port = some n → n ≤ 65535) ∧
        a = ⟨(credentials userinfo).1, (credentials userinfo).2, host,
          if port = defaultPort? scheme then none else port⟩ := by
  unfold parseAuthority at h
  dsimp only at h
  obtain ⟨-, h⟩ := passed h
  obtain ⟨host, read, h⟩ := exists_of_bind h
  obtain ⟨-, h⟩ := passed h
  split at h
  · obtain ⟨⟨port, after⟩, hp, h⟩ := exists_of_bind h
    obtain ⟨-, h⟩ := passed h
    obtain ⟨rfl, -⟩ := Prod.mk.inj (Except.ok.inj h)
    refine ⟨_, _, host, port, read, ?_, rfl⟩
    rintro n rfl
    exact parsePort_le (by decide) hp
  · obtain ⟨⟨port, after⟩, hp, h⟩ := exists_of_bind h
    obtain ⟨-, h⟩ := passed h
    obtain ⟨rfl, -⟩ := Prod.mk.inj (Except.ok.inj h)
    obtain ⟨rfl, -⟩ := Prod.mk.inj (Except.ok.inj hp)
    exact ⟨_, _, host, none, read, by simp, rfl⟩

@[simp] theorem assemble_scheme (scheme : List Char) (kind : SchemeKind)
    (authority : Option Authority) (path : List Char → UrlPath) (rest : List Char) :
    (assemble scheme kind authority path rest).scheme = scheme := rfl

@[simp] theorem assemble_authority (scheme : List Char) (kind : SchemeKind)
    (authority : Option Authority) (path : List Char → UrlPath) (rest : List Char) :
    (assemble scheme kind authority path rest).authority = authority := rfl

theorem toLower_toLower (c : Char) : c.toLower.toLower = c.toLower := by
  by_cases ascii : c.toNat < 0x80
  · exact (International.isSmall_toLower ascii).2
  · have kept : c.toLower = c := by
      refine dif_neg fun capital => ascii ?_
      have last : c.toNat ≤ 'Z'.toNat := capital.2
      exact Nat.lt_of_le_of_lt last (by decide)
    rw [kept, kept]

theorem lower_of_splitScheme? {text scheme rest : List Char}
    (h : splitScheme? text = some (scheme, rest)) : scheme.map Char.toLower = scheme := by
  unfold splitScheme? at h
  split at h
  · split at h
    · obtain ⟨rfl, -⟩ := Prod.mk.inj (Option.some.inj h)
      rw [List.map_map]
      exact List.map_congr_left fun c _ => toLower_toLower c
    · cases h
  · cases h

theorem spec_of_fileAddress (scheme : List Char) (host : Option Host) (rest : List Char) :
    (fileAddress scheme host rest).scheme = scheme ∧
      ∀ a, (fileAddress scheme host rest).authority = some a → a.port = none := by
  unfold fileAddress
  dsimp only
  split
  · split <;> simp
  · simp

theorem spec_of_parseFile {scheme text : List Char} {url : Url}
    (h : parseFile scheme text = .ok url) :
    url.scheme = scheme ∧ ∀ a, url.authority = some a → a.port = none := by
  unfold parseFile at h
  split at h
  · dsimp only at h
    split at h
    · split at h
      · exact Except.ok.inj h ▸ spec_of_fileAddress scheme _ _
      · obtain ⟨host, -, h⟩ := exists_of_bind h
        exact Except.ok.inj h ▸ spec_of_fileAddress scheme _ _
    · exact Except.ok.inj h ▸ spec_of_fileAddress scheme _ _
  · exact Except.ok.inj h ▸ spec_of_fileAddress scheme _ _

/-- An address has its scheme in lower case. Unless it is one of a file, its authority was read
under that scheme. -/
theorem spec_of_parseChars {input : List Char} {url : Url} (h : parseChars input = .ok url) :
    url.scheme.map Char.toLower = url.scheme ∧ ∀ a, url.authority = some a →
      (SchemeKind.ofScheme url.scheme = .file ∧ a.port = none) ∨
        ∃ text rest, parseAuthority url.scheme (SchemeKind.ofScheme url.scheme) text =
          .ok (a, rest) := by
  unfold parseChars at h
  split at h
  · cases h
  · rename_i scheme rest split
    have lower := lower_of_splitScheme? split
    split at h
    · rename_i kind
      obtain ⟨rfl, port⟩ := spec_of_parseFile h
      exact ⟨lower, fun a ha => .inl ⟨kind, port a ha⟩⟩
    · rename_i kind
      obtain ⟨⟨authority, after⟩, read, h⟩ := exists_of_bind h
      obtain rfl := Except.ok.inj h
      refine ⟨lower, fun a ha => .inr ⟨rest.dropWhile isSlash, after, ?_⟩⟩
      obtain rfl : authority = a := by simpa using ha
      simpa [kind] using read
    · rename_i kind
      split at h
      · rename_i inner
        obtain ⟨⟨authority, tail⟩, read, h⟩ := exists_of_bind h
        obtain rfl := Except.ok.inj h
        refine ⟨lower, fun a ha => .inr ⟨inner, tail, ?_⟩⟩
        obtain rfl : authority = a := by simpa using ha
        simpa [kind] using read
      · obtain rfl := Except.ok.inj h
        exact ⟨lower, by simp⟩

/-! ## Characters that count -/

theorem dropWhile_of_head {p : Char → Bool} {text : List Char}
    (h : ∀ c, text.head? = some c → p c = false) : text.dropWhile p = text := by
  cases text with
  | nil => rfl
  | cons c rest => simp [h c rfl]

theorem significant_eq_self {text : List Char}
    (head : ∀ c, text.head? = some c → 0x20 < c.toNat)
    (last : ∀ c, text.getLast? = some c → 0x20 < c.toNat)
    (inside : ∀ c ∈ text, c ≠ '\t' ∧ c ≠ '\n' ∧ c ≠ '\r') : significant text = text := by
  have front : text.dropWhile (fun c => decide (c.toNat ≤ 0x20)) = text :=
    dropWhile_of_head fun c hc => by
      have := head c hc
      simp
      omega
  have back : text.reverse.dropWhile (fun c => decide (c.toNat ≤ 0x20)) = text.reverse :=
    dropWhile_of_head fun c hc => by
      have := last c (by simpa using hc)
      simp
      omega
  simp only [significant, front, back, List.reverse_reverse]
  refine List.filter_eq_self.mpr fun c hc => ?_
  simpa [and_assoc] using inside c hc

/-! ## Hosts and ports of addresses -/

theorem defaultPort?_le {scheme : List Char} {port : Nat} (h : defaultPort? scheme = some port) :
    port ≤ 65535 := by
  unfold defaultPort? at h
  split at h
  · obtain rfl := Option.some.inj h
    decide
  · split at h
    · obtain rfl := Option.some.inj h
      decide
    · split at h
      · obtain rfl := Option.some.inj h
        decide
      · cases h

theorem defaultPort?_of_file {scheme : List Char} (h : SchemeKind.ofScheme scheme = .file) :
    defaultPort? scheme = none := by
  unfold SchemeKind.ofScheme at h
  split at h
  · cases h
  · split at h
    · rename_i file
      subst file
      decide
    · cases h

theorem authority_of_parseChars {input : List Char} {url : Url} {a : Authority} {port : Nat}
    (h : parseChars input = .ok url) (ha : url.authority = some a)
    (hp : url.effectivePort? = some port) :
    ∃ text rest, parseAuthority url.scheme (SchemeKind.ofScheme url.scheme) text =
      .ok (a, rest) := by
  rcases (spec_of_parseChars h).2 a ha with ⟨file, unnamed⟩ | read
  · simp [effectivePort?, ha, unnamed, defaultPort?_of_file file] at hp
  · exact read

theorem hasEncodedLogin_of_parseChars {input : List Char} {url : Url} {a : Authority} {port : Nat}
    (h : parseChars input = .ok url) (ha : url.authority = some a)
    (hp : url.effectivePort? = some port) : HasEncodedLogin a := by
  obtain ⟨text, rest, read⟩ := authority_of_parseChars h ha hp
  obtain ⟨userinfo, hostText, host, named, -, -, rfl⟩ := spec_of_parseAuthority read
  exact hasEncodedLogin_credentials userinfo host _

theorem host_of_parseChars {input : List Char} {url : Url} {host : Host} {port : Nat}
    (h : parseChars input = .ok url) (hh : url.host? = some host)
    (hp : url.effectivePort? = some port) :
    (∃ text, parseHost (SchemeKind.ofScheme url.scheme) text = .ok (some host)) ∧
      port ≤ 65535 := by
  obtain ⟨a, ha, hh⟩ := Option.bind_eq_some_iff.mp hh
  obtain ⟨text, rest, read⟩ := authority_of_parseChars h ha hp
  rw [effectivePort?, ha] at hp
  obtain ⟨userinfo, hostText, host', port', hread, small, rfl⟩ := spec_of_parseAuthority read
  obtain rfl : host' = some host := hh
  refine ⟨⟨hostText, hread⟩, ?_⟩
  rcases Option.or_eq_some_iff.mp hp with named | ⟨-, meant⟩
  · dsimp only [Option.bind_some] at named
    split at named
    · cases named
    · exact small port named
  · exact defaultPort?_le meant

end ProxyLease.Url
