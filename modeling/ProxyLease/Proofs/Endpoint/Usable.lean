import Mathlib.Tactic.Common
import ProxyLease.Endpoint.Listing
import ProxyLease.Proofs.Url.Address

/-!
# Usable endpoints

An endpoint is usable if its address leads to its port and logs in as nobody else. Lines
that hold an address under the scheme of a transport name usable endpoints only. Any
other line may name an endpoint whose host was never read as one under its transport:
apart from marks, which let an address mean something else, such an endpoint is usable
exactly if its host is a host.
-/

namespace ProxyLease

open Url (IsHostText)

namespace Transport

/-- The kind of scheme under which addresses of proxies with a transport are read. -/
def schemeKind (t : Transport) : SchemeKind := SchemeKind.ofScheme t.scheme.toList

def address (t : Transport) (host : Host) (port : Nat) : Url :=
  ⟨t.scheme.toList, some (Url.hostPort t.scheme.toList host port),
    Url.pathAfterAuthority t.schemeKind [], none, none⟩

@[simp] theorem effectivePort?_address (t : Transport) (host : Host) (port : Nat) :
    (t.address host port).effectivePort? = some port := by
  by_cases meant : some port = defaultPort? t.scheme.toList
  · simp [Url.effectivePort?, address, Url.hostPort, ← meant]
  · simp [Url.effectivePort?, address, Url.hostPort, meant]

@[simp] theorem username_address (t : Transport) (host : Host) (port : Nat) :
    (t.address host port).username = [] := rfl

theorem parseChars_scheme (t : Transport) {rest : List Char}
    (whole : Url.significant (t.scheme.toList ++ ':' :: '/' :: '/' :: rest) =
      t.scheme.toList ++ ':' :: '/' :: '/' :: rest)
    (slash : ∀ c, rest.head? = some c → Url.isSlash c = false) :
    Url.parseChars (t.scheme.toList ++ ':' :: '/' :: '/' :: rest) = do
      let (authority, after) ← Url.parseAuthority t.scheme.toList t.schemeKind rest
      return Url.assemble t.scheme.toList t.schemeKind (some authority)
        (Url.pathAfterAuthority t.schemeKind) after := by
  have dropped : ('/' :: '/' :: rest).dropWhile Url.isSlash = rest := by
    simpa [Url.isSlash] using Url.dropWhile_of_head slash
  have cut : Url.splitScheme? (t.scheme.toList ++ ':' :: '/' :: '/' :: rest) =
      some (t.scheme.toList, '/' :: '/' :: rest) := by cases t <;> rfl
  have kinds : t.schemeKind = .special ∨ t.schemeKind = .other := by cases t <;> decide
  rw [Url.parseChars, whole, cut]
  rcases kinds with kind | kind
  · have special : SchemeKind.ofScheme t.scheme.toList = .special := kind
    simp only [special, kind, dropped]
  · have other : SchemeKind.ofScheme t.scheme.toList = .other := kind
    simp only [other, kind]

end Transport

/-- The endpoint has an address, which leads to its port and has no user name of its own. -/
def Endpoint.Usable (e : Endpoint) : Prop :=
  ∃ url, e.url = .ok url ∧ url.effectivePort? = some e.port ∧
    (url.username ≠ [] → e.username ≠ none)

def Endpoint.HasHost (e : Endpoint) : Prop :=
  ∃ host, Url.parseHost e.transport.schemeKind e.host.toList = .ok (some host)

namespace Endpoint

theorem toList_text (e : Endpoint) :
    e.text.toList = e.transport.scheme.toList ++
      ':' :: '/' :: '/' :: (e.host.toList ++ ':' :: Nat.toDigits 10 e.port) := by
  simp [text]

/-- All of an address counts: it begins with a letter, ends with a digit, and has no tabs or
line ends between them. -/
theorem significant_text {e : Endpoint} (h : IsHostText e.host.toList) :
    Url.significant e.text.toList = e.text.toList := by
  have scheme : ∀ c ∈ e.transport.scheme.toList, 0x20 < c.toNat :=
    forall_mem_of_all (by cases e.transport <;> decide)
  have digits : ∀ c ∈ Nat.toDigits 10 e.port, 0x20 < c.toNat := by
    intro c hc
    have bound : '0'.toNat ≤ c.toNat :=
      (Char.isDigit_iff_toNat.mp (IPv4.isDigit_of_mem_toDigits hc)).1
    exact Nat.lt_of_lt_of_le (by decide) bound
  have visible {c : Char} (hc : 0x20 < c.toNat) : c ≠ '\t' ∧ c ≠ '\n' ∧ c ≠ '\r' := by
    refine ⟨?_, ?_, ?_⟩ <;> (rintro rfl; exact absurd hc (by decide))
  have unmarked {c : Char} (hc : Url.isMark c = false) : c ≠ '\t' ∧ c ≠ '\n' ∧ c ≠ '\r' := by
    refine ⟨?_, ?_, ?_⟩ <;> (rintro rfl; exact absurd hc (by decide))
  rw [toList_text]
  refine Url.significant_eq_self ?_ ?_ ?_
  · intro c hc
    have named : e.transport.scheme.toList ≠ [] := by cases e.transport <;> decide
    rw [List.head?_append_of_ne_nil _ named] at hc
    exact scheme c (List.mem_of_head? hc)
  · intro c hc
    have ending : e.transport.scheme.toList ++
        ':' :: '/' :: '/' :: (e.host.toList ++ ':' :: Nat.toDigits 10 e.port) =
          (e.transport.scheme.toList ++ ':' :: '/' :: '/' :: (e.host.toList ++ [':'])) ++
            Nat.toDigits 10 e.port := by simp
    rw [ending, List.getLast?_append_of_ne_nil _ Nat.toDigits_ne_nil] at hc
    exact digits c (List.mem_of_getLast? hc)
  · intro c hc
    simp only [List.mem_append, List.mem_cons] at hc
    rcases hc with hc | rfl | rfl | rfl | hc | rfl | hc
    · exact visible (scheme c hc)
    · decide
    · decide
    · decide
    · exact unmarked (h.unmarked c hc)
    · decide
    · exact visible (digits c hc)

theorem parse_text {e : Endpoint} (h : IsHostText e.host.toList) (fits : e.port ≤ 65535) :
    (∀ host, Url.parseHost e.transport.schemeKind e.host.toList = .ok (some host) →
      Url.parse e.text = .ok (e.transport.address host e.port)) ∧
    (¬e.HasHost → ∃ reason, Url.parse e.text = .error reason) := by
  have slash : ∀ c, (e.host.toList ++ ':' :: Nat.toDigits 10 e.port).head? = some c →
      Url.isSlash c = false := by
    intro c hc
    cases hosted : e.host.toList with
    | nil =>
      obtain rfl : ':' = c := by simpa [hosted] using hc
      decide
    | cons d rest =>
      obtain rfl : d = c := by simpa [hosted] using hc
      have unmarked := h.unmarked d (by simp [hosted])
      simp [Url.isMark] at unmarked
      simp [Url.isSlash, unmarked]
  have whole := significant_text h
  obtain ⟨good, bad⟩ := Url.parseAuthority_hostPort e.transport.schemeKind
    e.transport.scheme.toList h fits
  rw [Url.parse]
  rw [toList_text] at whole ⊢
  rw [e.transport.parseChars_scheme whole slash]
  constructor
  · intro host read
    rw [good host read]
    rfl
  · intro none
    obtain ⟨reason, failed⟩ := bad fun host read => none ⟨host, read⟩
    rw [failed]
    exact ⟨reason, rfl⟩

@[simp] theorem effectivePort?_withCredentials (url : Url) (name : String)
    (password : Option String) :
    (url.withCredentials name password).effectivePort? = url.effectivePort? := by
  unfold Url.withCredentials
  split
  · rfl
  · rename_i a ha
    split
    · rfl
    · simp [Url.effectivePort?, ha]

/-- Apart from marks in its host, an endpoint is usable exactly if its host is one. -/
theorem usable_iff_hasHost {e : Endpoint} (h : IsHostText e.host.toList) (fits : e.port ≤ 65535) :
    e.Usable ↔ e.HasHost := by
  obtain ⟨good, bad⟩ := parse_text h fits
  constructor
  · rintro ⟨url, hurl, -⟩
    by_contra none
    obtain ⟨reason, failed⟩ := bad none
    rw [Endpoint.url, failed] at hurl
    cases hurl
  · rintro ⟨host, read⟩
    have parsed := good host read
    cases login : e.username with
    | none =>
      refine ⟨e.transport.address host e.port, ?_, by simp, by simp⟩
      rw [Endpoint.url, parsed, login]
      rfl
    | some name =>
      refine ⟨(e.transport.address host e.port).withCredentials name e.password, ?_, by simp,
        by simp [login]⟩
      rw [Endpoint.url, parsed, login]
      rfl

theorem not_usable_of_forbidden {e : Endpoint} (h : IsHostText e.host.toList)
    (fits : e.port ≤ 65535) (head : e.host.toList.head? ≠ some '[') {c : Char}
    (hc : c ∈ e.host.toList) (forbidden : Host.isForbidden c = true) : ¬e.Usable := by
  rw [usable_iff_hasHost h fits]
  rintro ⟨host, read⟩
  obtain ⟨reason, refused⟩ := Url.parseHost_of_forbidden e.transport.schemeKind head hc forbidden
  rw [refused] at read
  cases read

end Endpoint

namespace Listing

/-! ## What lines name -/

theorem port?_lt {text : List Char} {port : Nat} (h : port? text = some port) :
    port < 65536 := by
  unfold port? at h
  simp only [Option.ite_none_right_eq_some, Option.some.injEq] at h
  obtain ⟨-, fits, rfl⟩ := h
  exact fits

theorem spec_of_bareEndpoint? {fallback : Transport} {line : List Char} {e : Endpoint}
    (h : bareEndpoint? fallback line = some e) : ':' ∉ e.host.toList ∧ e.port ≤ 65535 := by
  unfold bareEndpoint? at h
  dsimp only at h
  split at h
  · split at h
    · cases h
    · obtain ⟨port, hp, rfl⟩ := Option.map_eq_some_iff.mp h
      refine ⟨fun colon => ?_, Nat.le_of_lt_succ (port?_lt hp)⟩
      have inside := Text.mem_of_mem_trim (by simpa [Endpoint.plain] using colon)
      simpa using List.mem_takeWhile_imp inside
  · cases h

theorem spec_of_addressedEndpoint? {fallback : Transport} {line : List Char} {e : Endpoint}
    (h : addressedEndpoint? fallback line = some e) :
    ∃ url text host, Url.parseChars line = .ok url ∧
      Url.parseHost (SchemeKind.ofScheme url.scheme) text = .ok (some host) ∧
        e.host.toList = host.chars ∧ e.port ≤ 65535 ∧
          e.transport = (Transport.ofScheme? url.scheme).getD fallback := by
  obtain ⟨url, parsed, h⟩ := Option.bind_eq_some_iff.mp h
  obtain ⟨host, hhost, h⟩ := Option.bind_eq_some_iff.mp h
  obtain ⟨port, hport, h⟩ := Option.bind_eq_some_iff.mp h
  have read : Url.parseChars line = .ok url := by
    cases result : Url.parseChars line with
    | error reason => simp [result, Except.toOption] at parsed
    | ok u =>
      obtain rfl : u = url := by simpa [result, Except.toOption] using parsed
      rfl
  obtain ⟨⟨text, hread⟩, fits⟩ := Url.host_of_parseChars read hhost hport
  refine ⟨url, text, host, read, hread, ?_⟩
  dsimp only at h
  split at h
  · obtain rfl := Option.some.inj h
    exact ⟨by simp [Endpoint.plain], fits, rfl⟩
  · obtain rfl := Option.some.inj h
    exact ⟨by simp [Endpoint.plain, Endpoint.withCredentials], fits, rfl⟩

theorem cases_of_endpoint? {fallback : Transport} {line : List Char} {e : Endpoint}
    (h : endpoint? fallback line = some e) :
    (hasSchemeMark (Text.trim line) = true ∧
      addressedEndpoint? fallback (Text.trim line) = some e) ∨
    (hasSchemeMark (Text.trim line) = false ∧
      bareEndpoint? fallback (Text.trim line) = some e) := by
  unfold endpoint? at h
  dsimp only at h
  split at h
  · cases h
  · split at h
    · rename_i mark
      exact .inl ⟨mark, h⟩
    · rename_i mark
      exact .inr ⟨by simpa using mark, h⟩

/-- What a line names has a port of 16 bits and, apart from marks, a host text. -/
theorem spec_of_endpoint? {fallback : Transport} {line : List Char} {e : Endpoint}
    (h : endpoint? fallback line = some e) :
    e.port ≤ 65535 ∧ ((∀ c ∈ e.host.toList, Url.isMark c = false) → IsHostText e.host.toList) := by
  rcases cases_of_endpoint? h with ⟨-, h⟩ | ⟨-, h⟩
  · obtain ⟨url, text, host, -, read, hosted, fits, -⟩ := spec_of_addressedEndpoint? h
    exact ⟨fits, fun _ => hosted ▸ Url.isHostText_chars read⟩
  · obtain ⟨colon, fits⟩ := spec_of_bareEndpoint? h
    exact ⟨fits, fun unmarked => ⟨unmarked, fun there => absurd there colon⟩⟩

/-- The line is an address under a scheme that names a transport. -/
def NamesTransport (line : List Char) : Prop :=
  hasSchemeMark (Text.trim line) = true ∧ ∃ url, Url.parseChars (Text.trim line) = .ok url ∧
    (Transport.ofScheme? url.scheme).isSome = true

theorem schemeKind_of_ofScheme? {scheme : List Char} {t : Transport}
    (lower : scheme.map Char.toLower = scheme) (h : Transport.ofScheme? scheme = some t) :
    t.schemeKind = SchemeKind.ofScheme scheme := by
  have spelled {name : String} (heq : String.ofList scheme = name) : scheme = name.toList := by
    simp [← heq]
  unfold Transport.ofScheme? at h
  rw [lower] at h
  split at h
  case h_7 => cases h
  all_goals
    rename_i named
    obtain rfl := Option.some.inj h
    rw [spelled named]
    decide

theorem usable_of_namesTransport {fallback : Transport} {line : List Char} {e : Endpoint}
    (h : endpoint? fallback line = some e) (named : NamesTransport line) : e.Usable := by
  obtain ⟨mark, url, parsed, known⟩ := named
  rcases cases_of_endpoint? h with ⟨-, h⟩ | ⟨unmarked, -⟩
  · obtain ⟨url', text, host, parsed', read, hosted, fits, transport⟩ :=
      spec_of_addressedEndpoint? h
    obtain rfl : url = url' := Except.ok.inj (parsed.symm.trans parsed')
    obtain ⟨t, ht⟩ := Option.isSome_iff_exists.mp known
    obtain rfl : e.transport = t := by rw [transport, ht, Option.getD_some]
    have hostText : IsHostText e.host.toList := hosted ▸ Url.isHostText_chars read
    refine (Endpoint.usable_iff_hasHost hostText fits).mpr ⟨host, ?_⟩
    rw [hosted, schemeKind_of_ofScheme? (Url.spec_of_parseChars parsed).1 ht]
    exact Url.parseHost_chars read
  · simp [mark] at unmarked

/-- Every endpoint of a listing whose host is in ASCII is usable. -/
def NamesUsable : Prop :=
  ∀ (fallback : Transport) (content : String), ∀ e ∈ parse fallback content,
    (∀ c ∈ e.host.toList, c.toNat < 0x80) → e.Usable

/-- Any text before a colon passes for a host, a blank in it too. -/
theorem not_namesUsable : ¬NamesUsable := by
  intro h
  have named : Endpoint.plain "a b" 80 .http ∈ parse .http "a b:80" := by decide +kernel
  obtain ⟨url, hurl, -⟩ := h .http "a b:80" _ named (forall_mem_of_all (by decide))
  have failed : (Endpoint.plain "a b" 80 .http).url = .error .internationalName := by
    decide +kernel
  rw [failed] at hurl
  cases hurl

/-- Which endpoints of a listing are usable: those of lines that are addresses under the scheme of
a transport. Any other one, if there are no marks in its host, is usable exactly if its host is one
under the scheme of its transport. -/
theorem usable_by_scheme_or_host (fallback : Transport) (content : String) :
    ∀ e ∈ parse fallback content,
      ((∃ line ∈ Text.fields (· == '\n') content.toList,
        endpoint? fallback line = some e ∧ NamesTransport line) → e.Usable) ∧
      ((∀ c ∈ e.host.toList, Url.isMark c = false) → (e.Usable ↔ e.HasHost)) := by
  intro e he
  constructor
  · rintro ⟨line, -, named, transport⟩
    exact usable_of_namesTransport named transport
  · intro unmarked
    obtain ⟨line, -, named⟩ := List.mem_filterMap.mp he
    obtain ⟨fits, hostText⟩ := spec_of_endpoint? named
    exact Endpoint.usable_iff_hasHost (hostText unmarked) fits

/-- An address and a bare line with a blank in its host: both name endpoints. -/
theorem usable_by_scheme_or_host_of_two :
    parse .socks5 "http://a\na b:80" = [.plain "a" 80 .http, .plain "a b" 80 .socks5] ∧
      (Endpoint.plain "a" 80 .http).Usable ∧ ¬(Endpoint.plain "a b" 80 .socks5).Usable := by
  have named : parse .socks5 "http://a\na b:80" =
      [.plain "a" 80 .http, .plain "a b" 80 .socks5] := by decide +kernel
  refine ⟨named, ?_, ?_⟩
  · have first := usable_by_scheme_or_host .socks5 "http://a\na b:80" (.plain "a" 80 .http)
      (by simp [named])
    exact first.1 ⟨"http://a".toList, by decide, by decide +kernel, by decide,
      Transport.http.address (.domain ['a']) 80, by decide +kernel, by decide⟩
  · have second := usable_by_scheme_or_host .socks5 "http://a\na b:80" (.plain "a b" 80 .socks5)
      (by simp [named])
    rw [second.2 (forall_mem_of_all (by decide))]
    rintro ⟨host, read⟩
    have refused : Url.parseHost .other "a b".toList = .error .invalidHostCharacter := by
      decide +kernel
    exact absurd (refused.symm.trans read) (by simp)

end Listing
end ProxyLease
