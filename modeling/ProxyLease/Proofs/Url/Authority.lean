import Mathlib.Data.List.Induction
import Mathlib.Tactic.Common
import ProxyLease.Proofs.Url.Host

/-!
# An authority of credentials, host and port

Credentials that are encoded end at their at sign, and a host text without marks ends before
the colon of its port or where the authority ends. So an authority put together from such
parts is read as these parts, and what follows it is left. A bracket that stays open takes
the port in, but then there is no host either way.
-/

namespace ProxyLease.Url

/-! ## Ports -/

theorem le_ofDigitChars (digits : List Char) (value : Nat) :
    value ≤ Nat.ofDigitChars 10 digits value := by
  rw [Nat.ofDigitChars_eq_ofDigitChars_zero]
  have := Nat.le_mul_of_pos_left value (Nat.pow_pos (n := digits.length) (by decide : 0 < 10))
  omega

theorem parsePort_digits {digits : List Char} (read : Option Nat)
    (some : read ≠ none ∨ digits ≠ [])
    (hd : ∀ c ∈ digits, c.isDigit = true)
    (fits : Nat.ofDigitChars 10 digits (read.getD 0) ≤ 65535) (rest : List Char) :
    parsePort read (digits ++ rest) =
      parsePort (.some (Nat.ofDigitChars 10 digits (read.getD 0))) rest := by
  induction digits generalizing read with
  | nil =>
    obtain ⟨value, rfl⟩ : ∃ value, read = .some value :=
      Option.ne_none_iff_exists'.mp (by simpa using some)
    rfl
  | cons c tail ih =>
    have digit : c.isDigit = true := hd c (by simp)
    rw [Nat.ofDigitChars_cons, Nat.mul_comm] at fits ⊢
    have small := Nat.le_trans (le_ofDigitChars tail _) fits
    have step := ih (.some (read.getD 0 * 10 + (c.toNat - '0'.toNat))) (.inl (by simp))
      (fun d hd' => hd d (by simp [hd'])) fits
    rw [List.cons_append, parsePort, if_pos digit]
    dsimp only
    rw [if_neg (by simpa using small)]
    exact step

theorem parsePort_toDigits {port : Nat} (fits : port ≤ 65535) {rest : List Char}
    (slash : ∀ c, rest.head? = some c → c = '/') :
    parsePort none (Nat.toDigits 10 port ++ rest) = .ok (some port, rest) := by
  have value : Nat.ofDigitChars 10 (Nat.toDigits 10 port) 0 = port :=
    Nat.ofDigitChars_ten_toDigits
  have read := parsePort_digits none (.inr Nat.toDigits_ne_nil)
    (fun c => IPv4.isDigit_of_mem_toDigits) (by simpa [value] using fits) rest
  rw [read, Option.getD_none, value]
  cases rest with
  | nil => rfl
  | cons c tail =>
    obtain rfl := slash c rfl
    rfl

/-! ## Where a host ends -/

/-- Whether a bracket is open after a text. -/
def openAfter (inside : Bool) (text : List Char) : Bool :=
  text.foldl (fun inside c => if c == '[' then true else if c == ']' then false else inside) inside

/-- Nothing ends a host but a colon outside brackets and the end of the authority. -/
theorem splitHost_append {kind : SchemeKind} {inside : Bool} {text : List Char}
    (h : ∀ c ∈ text, c ≠ ':' ∧ endsAuthority kind c = false) (rest : List Char) :
    splitHost kind inside (text ++ rest) =
      (text ++ (splitHost kind (openAfter inside text) rest).1,
        (splitHost kind (openAfter inside text) rest).2) := by
  induction text generalizing inside with
  | nil => rfl
  | cons c front ih =>
    obtain ⟨colon, ends⟩ := h c (by simp)
    have step := @ih (if c == '[' then true else if c == ']' then false else inside)
      fun d hd => h d (by simp [hd])
    rw [List.cons_append, splitHost, if_neg (by simp [colon, ends])]
    dsimp only
    rw [step]
    rfl

/-- What can follow a host: nothing, a colon, or what ends the authority. -/
def EndsHost (kind : SchemeKind) (rest : List Char) : Prop :=
  ∀ c, rest.head? = some c → c = ':' ∨ endsAuthority kind c = true

theorem endsHost_colon (kind : SchemeKind) (rest : List Char) : EndsHost kind (':' :: rest) := by
  intro c hc
  exact .inl (Option.some.inj hc).symm

theorem splitHost_of_endsHost {kind : SchemeKind} {rest : List Char} (h : EndsHost kind rest) :
    splitHost kind false rest = ([], rest) := by
  cases rest with
  | nil => rfl
  | cons c tail =>
    have ends : (c == ':' || endsAuthority kind c) = true := by simpa using h c rfl
    simp [splitHost, ends]

/-- Inside brackets a colon ends nothing. -/
theorem splitHost_inside {kind : SchemeKind} {text : List Char}
    (h : ∀ c ∈ text, c ≠ '[' ∧ c ≠ ']' ∧ endsAuthority kind c = false) (rest : List Char) :
    splitHost kind true (text ++ rest) =
      (text ++ (splitHost kind true rest).1, (splitHost kind true rest).2) := by
  induction text with
  | nil => rfl
  | cons c front ih =>
    obtain ⟨left, right, ends⟩ := h c (by simp)
    have step := ih fun d hd => h d (by simp [hd])
    simp [splitHost, left, right, ends, step]

theorem openAfter_append (inside : Bool) (front : List Char) (c : Char) :
    openAfter inside (front ++ [c]) =
      if c == '[' then true else if c == ']' then false else openAfter inside front := by
  simp only [openAfter, List.foldl_append, List.foldl_cons, List.foldl_nil]

/-- A bracket that is open after a text stands in it, and the text does not end by closing it. -/
theorem bracket_of_openAfter {text : List Char} (h : openAfter false text = true) :
    '[' ∈ text ∧ text.getLast? ≠ some ']' := by
  induction text using List.reverseRecOn with
  | nil => cases h
  | append_singleton front c ih =>
    rw [openAfter_append] at h
    split at h
    · rename_i left
      obtain rfl : c = '[' := by simpa using left
      simp
    · split at h
      · cases h
      · rename_i right
        exact ⟨List.mem_append_left _ (ih h).1, by simpa using right⟩

theorem parseHost_of_bracket (kind : SchemeKind) {text : List Char} (h : '[' ∈ text)
    (last : text.getLast? ≠ some ']') : ∃ e, parseHost kind text = .error e := by
  by_cases head : text.head? = some '['
  · have bracketed : Host.parseBracketed text = .error .invalidIPv6 := by
      unfold Host.parseBracketed
      split
      · rename_i inner reversed
        rw [← List.head?_reverse, reversed] at last
        simp at last
      · rfl
    rw [parseHost_bracketed kind head, bracketed]
    exact ⟨_, rfl⟩
  · exact parseHost_of_forbidden kind head h (by decide)

/-! ## Host texts -/

/-- Characters that mean something in an address wherever its host is to be read. -/
def isMark (c : Char) : Bool := c ∈ ['/', '\\', '?', '#', '@', '\t', '\n', '\r']

theorem isForbidden_of_isMark {c : Char} (h : isMark c = true) : Host.isForbidden c = true := by
  have listed : ∀ c ∈ ['/', '\\', '?', '#', '@', '\t', '\n', '\r'], Host.isForbidden c = true :=
    forall_mem_of_all (by decide)
  exact listed c (by simpa [isMark] using h)

theorem isMark_of_isDigit {c : Char} (h : c.isDigit = true) : isMark c = false := by
  have listed : ∀ c ∈ ['/', '\\', '?', '#', '@', '\t', '\n', '\r'], c.isDigit = false :=
    forall_mem_of_all (by decide)
  cases marked : isMark c with
  | false => rfl
  | true => simp [listed c (by simpa [isMark] using marked)] at h

theorem endsAuthority_eq_false {kind : SchemeKind} {c : Char} (h : isMark c = false) :
    endsAuthority kind c = false := by
  simp [isMark] at h
  simp [endsAuthority, h]

/-- A text that can stand for a host in front of a colon: it holds no marks, and colons only
as the printed form of a numeric host does. -/
structure IsHostText (text : List Char) : Prop where
  unmarked : ∀ c ∈ text, isMark c = false
  numeric : ':' ∈ text → ∃ pieces, text = Host.chars (.ipv6 pieces)

theorem IsHostText.plain {text : List Char} (ht : IsHostText text) (colon : ':' ∉ text)
    (kind : SchemeKind) : ∀ c ∈ text, c ≠ ':' ∧ endsAuthority kind c = false := by
  intro c hc
  exact ⟨fun same => colon (same ▸ hc), endsAuthority_eq_false (ht.unmarked c hc)⟩

theorem isHostText_chars {kind : SchemeKind} {text : List Char} {host : Host}
    (h : parseHost kind text = .ok (some host)) : IsHostText host.chars := by
  cases host with
  | domain name =>
    have read : parseHost kind name = .ok (some (.domain name)) := parseHost_chars h
    have head : name.head? ≠ some '[' := by
      intro bracket
      rw [parseHost_bracketed kind bracket] at read
      cases inner : Host.parseBracketed name with
      | error e => simp [inner, Except.map] at read
      | ok host =>
        obtain ⟨pieces, rfl, -⟩ := Host.parseBracketed_spec inner
        simp [inner, Except.map] at read
    have allowed : ∀ c ∈ name, Host.isForbidden c = false := by
      intro c hc
      by_contra forbidden
      obtain ⟨e, refused⟩ := parseHost_of_forbidden kind head hc (by simpa using forbidden)
      rw [refused] at read
      cases read
    constructor
    · intro c hc
      by_contra marked
      have forbidden := isForbidden_of_isMark (c := c) (by simpa using marked)
      simp [allowed c hc] at forbidden
    · intro colon
      exact absurd (allowed ':' colon) (by decide)
  | ipv4 value =>
    constructor
    · intro c hc
      rcases IPv4.digit_or_dot_of_mem_text hc with digit | rfl
      · exact isMark_of_isDigit digit
      · decide
    · intro colon
      exact absurd (IPv4.digit_or_dot_of_mem_text colon) (by decide)
  | ipv6 pieces =>
    refine ⟨?_, fun _ => ⟨pieces, rfl⟩⟩
    have digit : ∀ d < 16, isMark (Nat.digitChar d) = false := by decide
    intro c hc
    rcases (by simpa [Host.chars] using hc : c = '[' ∨ c ∈ IPv6.text pieces ∨ c = ']') with
      rfl | inner | rfl
    · decide
    · rcases IPv6.colon_or_digit_of_mem_text inner with rfl | ⟨d, hd, rfl⟩
      · decide
      · exact digit d hd
    · decide

/-! ## Credentials -/

theorem plain_of_userinfo {c : Char} (h : Percent.userinfo c = false) :
    (c == ':') = false ∧ (c == '@') = false ∧ isMark c = false := by
  have listed : ∀ c ∈ [':', '@', '/', '\\', '?', '#', '\t', '\n', '\r'],
      Percent.userinfo c = true := forall_mem_of_all (by decide)
  have apart : c ∉ [':', '@', '/', '\\', '?', '#', '\t', '\n', '\r'] := by
    intro hc
    simp [listed c hc] at h
  simp only [List.mem_cons, List.not_mem_nil, or_false, not_or] at apart
  simp [isMark, apart]

/-- Credentials as reading leaves them: they are encoded, and an empty password is none. -/
structure HasEncodedLogin (a : Authority) : Prop where
  username : ∀ c ∈ a.username, Percent.userinfo c = false
  password : ∀ secret, a.password = some secret →
    secret ≠ [] ∧ ∀ c ∈ secret, Percent.userinfo c = false

theorem hasEncodedLogin_credentials (userinfo : List Char) (host : Option Host)
    (port : Option Nat) :
    HasEncodedLogin ⟨(credentials userinfo).1, (credentials userinfo).2, host, port⟩ := by
  have digit : ∀ n < 16, Percent.userinfo (Percent.hexDigit n) = false := by decide
  have encoded {text : List Char} : ∀ c ∈ Percent.encode Percent.userinfo text,
      Percent.userinfo c = false := by
    intro c hc
    rcases Percent.cases_of_mem_encode hc with rfl | ⟨n, hn, rfl⟩ | ⟨-, kept⟩
    · decide
    · exact digit n hn
    · exact kept
  unfold credentials
  dsimp only
  split
  · exact ⟨fun c hc => encoded c hc, by simp⟩
  · rename_i text some
    refine ⟨fun c hc => encoded c hc, fun secret hs => ?_⟩
    obtain rfl := Option.some.inj hs
    exact ⟨Percent.encode_ne_nil some, fun c hc => encoded c hc⟩

/-- User name and password as they stand before an at sign. -/
def userinfoChars (a : Authority) : List Char :=
  a.username ++ (a.password.map (':' :: ·)).getD []

theorem credentialChars_eq (a : Authority) :
    credentialChars a = if userinfoChars a = [] then [] else userinfoChars a ++ ['@'] := by
  obtain ⟨name, secret, host, port⟩ := a
  cases secret <;> cases name <;> simp [credentialChars, userinfoChars]

theorem credentials_userinfoChars {a : Authority} (h : HasEncodedLogin a) :
    credentials (userinfoChars a) = (a.username, a.password) := by
  have name : ∀ c ∈ a.username, (c != ':') = true := fun c hc => by
    rw [bne, (plain_of_userinfo (h.username c hc)).1]
    rfl
  have kept := Percent.encode_eq_self h.username
  unfold credentials userinfoChars
  rw [List.takeWhile_append_of_pos name, List.dropWhile_append_of_pos name]
  cases secret : a.password with
  | none => simp [kept]
  | some text =>
    obtain ⟨some, encoded⟩ := h.password text secret
    obtain ⟨c, rest, rfl⟩ := List.exists_cons_of_ne_nil some
    have same := Percent.encode_eq_self encoded
    simpa [kept] using same

theorem plain_of_mem_userinfoChars {a : Authority} (h : HasEncodedLogin a) {c : Char}
    (hc : c ∈ userinfoChars a) : (c == '@') = false ∧ isMark c = false := by
  rcases List.mem_append.mp hc with hc | hc
  · exact (plain_of_userinfo (h.username c hc)).2
  · cases secret : a.password with
    | none => simp [secret] at hc
    | some text =>
      rcases (by simpa [secret] using hc : c = ':' ∨ c ∈ text) with rfl | hc
      · decide
      · exact (plain_of_userinfo ((h.password text secret).2 c hc)).2

theorem splitUserinfo?_eq_none {kind : SchemeKind} {text : List Char} (h : '@' ∉ text) :
    splitUserinfo? kind text = none := by
  have nothing : ((text.takeWhile fun c => !endsAuthority kind c).reverse).dropWhile (· != '@') =
      [] := by
    refine List.dropWhile_eq_nil_iff.mpr fun c hc => ?_
    have : c ∈ text := (List.takeWhile_sublist _).mem (List.mem_reverse.mp hc)
    rw [bne_iff_ne]
    rintro rfl
    exact h this
  simp only [splitUserinfo?, nothing]

theorem splitUserinfo?_append {kind : SchemeKind} {info rest : List Char}
    (inside : ∀ c ∈ info, isMark c = false) (sign : '@' ∉ rest) :
    splitUserinfo? kind (info ++ '@' :: rest) = some (info, rest) := by
  have within : ∀ c ∈ info ++ ['@'], (!endsAuthority kind c) = true := by
    intro c hc
    rcases List.mem_append.mp hc with hc | hc
    · have outside : endsAuthority kind c = false := endsAuthority_eq_false (inside c hc)
      simp [outside]
    · obtain rfl := List.mem_singleton.mp hc
      cases kind <;> decide
  have behind : ∀ c ∈ (rest.takeWhile fun c => !endsAuthority kind c).reverse,
      (c != '@') = true := by
    intro c hc
    have : c ∈ rest := (List.takeWhile_sublist _).mem (List.mem_reverse.mp hc)
    rw [bne_iff_ne]
    rintro rfl
    exact sign this
  have whole : info ++ '@' :: rest = info ++ ['@'] ++ rest := by simp
  unfold splitUserinfo?
  dsimp only
  rw [whole, List.takeWhile_append_of_pos within, List.dropWhile_append_of_pos within,
    List.reverse_append, List.dropWhile_append_of_pos behind, List.takeWhile_append_of_pos behind,
    List.reverse_append]
  simp

theorem splitUserinfo?_credentialChars (kind : SchemeKind) {a : Authority} {rest : List Char}
    (login : HasEncodedLogin a) (sign : '@' ∉ rest) :
    (splitUserinfo? kind (credentialChars a ++ rest)).getD ([], credentialChars a ++ rest) =
        (userinfoChars a, rest) ∧
      ((splitUserinfo? kind (credentialChars a ++ rest)).isSome &&
        decide (userinfoChars a = [])) = false := by
  rw [credentialChars_eq]
  split
  · rename_i anonymous
    rw [List.nil_append, splitUserinfo?_eq_none sign, anonymous]
    exact ⟨rfl, rfl⟩
  · rename_i named
    rw [List.append_assoc, List.singleton_append,
      splitUserinfo?_append (fun c hc => (plain_of_mem_userinfoChars login hc).2) sign]
    exact ⟨rfl, by simp [named]⟩

/-! ## Host and port -/

section HostPort

variable (kind : SchemeKind) {text digits : List Char}

theorem plain_of_mem_port (hd : ∀ c ∈ digits, c.isDigit = true) :
    ∀ c ∈ ':' :: digits, c ≠ '[' ∧ c ≠ ']' ∧ endsAuthority kind c = false := by
  intro c hc
  rcases List.mem_cons.mp hc with rfl | hc
  · exact ⟨by decide, by decide, endsAuthority_eq_false (by decide)⟩
  · have digit := hd c hc
    refine ⟨?_, ?_, endsAuthority_eq_false (isMark_of_isDigit digit)⟩
    · rintro rfl
      exact absurd digit (by decide)
    · rintro rfl
      exact absurd digit (by decide)

theorem splitHost_numeric {pieces : List Nat} (ht : IsHostText (Host.chars (.ipv6 pieces)))
    {rest : List Char} (ends : EndsHost kind rest) :
    splitHost kind false (Host.chars (.ipv6 pieces) ++ rest) =
      (Host.chars (.ipv6 pieces), rest) := by
  have inner : ∀ c ∈ IPv6.text pieces, c ≠ '[' ∧ c ≠ ']' ∧ endsAuthority kind c = false := by
    intro c hc
    have unmarked := ht.unmarked c (by simp [Host.chars, hc])
    have brackets : ∀ d < 16, Nat.digitChar d ≠ '[' ∧ Nat.digitChar d ≠ ']' := by decide
    rcases IPv6.colon_or_digit_of_mem_text hc with rfl | ⟨d, hd, rfl⟩
    · exact ⟨by decide, by decide, endsAuthority_eq_false unmarked⟩
    · exact ⟨(brackets d hd).1, (brackets d hd).2, endsAuthority_eq_false unmarked⟩
  have left : endsAuthority kind '[' = false := endsAuthority_eq_false (by decide)
  have right : endsAuthority kind ']' = false := endsAuthority_eq_false (by decide)
  have closed : splitHost kind true (']' :: rest) = ([']'], rest) := by
    simp [splitHost, right, splitHost_of_endsHost ends]
  have through := splitHost_inside inner (']' :: rest)
  rw [closed] at through
  simp only [Host.chars, List.cons_append, List.append_assoc, List.nil_append]
  simp [splitHost, left, through]

theorem splitHost_of_host (ht : IsHostText text) {host : Host}
    (read : parseHost kind text = .ok (some host)) {rest : List Char} (ends : EndsHost kind rest) :
    splitHost kind false (text ++ rest) = (text, rest) := by
  by_cases colon : ':' ∈ text
  · obtain ⟨pieces, rfl⟩ := ht.numeric colon
    exact splitHost_numeric kind ht ends
  · have closed : openAfter false text = false := by
      rw [← Bool.not_eq_true]
      intro opened
      obtain ⟨bracket, last⟩ := bracket_of_openAfter opened
      obtain ⟨e, refused⟩ := parseHost_of_bracket kind bracket last
      rw [refused] at read
      cases read
    rw [splitHost_append (ht.plain colon kind), closed, splitHost_of_endsHost ends,
      List.append_nil]

/-- The host ends before the colon, or a bracket takes in the port and there is no host. -/
theorem splitHost_colon (ht : IsHostText text) (hd : ∀ c ∈ digits, c.isDigit = true) :
    splitHost kind false (text ++ ':' :: digits) = (text, ':' :: digits) ∨
      (∃ e, parseHost kind text = .error e) ∧
        ∃ e, parseHost kind (splitHost kind false (text ++ ':' :: digits)).1 = .error e := by
  by_cases colon : ':' ∈ text
  · obtain ⟨pieces, rfl⟩ := ht.numeric colon
    exact .inl (splitHost_numeric kind ht (endsHost_colon kind digits))
  · rw [splitHost_append (ht.plain colon kind)]
    cases bracket : openAfter false text with
    | false => simp [splitHost]
    | true =>
      have port := plain_of_mem_port kind hd
      obtain ⟨left, last⟩ := bracket_of_openAfter bracket
      have swallowed : splitHost kind true (':' :: digits) = (':' :: digits, []) := by
        simpa [splitHost] using splitHost_inside port []
      have lastOfAll : (text ++ ':' :: digits).getLast? ≠ some ']' := by
        rw [List.getLast?_append_cons]
        intro closed
        exact absurd rfl (port ']' (List.mem_of_getLast? closed)).2.1
      rw [swallowed]
      exact .inr ⟨parseHost_of_bracket kind left last,
        parseHost_of_bracket kind (by simp [left]) lastOfAll⟩

/-- A port as it stands after a host. -/
def portChars : Option Nat → List Char
  | none => []
  | some port => ':' :: Nat.toDigits 10 port

theorem sign_not_mem_portChars (port : Option Nat) : '@' ∉ portChars port := by
  cases port with
  | none => simp [portChars]
  | some n =>
    intro sign
    rcases List.mem_cons.mp sign with same | digit
    · exact absurd same (by decide)
    · exact absurd (IPv4.isDigit_of_mem_toDigits digit) (by decide)

theorem endsHost_portChars (port : Option Nat) {rest : List Char}
    (slash : ∀ c, rest.head? = some c → c = '/') : EndsHost kind (portChars port ++ rest) := by
  cases port with
  | none =>
    intro c hc
    obtain rfl := slash c hc
    exact .inr (by cases kind <;> decide)
  | some n => exact endsHost_colon kind (Nat.toDigits 10 n ++ rest)

/-- Encoded credentials, a host and a port are read as what they are, except that a port is not
named if the scheme means it anyway. -/
theorem parseAuthority_parts (scheme : List Char) {a : Authority} (login : HasEncodedLogin a)
    (ht : IsHostText text) {host : Host} (read : parseHost kind text = .ok (some host))
    (hosted : a.host = some host) (fits : ∀ n, a.port = some n → n ≤ 65535) {rest : List Char}
    (end_ : rest = [] ∨ rest = ['/']) :
    parseAuthority scheme kind (credentialChars a ++ (text ++ (portChars a.port ++ rest))) =
      .ok ({ a with port := if a.port = defaultPort? scheme then none else a.port }, rest) := by
  have slash : ∀ c, rest.head? = some c → c = '/' := by
    intro c hc
    rcases end_ with rfl | rfl
    · cases hc
    · exact (Option.some.inj hc).symm
  have sign : '@' ∉ text ++ (portChars a.port ++ rest) := by
    simp only [List.mem_append, not_or]
    refine ⟨fun inside => absurd (ht.unmarked '@' inside) (by decide), sign_not_mem_portChars _, ?_⟩
    rcases end_ with rfl | rfl <;> decide
  obtain ⟨user, named⟩ := splitUserinfo?_credentialChars kind login sign
  have cut := splitHost_of_host kind ht read (endsHost_portChars kind a.port slash)
  have same (port : Option Nat) :
      (⟨a.username, a.password, some host, port⟩ : Authority) = { a with port } := by
    rw [← hosted]
  unfold parseAuthority
  rw [user]
  dsimp only
  rw [named, credentials_userinfoChars login]
  dsimp only
  rw [cut]
  dsimp only
  rw [read, if_neg (by simp)]
  cases named : a.port with
  | none =>
    rcases end_ with rfl | rfl <;>
      simp [portChars, bind, Except.bind, pure, Except.pure, same]
  | some n =>
    have port := parsePort_toDigits (fits n named) slash
    simp [portChars, port, bind, Except.bind, pure, Except.pure, same]

/-- The authority of a host and a port: the port is not named if the scheme means it anyway. -/
def hostPort (scheme : List Char) (host : Host) (port : Nat) : Authority :=
  ⟨[], none, some host, if some port = defaultPort? scheme then none else some port⟩

theorem parseAuthority_hostPort (scheme : List Char) (ht : IsHostText text) {port : Nat}
    (fits : port ≤ 65535) :
    (∀ host, parseHost kind text = .ok (some host) →
      parseAuthority scheme kind (text ++ ':' :: Nat.toDigits 10 port) =
        .ok (hostPort scheme host port, [])) ∧
    ((∀ host, parseHost kind text ≠ .ok (some host)) →
      ∃ e, parseAuthority scheme kind (text ++ ':' :: Nat.toDigits 10 port) = .error e) := by
  constructor
  · intro host read
    have anonymous : HasEncodedLogin ⟨[], none, some host, some port⟩ := ⟨by simp, by simp⟩
    have parts := parseAuthority_parts kind scheme anonymous ht read rfl
      (by simpa using fits) (.inl rfl)
    simpa [credentialChars, portChars, hostPort] using parts
  · intro noHost
    have digits : ∀ c ∈ Nat.toDigits 10 port, c.isDigit = true := fun c =>
      IPv4.isDigit_of_mem_toDigits
    have noUser : splitUserinfo? kind (text ++ ':' :: Nat.toDigits 10 port) = none := by
      refine splitUserinfo?_eq_none fun sign => ?_
      rcases List.mem_append.mp sign with sign | sign
      · exact absurd (ht.unmarked '@' sign) (by decide)
      · exact sign_not_mem_portChars (some port) sign
    have plain : credentials [] = ([], none) := rfl
    rcases splitHost_colon kind ht digits with cut | ⟨-, e, refused⟩
    · cases read : parseHost kind text with
      | error e =>
        refine ⟨e, ?_⟩
        simp only [parseAuthority, noUser, Option.getD_none, plain, cut, read]
        rfl
      | ok host =>
        cases host with
        | none =>
          refine ⟨.emptyHost, ?_⟩
          simp only [parseAuthority, noUser, Option.getD_none, plain, cut, read]
          rfl
        | some host => exact absurd read (noHost host)
    · refine ⟨e, ?_⟩
      simp only [parseAuthority, noUser, Option.getD_none, plain, refused]
      rfl

end HostPort

end ProxyLease.Url
