import Mathlib.Tactic.Common
import ProxyLease.Proofs.Url.Members
import ProxyLease.Proofs.Url.Punycode
import ProxyLease.Url.International

/-!
# Names in ASCII

A name in ASCII has no capitals, whatever the name was, and it stands for itself: every
marked label in it is read as the label that it was written for. Plain characters that mean
nothing to the preparation are carried over.
-/

namespace ProxyLease.International

/-- A character of a prepared name: ASCII and no capital. -/
def IsSmall (c : Char) : Prop := c.toNat < 0x80 ∧ c.toLower = c

instance : DecidablePred IsSmall := fun c =>
  inferInstanceAs (Decidable (c.toNat < 0x80 ∧ c.toLower = c))

/-- A fact about ASCII characters is a fact about 128 codes. -/
theorem forall_ascii {p : Char → Prop} (h : ∀ n < 0x80, p (Char.ofNat n)) {c : Char}
    (hc : c.toNat < 0x80) : p c := by
  have := h c.toNat hc
  rwa [Char.ofNat_toNat] at this

theorem isSmall_toLower {c : Char} (hc : c.toNat < 0x80) : IsSmall c.toLower :=
  forall_ascii (p := fun c => IsSmall c.toLower) (by decide) hc

/-! ## Small letters -/

theorem capitalRuns_ascii :
    ∀ r ∈ Text.capitalRuns, r.last < 0x80 ∨ 0x80 ≤ r.first + r.offset := by
  decide

/-- A code beyond ASCII stands for no ASCII character, unless it is no code at all. -/
theorem ofNat_eq_zero {n : Nat} (hn : 0x80 ≤ n) (h : (Char.ofNat n).toNat < 0x80) :
    Char.ofNat n = '\x00' := by
  by_cases valid : n.isValidChar
  · have code : (Char.ofNat n).toNat = n := by rw [Char.ofNat, dif_pos valid]; rfl
    omega
  · exact dif_neg valid

theorem isSmall_smallLetter {c : Char} (h : (Text.smallLetter c).toNat < 0x80) :
    IsSmall (Text.smallLetter c) := by
  by_cases ascii : c.toNat < 0x80
  · exact forall_ascii (p := fun c => IsSmall (Text.smallLetter c)) (by decide +kernel) ascii
  · unfold Text.smallLetter at h ⊢
    split at h
    · rename_i r found
      have holds := List.find?_some found
      have side := capitalRuns_ascii r (List.mem_of_find?_eq_some found)
      simp only [Text.CapitalRun.holds, Bool.and_eq_true, decide_eq_true_eq] at holds
      have beyond : 0x80 ≤ (c.toNat + r.offset).toNat := by omega
      rw [ofNat_eq_zero beyond h]
      decide
    · exact absurd h ascii

theorem isSmall_of_prepare? {c d : Char} {text : List Char} (h : prepare? c = some text)
    (hd : d ∈ text) (ascii : d.toNat < 0x80) : IsSmall d := by
  unfold prepare? at h
  split at h
  · obtain rfl := Option.some.inj h
    simp at hd
  · split at h
    · cases h
    · split at h
      · obtain rfl := Option.some.inj h
        obtain rfl : d = '.' := by simpa using hd
        decide
      · obtain rfl := Option.some.inj h
        obtain rfl : d = _ := by simpa using hd
        exact isSmall_smallLetter ascii

/-! ## Labels in ASCII -/

theorem isSmall_of_digit {c : Char} (h : (Punycode.digitValue? c).isSome) : IsSmall c := by
  have ascii : c.toNat < 0x80 := by
    unfold Punycode.digitValue? at h
    split at h
    · omega
    · split at h
      · omega
      · cases h
  exact forall_ascii (p := fun c => (Punycode.digitValue? c).isSome → IsSmall c) (by decide) ascii h

theorem cases_of_labelText? {label out : List Char} (h : labelText? label = some out) :
    (out = label ∧ label.all Punycode.isBasic = true) ∨
      (out = mark ++ Punycode.encode label ∧
        label.all Punycode.isBasic = false ∧ isSettled label = true) := by
  unfold labelText? at h
  split at h
  · rename_i basic
    split at h
    · cases h
    · exact .inl ⟨(Option.some.inj h).symm, basic⟩
  · rename_i beyond
    split at h
    · rename_i settled
      exact .inr ⟨(Option.some.inj h).symm, by simpa using beyond, settled⟩
    · cases h

/-- What is new in a label in ASCII is a mark, a hyphen or a digit. -/
theorem cases_of_mem_labelText? {label out : List Char} {c : Char}
    (h : labelText? label = some out) (hc : c ∈ out) :
    (c ∈ label ∧ c.toNat < 0x80) ∨ c ∈ mark ∨ (Punycode.digitValue? c).isSome := by
  rcases cases_of_labelText? h with ⟨rfl, basic⟩ | ⟨rfl, -, -⟩
  · exact .inl ⟨hc, by simpa [Punycode.isBasic] using List.all_eq_true.mp basic c hc⟩
  · rcases List.mem_append.mp hc with mark | hc
    · exact .inr (.inl mark)
    · rcases Punycode.cases_of_mem_encode hc with inside | rfl | digit
      · exact .inl inside
      · exact .inr (.inl (by decide))
      · exact .inr (.inr digit)

theorem isSmall_of_mem_labelText? {label out : List Char} {c : Char}
    (small : ∀ d ∈ label, d.toNat < 0x80 → IsSmall d) (h : labelText? label = some out)
    (hc : c ∈ out) : IsSmall c := by
  rcases cases_of_mem_labelText? h hc with ⟨inside, ascii⟩ | mark | digit
  · exact small c inside ascii
  · exact forall_mem_of_all (p := IsSmall) (by decide) c mark
  · exact isSmall_of_digit digit

theorem not_dot_of_mem_labelText? {label out : List Char} {c : Char}
    (plain : ∀ d ∈ label, (d == '.') = false) (h : labelText? label = some out) (hc : c ∈ out) :
    (c == '.') = false := by
  rcases cases_of_mem_labelText? h hc with ⟨inside, -⟩ | mark | digit
  · exact plain c inside
  · exact forall_mem_of_all (p := fun c => (c == '.') = false) (by decide) c mark
  · refine beq_eq_false_iff_ne.mpr ?_
    rintro rfl
    exact absurd digit (by decide)

theorem mem_labelText? {label out : List Char} {c : Char} (h : labelText? label = some out)
    (hc : c ∈ label) (ascii : c.toNat < 0x80) : c ∈ out := by
  rcases cases_of_labelText? h with ⟨rfl, -⟩ | ⟨rfl, -, -⟩
  · exact hc
  · have basic : c ∈ label.filter Punycode.isBasic :=
      List.mem_filter.mpr ⟨hc, by simpa [Punycode.isBasic] using ascii⟩
    have some : label.filter Punycode.isBasic ≠ [] := List.ne_nil_of_mem basic
    simp only [Punycode.encode, some, if_false]
    simp [basic]

/-- A label in ASCII is one that names can hold, and stands for itself. -/
theorem labelText?_self {label out : List Char} (h : labelText? label = some out) :
    labelText? out = some out := by
  rcases cases_of_labelText? h with ⟨rfl, -⟩ | ⟨rfl, beyond, settled⟩
  · exact h
  · have basic : (mark ++ Punycode.encode label).all Punycode.isBasic = true := by
      refine List.all_eq_true.mpr fun c hc => ?_
      rcases cases_of_mem_labelText? h hc with ⟨-, ascii⟩ | mark | digit
      · simpa [Punycode.isBasic] using ascii
      · exact forall_mem_of_all (p := fun c => Punycode.isBasic c = true) (by decide) c mark
      · simpa [Punycode.isBasic] using (isSmall_of_digit digit).1
    have encoded : isEncoded (mark ++ Punycode.encode label) = true := by
      simp [isEncoded, mark, Punycode.decode?_encode, beyond, settled]
    rw [labelText?, if_pos basic, encoded, Bool.not_true, Bool.and_false, if_neg (by decide)]

example : labelText? (mark ++ ['a']) = none := by decide

theorem labelText?_of_plain {label : List Char} (basic : ∀ c ∈ label, c.toNat < 0x80)
    (unmarked : isMarked label = false) : labelText? label = some label := by
  have basic : label.all Punycode.isBasic = true :=
    List.all_eq_true.mpr fun c hc => by simpa [Punycode.isBasic] using basic c hc
  simp [labelText?, basic, unmarked]

/-! ## Names -/

theorem exists_of_asciiText? {prepared out : List Char} (h : asciiText? prepared = some out) :
    ∃ labels, (Text.fields (· == '.') prepared).mapM labelText? = some labels ∧
      out = (labels.intersperse ['.']).flatten := by
  obtain ⟨labels, read, rfl⟩ := Option.map_eq_some_iff.mp h
  exact ⟨labels, read, rfl⟩

theorem isSmall_of_mem_asciiText? {prepared out : List Char}
    (small : ∀ d ∈ prepared, d.toNat < 0x80 → IsSmall d) (h : asciiText? prepared = some out)
    {c : Char} (hc : c ∈ out) : IsSmall c := by
  obtain ⟨labels, read, rfl⟩ := exists_of_asciiText? h
  obtain ⟨text, ht, hc⟩ := List.mem_flatten.mp hc
  rcases eq_or_mem_of_mem_intersperse ht with rfl | ht
  · obtain rfl : c = '.' := by simpa using hc
    decide
  · obtain ⟨label, hl, made⟩ := exists_of_mem_mapM read ht
    exact isSmall_of_mem_labelText? (fun d hd => small d (Text.mem_of_mem_fields hl hd)) made hc

theorem mem_of_asciiText? {prepared out : List Char} (h : asciiText? prepared = some out)
    {c : Char} (hc : c ∈ prepared) (ascii : c.toNat < 0x80) (inside : (c == '.') = false) :
    c ∈ out := by
  obtain ⟨labels, read, rfl⟩ := exists_of_asciiText? h
  obtain ⟨label, hl, hcl⟩ : ∃ label ∈ Text.fields (· == '.') prepared, c ∈ label :=
    Text.exists_field_of_mem hc inside
  obtain ⟨text, ht, made⟩ := exists_mem_of_mapM read hl
  exact List.mem_flatten.mpr ⟨text, mem_intersperse_of_mem ht, mem_labelText? made hcl ascii⟩

theorem asciiText?_of_labels {text : List Char}
    (h : ∀ label ∈ Text.fields (· == '.') text, labelText? label = some label) :
    asciiText? text = some text := by
  have labels : (Text.fields (· == '.') text).mapM labelText? =
      some (Text.fields (· == '.') text) := mapM_eq_self h
  rw [asciiText?, labels, Option.map_some, Text.flatten_intersperse_fields]

theorem asciiText?_self {prepared out : List Char} (h : asciiText? prepared = some out) :
    asciiText? out = some out := by
  obtain ⟨labels, read, rfl⟩ := exists_of_asciiText? h
  have pairs := forall₂_of_mapM read
  have some : labels ≠ [] := by
    rintro rfl
    exact Text.fields_ne_nil _ _ (List.forall₂_nil_right_iff.mp pairs)
  have fields : Text.fields (· == '.') (labels.intersperse ['.']).flatten = labels := by
    refine Text.fields_flatten_intersperse some fun label hl c hc => ?_
    obtain ⟨own, ho, made⟩ := exists_of_mem_mapM read hl
    exact not_dot_of_mem_labelText? (fun d => Text.not_separator_of_mem_fields ho) made hc
  refine asciiText?_of_labels fun label hl => ?_
  rw [fields] at hl
  obtain ⟨own, -, made⟩ := exists_of_mem_mapM read hl
  exact labelText?_self made

theorem exists_of_asciiName? {name out : List Char} (h : asciiName? name = some out) :
    ∃ prepared, name.mapM prepare? = some prepared ∧ asciiText? prepared.flatten = some out :=
  Option.bind_eq_some_iff.mp h

theorem isSmall_of_mem_prepared {name : List Char} {prepared : List (List Char)}
    (h : name.mapM prepare? = some prepared) {c : Char} (hc : c ∈ prepared.flatten)
    (ascii : c.toNat < 0x80) : IsSmall c := by
  obtain ⟨form, hf, hcf⟩ := List.mem_flatten.mp hc
  obtain ⟨d, -, hd⟩ := exists_of_mem_mapM h hf
  exact isSmall_of_prepare? hd hcf ascii

theorem mem_of_asciiName? {name out : List Char} (h : asciiName? name = some out)
    {c : Char} (hc : c ∈ name) (ascii : c.toNat < 0x80) (kept : prepare? c = some [c])
    (inside : (c == '.') = false) : c ∈ out := by
  obtain ⟨prepared, hp, h⟩ := exists_of_asciiName? h
  obtain ⟨form, hf, hcf⟩ := exists_mem_of_mapM hp hc
  obtain rfl : [c] = form := Option.some.inj (kept.symm.trans hcf)
  exact mem_of_asciiText? h (List.mem_flatten.mpr ⟨[c], hf, by simp⟩) ascii inside

end ProxyLease.International
