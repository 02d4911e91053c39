import Mathlib.Data.List.Sort
import Mathlib.Data.List.TakeDrop
import Mathlib.Tactic.Ring
import ProxyLease.Url.Punycode

/-!
# Labels are read back

Whatever a label holds, its written form is read as that label. The numbers are read as
they were written; putting characters in by them goes through the same codes and places as
the search that found the numbers.
-/

namespace ProxyLease.Punycode

/-! ## Numbers -/

theorem threshold_le (k bias : Nat) : threshold k bias ≤ 26 :=
  Nat.max_le.mpr ⟨by decide, Nat.min_le_left _ _⟩

theorem digitValue?_digitChar {d : Nat} (h : d < 36) : digitValue? (digitChar d) = some d := by
  have every : ∀ d < 36, digitValue? (digitChar d) = some d := by decide
  exact every d h

theorem isSome_digitValue?_of_mem_digits {bias k n : Nat} {c : Char} (h : c ∈ digits bias k n) :
    (digitValue? c).isSome := by
  have isDigit {d : Nat} (hd : d < 36) : (digitValue? (digitChar d)).isSome := by
    simp [digitValue?_digitChar hd]
  fun_induction digits bias k n with
  | case1 k n t less =>
    have := threshold_le k bias
    obtain rfl := List.mem_singleton.mp h
    exact isDigit (by omega)
  | case2 k n t less ih =>
    have low := threshold_le k bias
    rcases List.mem_cons.mp h with rfl | h
    · have := Nat.mod_lt (n - t) (y := 36 - t) (by omega)
      exact isDigit (by omega)
    · exact ih h

theorem isSome_digitValue?_of_mem_write {basic bias written : Nat} {numbers : List Nat} {c : Char}
    (h : c ∈ write basic bias written numbers) : (digitValue? c).isSome := by
  induction numbers generalizing bias written with
  | nil => simp [write] at h
  | cons n rest ih =>
    rcases List.mem_append.mp h with h | h
    · exact isSome_digitValue?_of_mem_digits h
    · exact ih h

/-- The digits of a number are read as what is left of it, and nothing that follows is. -/
theorem read?_digits (basic bias written k unit sum n : Nat) (rest : List Char) :
    read? basic bias written k unit sum (digits bias k n ++ rest) =
      (read? basic (adapt (sum + n * unit) (written + 1) (written == basic)) (written + 1) 36 1 0
        rest).map ((sum + n * unit) :: ·) := by
  fun_induction digits bias k n generalizing unit sum with
  | case1 k n t less =>
    have := threshold_le k bias
    have digit := digitValue?_digitChar (d := n) (by omega)
    simp only [List.singleton_append, read?, digit, Option.bind_eq_bind, Option.bind_some]
    rw [if_pos less]
  | case2 k n t more ih =>
    have low := threshold_le k bias
    have fits := Nat.mod_lt (n - t) (y := 36 - t) (by omega)
    have digit := digitValue?_digitChar (d := t + (n - t) % (36 - t)) (by omega)
    have value : sum + (t + (n - t) % (36 - t)) * unit + (n - t) / (36 - t) * (unit * (36 - t)) =
        sum + n * unit := by
      have parts : t + (n - t) % (36 - t) + (36 - t) * ((n - t) / (36 - t)) = n := by
        have := Nat.mod_add_div (n - t) (36 - t)
        omega
      calc sum + (t + (n - t) % (36 - t)) * unit + (n - t) / (36 - t) * (unit * (36 - t))
          = sum + (t + (n - t) % (36 - t) + (36 - t) * ((n - t) / (36 - t))) * unit := by ring
        _ = sum + n * unit := by rw [parts]
    simp only [List.cons_append, read?, digit, Option.bind_eq_bind, Option.bind_some]
    rw [if_neg (by omega), ih, value]

theorem read?_write (basic bias written : Nat) (numbers : List Nat) :
    read? basic bias written 36 1 0 (write basic bias written numbers) = some numbers := by
  induction numbers generalizing bias written with
  | nil => rfl
  | cons n rest ih =>
    rw [write, read?_digits, Nat.zero_add, Nat.mul_one, ih]
    rfl

/-! ## Places -/

/-- The places passed over are as many as lead to the place where the character belongs. -/
theorem Insertion.next?_eq {s : Insertion} {n code place : Nat} (valid : code.isValidChar)
    (inside : place ≤ s.text.length)
    (gap : s.code * (s.text.length + 1) + s.place + n = code * (s.text.length + 1) + place) :
    s.next? n = some ⟨code, place + 1, s.text.insertIdx place (Char.ofNat code)⟩ := by
  have passed : (s.text.length + 1) * s.code + (s.place + n) =
      place + (s.text.length + 1) * code := by
    rw [Nat.mul_comm _ s.code, Nat.mul_comm _ code]
    omega
  have reached := (Nat.div_mod_unique (Nat.succ_pos s.text.length)).mpr
    ⟨passed.symm, Nat.lt_succ_of_le inside⟩
  rw [Nat.mul_add_div (Nat.succ_pos _), Nat.mul_add_mod] at reached
  obtain ⟨codes, places⟩ := reached
  unfold next?
  dsimp only
  rw [codes, places, if_pos valid]

theorem Insertion.length_next? {s t : Insertion} {n : Nat} (h : s.next? n = some t) :
    t.text.length = s.text.length + 1 := by
  unfold next? at h
  dsimp only at h
  split at h
  · obtain rfl := Option.some.inj h
    have := Nat.mod_lt (s.place + n) (y := s.text.length + 1) (by omega)
    exact List.length_insertIdx_of_le_length (by omega) _
  · cases h

theorem Insertion.length_foldlM {s t : Insertion} {numbers : List Nat}
    (h : numbers.foldlM next? s = some t) :
    t.text.length = s.text.length + numbers.length := by
  induction numbers generalizing s with
  | nil =>
    obtain rfl := Option.some.inj h
    rfl
  | cons n rest ih =>
    obtain ⟨between, first, h⟩ := Option.bind_eq_some_iff.mp h
    rw [ih h, length_next? first, List.length_cons]
    omega

theorem insertIdx_length_append (front back : List Char) (c : Char) :
    (front ++ back).insertIdx front.length c = front ++ c :: back := by
  induction front with
  | nil => rfl
  | cons d rest ih => simp [ih]

namespace Progress

/-- The numbers found so far build `text`, and the places passed over since then lead to
the place `place` of the code `code`. -/
def LeadsTo (head : List Char) (p : Progress) (code place : Nat) (text : List Char) : Prop :=
  ∃ s : Insertion, p.numbers.reverse.foldlM Insertion.next? ⟨0x80, 0, head⟩ = some s ∧
    s.text = text ∧
    s.code * (text.length + 1) + s.place + p.skipped = code * (text.length + 1) + place

variable {head text : List Char} {p : Progress} {code place : Nat}

theorem LeadsTo.length_eq (h : p.LeadsTo head code place text) :
    text.length = head.length + p.numbers.length := by
  obtain ⟨s, built, rfl, -⟩ := h
  simpa using Insertion.length_foldlM built

theorem LeadsTo.skip (h : p.LeadsTo head code place text) {n further next : Nat}
    (gap : code * (text.length + 1) + place + n = further * (text.length + 1) + next) :
    LeadsTo head ⟨p.numbers, p.skipped + n⟩ further next text := by
  obtain ⟨s, built, rfl, reached⟩ := h
  exact ⟨s, built, rfl, by dsimp only; omega⟩

theorem LeadsTo.insert {front back : List Char} {c : Char}
    (h : p.LeadsTo head c.toNat front.length (front ++ back)) :
    LeadsTo head ⟨p.skipped :: p.numbers, 0⟩ c.toNat (front ++ [c]).length
      (front ++ c :: back) := by
  obtain ⟨s, built, text, reached⟩ := h
  have valid : c.toNat.isValidChar := c.valid
  have inside : front.length ≤ s.text.length := by simp [text]
  have gap : s.code * (s.text.length + 1) + s.place + p.skipped =
      c.toNat * (s.text.length + 1) + front.length := by
    rw [text]
    exact reached
  have put := Insertion.next?_eq valid inside gap
  rw [text, insertIdx_length_append, Char.ofNat_toNat] at put
  refine ⟨⟨c.toNat, front.length + 1, front ++ c :: back⟩, ?_, rfl, by simp⟩
  rw [List.reverse_cons, List.foldlM_append, built]
  simpa using put

/-! ## The search -/

/-- The characters up to a code, and those before it. -/
def upTo (code : Nat) (label : List Char) : List Char := label.filter (·.toNat ≤ code)

def below (code : Nat) (label : List Char) : List Char := label.filter (·.toNat < code)

theorem upTo_eq_below (code : Nat) (label : List Char) :
    upTo code label = below (code + 1) label :=
  List.filter_congr fun _ _ => decide_eq_decide.mpr Nat.lt_succ_iff.symm

/-- While a code is looked for, everything up to it is put in on the left, and everything
before it on the right. -/
theorem LeadsTo.visit {front back : List Char} {c : Char}
    (h : p.LeadsTo head code (upTo code front).length (upTo code front ++ below code (c :: back))) :
    (p.visit code c).LeadsTo head code (upTo code (front ++ [c])).length
      (upTo code (front ++ [c]) ++ below code back) := by
  rcases lt_trichotomy c.toNat code with less | rfl | more
  · have same : upTo code (front ++ [c]) ++ below code back =
        upTo code front ++ below code (c :: back) := by
      simp [upTo, below, less, less.le]
    rw [same]
    simp only [Progress.visit, less, if_true]
    refine h.skip ?_
    simp [upTo, less.le]
    omega
  · have later : below c.toNat (c :: back) = below c.toNat back := by simp [below]
    rw [later] at h
    have put := h.insert
    simpa [Progress.visit, upTo] using put
  · have same : upTo code (front ++ [c]) ++ below code back =
        upTo code front ++ below code (c :: back) := by
      simp [upTo, below, more.not_gt, more.not_ge]
    have short : upTo code (front ++ [c]) = upTo code front := by
      simp [upTo, more.not_ge]
    rw [same, short]
    simpa [Progress.visit, more.not_gt, more.ne'] using h

theorem LeadsTo.foldl_visit (front back : List Char)
    (h : p.LeadsTo head code (upTo code front).length (upTo code front ++ below code back)) :
    (back.foldl (Progress.visit code) p).LeadsTo head code (upTo code (front ++ back)).length
      (upTo code (front ++ back)) := by
  induction back generalizing front p with
  | nil => simpa [below] using h
  | cons c rest ih => simpa using ih (front ++ [c]) h.visit

end Progress

/-- The search for the codes that are left ends with numbers that build the whole label. -/
theorem exists_of_collect {label head : List Char} {codes : List Nat} {next : Nat} {p : Progress}
    (sorted : codes.Pairwise (· < ·)) (ahead : ∀ code ∈ codes, next ≤ code)
    (listed : ∀ c ∈ label, next ≤ c.toNat → c.toNat ∈ codes)
    (h : p.LeadsTo head next 0 (Progress.below next label)) :
    ∃ s : Insertion, (collect label head.length next p codes).numbers.reverse.foldlM
      Insertion.next? ⟨0x80, 0, head⟩ = some s ∧ s.text = label := by
  induction codes generalizing next p with
  | nil =>
    obtain ⟨s, built, text, -⟩ := h
    refine ⟨s, built, text.trans ?_⟩
    refine List.filter_eq_self.mpr fun c hc => ?_
    have := mt (listed c hc) List.not_mem_nil
    simpa using this
  | cons code rest ih =>
    obtain ⟨least, sorted⟩ := List.pairwise_cons.mp sorted
    have reached : next ≤ code := ahead code List.mem_cons_self
    -- No character of the label lies between the two codes.
    have same : Progress.below next label = Progress.below code label := by
      refine List.filter_congr fun c hc => ?_
      have : next ≤ c.toNat → code ≤ c.toNat := fun beyond => by
        rcases List.mem_cons.mp (listed c hc beyond) with same | later
        · exact same.ge
        · exact (least _ later).le
      exact decide_eq_decide.mpr (by omega)
    have passed : Progress.LeadsTo head
        ⟨p.numbers, p.skipped + (code - next) * (head.length + p.numbers.length + 1)⟩ code 0
        (Progress.below code label) := by
      rw [← h.length_eq, ← same]
      refine h.skip ?_
      simp only [Nat.add_zero]
      rw [← Nat.add_mul, Nat.add_sub_cancel' reached]
    have visited := Progress.LeadsTo.foldl_visit [] label (by simpa [Progress.upTo] using passed)
    rw [List.nil_append, Progress.upTo_eq_below] at visited
    have onward : code * ((Progress.below (code + 1) label).length + 1) +
        (Progress.below (code + 1) label).length + 1 =
          (code + 1) * ((Progress.below (code + 1) label).length + 1) + 0 := by
      rw [Nat.add_mul]
      omega
    refine ih sorted (fun later h => least later h) (fun c hc beyond => ?_) (visited.skip onward)
    rcases List.mem_cons.mp (listed c hc (by omega)) with same | later
    · omega
    · exact later

/-! ## Labels -/

theorem nodup_eraseDups (codes : List Nat) : codes.eraseDups.Nodup := by
  induction n : codes.length using Nat.strong_induction_on generalizing codes with
  | _ n ih =>
    cases codes with
    | nil => simp
    | cons code rest =>
      rw [List.eraseDups_cons, List.nodup_cons]
      subst n
      refine ⟨by simp, ih _ ?_ _ rfl⟩
      have := List.length_filter_le (fun other => !other == code) rest
      rw [List.length_cons]
      omega

theorem exists_of_numbers (label : List Char) :
    ∃ s : Insertion, (numbers label).foldlM Insertion.next? ⟨0x80, 0, label.filter isBasic⟩ =
      some s ∧ s.text = label := by
  unfold numbers
  refine exists_of_collect ?_ ?_ ?_ ?_
  · have distinct := (List.mergeSort_perm _ (· ≤ ·)).nodup_iff.mpr
      (nodup_eraseDups ((label.filter (!isBasic ·)).map Char.toNat))
    exact ((List.sortedLE_mergeSort).sortedLT_of_nodup distinct).pairwise
  · intro code h
    obtain ⟨c, hc, rfl⟩ := List.mem_map.mp (List.mem_eraseDups.mp (List.mem_mergeSort.mp h))
    simpa [isBasic] using (List.mem_filter.mp hc).2
  · intro c hc beyond
    refine List.mem_mergeSort.mpr (List.mem_eraseDups.mpr (List.mem_map_of_mem ?_))
    exact List.mem_filter.mpr ⟨hc, by simpa [isBasic] using beyond⟩
  · exact ⟨_, rfl, rfl, rfl⟩

theorem span_reverse {tail : List Char} (h : '-' ∉ tail) (rest : List Char)
    (hyphen : ∀ c ∈ rest.head?, c = '-') :
    (tail.reverse ++ rest).span (· ≠ '-') = (tail.reverse, rest) := by
  have plain : ∀ c ∈ tail.reverse, decide (c ≠ '-') = true := by
    intro c hc
    simp only [ne_eq, decide_eq_true_eq]
    rintro rfl
    exact h (List.mem_reverse.mp hc)
  rw [List.span_eq_takeWhile_dropWhile, List.takeWhile_append_of_pos plain,
    List.dropWhile_append_of_pos plain]
  cases rest with
  | nil => simp
  | cons c front =>
    obtain rfl : c = '-' := hyphen c rfl
    simp

theorem cases_of_mem_encode {label : List Char} {c : Char} (h : c ∈ encode label) :
    (c ∈ label ∧ c.toNat < 0x80) ∨ c = '-' ∨ (digitValue? c).isSome := by
  rcases List.mem_append.mp h with head | numbers
  · split at head
    · simp at head
    · rcases List.mem_append.mp head with basic | hyphen
      · obtain ⟨inside, ascii⟩ := List.mem_filter.mp basic
        exact .inl ⟨inside, by simpa [isBasic] using ascii⟩
      · exact .inr (.inl (List.mem_singleton.mp hyphen))
  · exact .inr (.inr (isSome_digitValue?_of_mem_write numbers))

theorem split_tail {tail : List Char} (h : '-' ∉ tail) : split tail = ([], tail) := by
  have whole := span_reverse h [] (by simp)
  rw [List.append_nil] at whole
  rw [split, whole]

theorem split_append {head tail : List Char} (some : head ≠ []) (h : '-' ∉ tail) :
    split (head ++ '-' :: tail) = (head, tail) := by
  have back := span_reverse h ('-' :: head.reverse) (by simp)
  obtain ⟨c, front, reversed⟩ := List.exists_cons_of_ne_nil (List.reverse_ne_nil_iff.mpr some)
  have turned : (head ++ '-' :: tail).reverse = tail.reverse ++ '-' :: head.reverse := by simp
  rw [split, turned, back, reversed]
  simp [← reversed]

/-- The written form of a label stands for that label. -/
theorem decode?_encode (label : List Char) : decode? (encode label) = some label := by
  have digits : '-' ∉ write (label.filter isBasic).length 72 (label.filter isBasic).length
      (numbers label) := fun h =>
    absurd (isSome_digitValue?_of_mem_write h) (by decide)
  have parts : split (encode label) = (label.filter isBasic,
      write (label.filter isBasic).length 72 (label.filter isBasic).length (numbers label)) := by
    unfold encode
    dsimp only
    split
    · rename_i none
      rw [none] at digits ⊢
      exact split_tail digits
    · rename_i some
      rw [List.append_assoc]
      exact split_append some digits
  obtain ⟨s, built, text⟩ := exists_of_numbers label
  unfold decode?
  rw [parts]
  simp [read?_write, built, text]

end ProxyLease.Punycode
