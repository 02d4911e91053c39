import Mathlib.Data.List.Infix
import Mathlib.Data.List.TakeWhile
import Mathlib.Tactic.Common
import ProxyLease.Text.Blank
import ProxyLease.Text.Fields

/-!
# Lines and the blanks around them

A text is cut at its line ends on either side of each of them, so the lines of two texts
with a line end between them are those of the one and then those of the other. Trimming
takes the blanks off both ends of a line and nothing else.
-/

namespace ProxyLease.Text

theorem fields_append {isSeparator : Char → Bool} {s : Char} (hs : isSeparator s = true)
    (text rest : List Char) :
    fields isSeparator (text ++ s :: rest) =
      fields isSeparator text ++ fields isSeparator rest := by
  induction text with
  | nil => simp [fields, hs]
  | cons c front ih =>
    rw [List.cons_append, fields, fields, ih]
    split
    · rfl
    · cases hfront : fields isSeparator front with
      | nil => exact absurd hfront (fields_ne_nil isSeparator front)
      | cons first others => rfl

theorem fields_concat (isSeparator : Char → Bool) {c : Char} (hc : isSeparator c = false)
    (text : List Char) :
    ∃ front last, fields isSeparator text = front ++ [last] ∧
      fields isSeparator (text ++ [c]) = front ++ [last ++ [c]] := by
  induction text with
  | nil => exact ⟨[], [], rfl, fields_eq_singleton (by simpa using hc)⟩
  | cons d rest ih =>
    obtain ⟨front, last, short, long⟩ := ih
    cases hd : isSeparator d with
    | true => exact ⟨[] :: front, last, by simp [fields, hd, short], by simp [fields, hd, long]⟩
    | false =>
      cases front with
      | nil => exact ⟨[], d :: last, by simp [fields, hd, short], by simp [fields, hd, long]⟩
      | cons first others =>
        exact ⟨(d :: first) :: others, last, by simp [fields, hd, short],
          by simp [fields, hd, long]⟩

/-! ## Trimming -/

theorem exists_blanks_around (text : List Char) :
    ∃ front back, text = front ++ (trim text ++ back) ∧ (∀ c ∈ front, isBlank c = true) ∧
      ∀ c ∈ back, isBlank c = true := by
  refine ⟨text.takeWhile isBlank,
    ((text.dropWhile isBlank).reverse.takeWhile isBlank).reverse, ?_, ?_, ?_⟩
  · have inner := congrArg List.reverse
      (List.takeWhile_append_dropWhile (p := isBlank) (l := (text.dropWhile isBlank).reverse))
    rw [List.reverse_append, List.reverse_reverse] at inner
    rw [trim, trimEnd, inner, List.takeWhile_append_dropWhile]
  · exact fun c hc => List.mem_takeWhile_imp hc
  · exact fun c hc => List.mem_takeWhile_imp (List.mem_reverse.mp hc)

theorem trim_of_blanks_around {front inner back : List Char}
    (hfront : ∀ c ∈ front, isBlank c = true) (hback : ∀ c ∈ back, isBlank c = true)
    (head : ∀ c, inner.head? = some c → isBlank c = false)
    (last : ∀ c, inner.getLast? = some c → isBlank c = false) :
    trim (front ++ (inner ++ back)) = inner := by
  have stays {text : List Char} (h : ∀ c, text.head? = some c → isBlank c = false) :
      text.dropWhile isBlank = text := by
    cases text with
    | nil => rfl
    | cons c rest => simp [h c rfl]
  rw [trim, List.dropWhile_append_of_pos hfront]
  cases inner with
  | nil =>
    have nothing : back.dropWhile isBlank = [] := List.dropWhile_eq_nil_iff.mpr hback
    rw [List.nil_append, nothing]
    rfl
  | cons c rest =>
    have reversed : ∀ d, (c :: rest).reverse.head? = some d → isBlank d = false := fun d hd =>
      last d (by rwa [List.head?_reverse] at hd)
    rw [stays fun d hd => head d (by simpa using hd), trimEnd, List.reverse_append,
      List.dropWhile_append_of_pos fun d hd => hback d (List.mem_reverse.mp hd), stays reversed,
      List.reverse_reverse]

theorem trim_eq_self {text : List Char} (head : ∀ c, text.head? = some c → isBlank c = false)
    (last : ∀ c, text.getLast? = some c → isBlank c = false) : trim text = text := by
  have nothing : ∀ c ∈ ([] : List Char), isBlank c = true := by simp
  simpa using trim_of_blanks_around nothing nothing head last

theorem isBlank_of_head?_trim {text : List Char} {c : Char} (h : (trim text).head? = some c) :
    isBlank c = false := by
  obtain ⟨after, whole⟩ : trim text <+: text.dropWhile isBlank := by
    have suffix := List.dropWhile_suffix isBlank (l := (text.dropWhile isBlank).reverse)
    simpa [trim, trimEnd] using List.reverse_prefix.mpr suffix
  have first : (text.dropWhile isBlank).head? = some c := by
    rw [← whole, List.head?_append, h, Option.some_or]
  simpa [first] using List.head?_dropWhile_not isBlank text

theorem isBlank_of_getLast?_trim {text : List Char} {c : Char}
    (h : (trim text).getLast? = some c) : isBlank c = false := by
  rw [trim, trimEnd, List.getLast?_reverse] at h
  simpa [h] using List.head?_dropWhile_not isBlank (text.dropWhile isBlank).reverse

theorem trim_concat {c : Char} (hc : isBlank c = true) (text : List Char) :
    trim (text ++ [c]) = trim text := by
  obtain ⟨front, back, whole, hfront, hback⟩ := exists_blanks_around text
  have longer : text ++ [c] = front ++ (trim text ++ (back ++ [c])) := by
    conv_lhs => rw [whole]
    simp only [List.append_assoc]
  rw [longer]
  refine trim_of_blanks_around hfront ?_ (fun _ => isBlank_of_head?_trim)
    fun _ => isBlank_of_getLast?_trim
  simpa [or_imp, forall_and] using ⟨hback, hc⟩

/-- What has nothing to do with a text in front of it stands behind that text. -/
theorem infix_of_infix_append {mark front text : List Char} (some : mark ≠ [])
    (apart : ∀ c ∈ front, c ∉ mark) (h : mark <:+: front ++ text) : mark <:+: text := by
  induction front with
  | nil => exact h
  | cons c rest ih =>
    rcases List.infix_cons_iff.mp h with first | later
    · obtain ⟨d, others, rfl⟩ := List.exists_cons_of_ne_nil some
      obtain ⟨rfl, -⟩ := List.cons_prefix_cons.mp first
      exact absurd (by simp) (apart d (by simp))
    · exact ih (fun d hd => apart d (by simp [hd])) later

/-- Trimming takes no part away that has no blanks, and adds none. -/
theorem infix_trim_iff {mark text : List Char} (some : mark ≠ [])
    (solid : ∀ c ∈ mark, isBlank c = false) : mark <:+: trim text ↔ mark <:+: text := by
  obtain ⟨front, back, whole, hfront, hback⟩ := exists_blanks_around text
  have apart {blanks : List Char} (h : ∀ c ∈ blanks, isBlank c = true) :
      ∀ c ∈ blanks, c ∉ mark := by
    intro c hc inside
    exact absurd (h c hc) (by simp [solid c inside])
  constructor
  · exact fun h => h.trans ⟨front, back, by rw [List.append_assoc, ← whole]⟩
  · intro h
    rw [whole] at h
    have rest := List.reverse_infix.mpr (infix_of_infix_append some (apart hfront) h)
    rw [List.reverse_append] at rest
    refine List.reverse_infix.mp (infix_of_infix_append (by simpa using some) ?_ rest)
    intro c hc
    rw [List.mem_reverse] at hc ⊢
    exact apart hback c hc

end ProxyLease.Text
