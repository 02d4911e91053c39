/-!
# Fields of a text

A text is cut at every separator; there is always one field more than there are
separators, and no field holds one.
-/

namespace ProxyLease.Text

/-- The fields between the characters that satisfy `isSeparator`. -/
def fields (isSeparator : Char → Bool) : List Char → List (List Char)
  | [] => [[]]
  | c :: rest =>
    if isSeparator c then [] :: fields isSeparator rest
    else
      match fields isSeparator rest with
      | [] => [[c]]
      | first :: others => (c :: first) :: others

theorem fields_ne_nil (isSeparator : Char → Bool) (text : List Char) :
    fields isSeparator text ≠ [] := by
  cases text with
  | nil => simp [fields]
  | cons c rest =>
    unfold fields
    split
    · simp
    · split <;> simp

theorem fields_eq_singleton {isSeparator : Char → Bool} {text : List Char}
    (h : ∀ c ∈ text, isSeparator c = false) : fields isSeparator text = [text] := by
  induction text with
  | nil => rfl
  | cons c rest ih =>
    have hc : isSeparator c = false := h c (by simp)
    have hr : fields isSeparator rest = [rest] := ih fun d hd => h d (by simp [hd])
    simp [fields, hc, hr]

theorem fields_append_cons {isSeparator : Char → Bool} {text : List Char} {s : Char}
    (h : ∀ c ∈ text, isSeparator c = false) (hs : isSeparator s = true) (rest : List Char) :
    fields isSeparator (text ++ s :: rest) = text :: fields isSeparator rest := by
  induction text with
  | nil => simp [fields, hs]
  | cons c front ih =>
    have hc : isSeparator c = false := h c (by simp)
    have hf := ih fun d hd => h d (by simp [hd])
    simp [fields, hc, hf]

theorem not_separator_of_mem_fields {isSeparator : Char → Bool} {text field : List Char}
    (hf : field ∈ fields isSeparator text) {c : Char} (hc : c ∈ field) :
    isSeparator c = false := by
  induction text generalizing field with
  | nil =>
    simp [fields] at hf
    simp [hf] at hc
  | cons d rest ih =>
    unfold fields at hf
    split at hf
    · rcases List.mem_cons.mp hf with rfl | hf
      · simp at hc
      · exact ih hf hc
    · rename_i hd
      split at hf
      · rename_i h
        exact absurd h (fields_ne_nil isSeparator rest)
      · rename_i first others h
        rcases List.mem_cons.mp hf with rfl | hf
        · rcases List.mem_cons.mp hc with rfl | hc
          · simpa using hd
          · exact ih (h ▸ List.mem_cons_self) hc
        · exact ih (h ▸ List.mem_cons_of_mem first hf) hc

theorem mem_of_mem_fields {isSeparator : Char → Bool} {text field : List Char}
    (hf : field ∈ fields isSeparator text) {c : Char} (hc : c ∈ field) : c ∈ text := by
  induction text generalizing field with
  | nil =>
    simp [fields] at hf
    simp [hf] at hc
  | cons d rest ih =>
    unfold fields at hf
    split at hf
    · rcases List.mem_cons.mp hf with rfl | hf
      · simp at hc
      · exact List.mem_cons_of_mem d (ih hf hc)
    · split at hf
      · rename_i h
        exact absurd h (fields_ne_nil isSeparator rest)
      · rename_i first others h
        rcases List.mem_cons.mp hf with rfl | hf
        · rcases List.mem_cons.mp hc with rfl | hc
          · exact List.mem_cons_self
          · exact List.mem_cons_of_mem d (ih (h ▸ List.mem_cons_self) hc)
        · exact List.mem_cons_of_mem d (ih (h ▸ List.mem_cons_of_mem first hf) hc)

theorem exists_field_of_mem {isSeparator : Char → Bool} {text : List Char} {c : Char}
    (hc : c ∈ text) (hs : isSeparator c = false) :
    ∃ field ∈ fields isSeparator text, c ∈ field := by
  induction text with
  | nil => simp at hc
  | cons d rest ih =>
    unfold fields
    split
    · rename_i hd
      rcases List.mem_cons.mp hc with rfl | hc
      · simp [hs] at hd
      · obtain ⟨field, hf, hcf⟩ := ih hc
        exact ⟨field, by simp [hf], hcf⟩
    · split
      · rename_i h
        exact absurd h (fields_ne_nil isSeparator rest)
      · rename_i first others h
        rcases List.mem_cons.mp hc with rfl | hc
        · exact ⟨c :: first, by simp, by simp⟩
        · obtain ⟨field, hf, hcf⟩ := ih hc
          rcases List.mem_cons.mp (h ▸ hf) with rfl | hf
          · exact ⟨d :: field, by simp, by simp [hcf]⟩
          · exact ⟨field, by simp [hf], hcf⟩

theorem flatten_intersperse_fields (s : Char) (text : List Char) :
    ((fields (· == s) text).intersperse [s]).flatten = text := by
  induction text with
  | nil => rfl
  | cons c rest ih =>
    obtain ⟨first, others, h⟩ := List.exists_cons_of_ne_nil (fields_ne_nil (· == s) rest)
    rw [h] at ih
    by_cases separator : c = s
    · subst separator
      simp [fields, h, ih]
    · have front : fields (· == s) (c :: rest) = (c :: first) :: others := by
        simp [fields, separator, h]
      rw [front]
      cases others <;> simpa using ih

theorem fields_flatten_intersperse {s : Char} {labels : List (List Char)} (some : labels ≠ [])
    (plain : ∀ label ∈ labels, ∀ c ∈ label, (c == s) = false) :
    fields (· == s) (labels.intersperse [s]).flatten = labels := by
  induction labels with
  | nil => exact absurd rfl some
  | cons label rest ih =>
    have first := plain label List.mem_cons_self
    cases rest with
    | nil => simpa using fields_eq_singleton first
    | cons next others =>
      have others := ih (by simp) fun label h => plain label (List.mem_cons_of_mem _ h)
      rw [List.intersperse_cons_cons, List.flatten_cons, List.flatten_cons, List.singleton_append,
        fields_append_cons first (by simp), others]

end ProxyLease.Text
