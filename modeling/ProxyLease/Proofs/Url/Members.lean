import Mathlib.Data.List.Forall2
import Mathlib.Tactic.Common

/-!
# Lists read and written member by member

Addresses are cut into pieces, each piece is read on its own, and the pieces are put
together again with a mark between them.
-/

namespace ProxyLease

variable {α β : Type}

theorem forall₂_of_mapM {f : α → Option β} {l : List α} {r : List β}
    (h : l.mapM f = some r) : List.Forall₂ (fun a b => f a = some b) l r := by
  induction l generalizing r with
  | nil =>
    obtain rfl : [] = r := by simpa using h
    exact .nil
  | cons a rest ih =>
    rw [List.mapM_cons] at h
    obtain ⟨b, hb, h⟩ := Option.bind_eq_some_iff.mp h
    obtain ⟨bs, hbs, h⟩ := Option.bind_eq_some_iff.mp h
    obtain rfl := Option.some.inj h
    exact .cons hb (ih hbs)

theorem exists_of_mem_mapM {f : α → Option β} {l : List α} {r : List β}
    (h : l.mapM f = some r) {b : β} (hb : b ∈ r) : ∃ a ∈ l, f a = some b := by
  have pairs := forall₂_of_mapM h
  clear h
  induction pairs with
  | nil => simp at hb
  | @cons a c l r hac _ ih =>
    rcases List.mem_cons.mp hb with rfl | hb
    · exact ⟨a, by simp, hac⟩
    · obtain ⟨d, hd, hdb⟩ := ih hb
      exact ⟨d, by simp [hd], hdb⟩

theorem exists_mem_of_mapM {f : α → Option β} {l : List α} {r : List β}
    (h : l.mapM f = some r) {a : α} (ha : a ∈ l) : ∃ b ∈ r, f a = some b := by
  have pairs := forall₂_of_mapM h
  clear h
  induction pairs with
  | nil => simp at ha
  | @cons c b l r hcb _ ih =>
    rcases List.mem_cons.mp ha with rfl | ha
    · exact ⟨b, by simp, hcb⟩
    · obtain ⟨d, hd, had⟩ := ih ha
      exact ⟨d, by simp [hd], had⟩

theorem mapM_eq_self {f : α → Option α} {l : List α} (h : ∀ a ∈ l, f a = some a) :
    l.mapM f = some l := by
  induction l with
  | nil => rfl
  | cons a rest ih =>
    rw [List.mapM_cons, h a List.mem_cons_self, ih fun b hb => h b (List.mem_cons_of_mem _ hb)]
    rfl

theorem forall_mem_of_all {p : α → Prop} [DecidablePred p] {l : List α}
    (h : l.all (fun a => decide (p a)) = true) : ∀ a ∈ l, p a := by
  simpa using h

theorem eq_or_mem_of_mem_intersperse {mark x : α} {l : List α} (h : x ∈ l.intersperse mark) :
    x = mark ∨ x ∈ l := by
  induction l with
  | nil => simp at h
  | cons a rest ih =>
    cases rest with
    | nil => exact .inr (by simpa using h)
    | cons b rest =>
      rw [List.intersperse_cons_cons, List.mem_cons, List.mem_cons] at h
      rcases h with rfl | rfl | h
      · exact .inr (by simp)
      · exact .inl rfl
      · exact (ih h).imp id (List.mem_cons_of_mem a)

theorem mem_intersperse_of_mem {mark x : α} {l : List α} (h : x ∈ l) :
    x ∈ l.intersperse mark := by
  induction l with
  | nil => simp at h
  | cons a rest ih =>
    cases rest with
    | nil => simpa using h
    | cons b rest =>
      rw [List.intersperse_cons_cons]
      rcases List.mem_cons.mp h with rfl | h
      · simp
      · simp [ih h]

end ProxyLease
