import Mathlib.Data.List.TakeWhile
import ProxyLease.Proofs.Pool.Stroke

/-!
# Inboxes and the line

Who waits has an empty inbox. A delivery fills the inbox of the first in line who still
waits, hanging up marks the inboxes of all who wait, and who leaves the line closes an
inbox that is still empty. What was delivered stays where it is.
-/

namespace ProxyLease.Pool

variable {p q : Pool} {h : Handle} {t u : Ticket}

theorem lt_size_of_inbox (ht : p.inbox t ≠ .closed) : t < p.inboxes.size := by
  by_contra hn
  exact ht (by rw [inbox, Array.getElem?_eq_none (Nat.le_of_not_lt hn), Option.getD_none])

theorem isWaiting_iff : p.isWaiting t = true ↔ p.inbox t = .waiting := by
  simp [isWaiting]

theorem isWaiting_congr (hi : q.inboxes = p.inboxes) : q.isWaiting = p.isWaiting := by
  funext t
  rw [isWaiting, isWaiting, inbox, inbox, hi]

theorem inbox_setInbox (i : Inbox) (ht : t < p.inboxes.size) :
    (p.setInbox t i).inbox u = if u = t then i else p.inbox u := by
  simp only [inbox, setInbox]
  by_cases hu : u = t
  · subst hu
    simp [ht]
  · rw [if_neg hu, Array.getElem?_setIfInBounds_ne (Ne.symm hu)]

theorem leaveLine_eq (p : Pool) (t : Ticket) : p.leaveLine t = { p with
    census := p.census.endWait p.now
    inboxes := if p.inbox t = .waiting then p.inboxes.setIfInBounds t .closed else p.inboxes } := by
  by_cases ht : p.inbox t = .waiting
  · rw [if_pos ht]
    exact if_pos ht
  · rw [if_neg ht]
    exact if_neg ht

def first? (p : Pool) : Option Ticket := p.line.find? p.isWaiting

theorem first?_eq_head? (p : Pool) :
    p.first? = (p.line.dropWhile (!p.isWaiting ·)).head? := List.find?_eq_head?_dropWhile_not _ _

theorem first?_of_dropWhile {others : List Ticket}
    (hl : p.line.dropWhile (!p.isWaiting ·) = t :: others) : p.first? = some t := by
  rw [first?_eq_head?, hl, List.head?_cons]

theorem isWaiting_of_first (ht : p.first? = some t) : p.isWaiting t = true :=
  List.find?_some ht

theorem waiting_of_dropWhile {others : List Ticket}
    (hl : p.line.dropWhile (!p.isWaiting ·) = t :: others) : p.inbox t = .waiting :=
  isWaiting_iff.mp (isWaiting_of_first (first?_of_dropWhile hl))

theorem mem_line_of_first (ht : p.first? = some t) : t ∈ p.line :=
  List.mem_of_find?_eq_some ht

theorem deliver_frame (p : Pool) (t : Ticket) (others : List Ticket) (h : Handle) :
    ∃ records registry census trace, p.deliver t others h = { p with
      line := others
      inboxes := p.inboxes.setIfInBounds t (.delivered h)
      records, registry, census, trace } := by
  obtain ⟨records, registry, census, trace, he⟩ :=
    handOut_frame ({ p with line := others }.setInbox t (.delivered h)) h
  exact ⟨records, registry, census, trace, he⟩

theorem inbox_deliver (ht : p.inbox t = .waiting) (others : List Ticket) (h : Handle)
    (u : Ticket) :
    (p.deliver t others h).inbox u = if u = t then .delivered h else p.inbox u := by
  have hsize : t < p.inboxes.size := lt_size_of_inbox (by rw [ht]; exact nofun)
  obtain ⟨records, registry, census, trace, he⟩ := deliver_frame p t others h
  rw [he]
  exact inbox_setInbox (.delivered h) hsize

theorem inbox_leaveLine (p : Pool) (t u : Ticket) : (p.leaveLine t).inbox u =
    if u = t ∧ p.inbox t = .waiting then .closed else p.inbox u := by
  rw [leaveLine_eq]
  by_cases ht : p.inbox t = .waiting
  · have hsize : t < p.inboxes.size := lt_size_of_inbox (by rw [ht]; exact nofun)
    simp only [ht, and_true, if_true]
    exact inbox_setInbox .closed hsize
  · rw [if_neg ht, if_neg fun h => ht h.2]
    rfl

theorem size_leaveLine (p : Pool) (t : Ticket) : (p.leaveLine t).inboxes.size = p.inboxes.size := by
  rw [leaveLine_eq]
  dsimp only
  split_ifs
  · exact Array.size_setIfInBounds
  · rfl

theorem delivered_leaveLine (p : Pool) (t u : Ticket) :
    (p.leaveLine t).inbox u = .delivered h ↔ p.inbox u = .delivered h := by
  rw [inbox_leaveLine]
  split_ifs with hu
  · rw [hu.1, hu.2]
    exact ⟨nofun, nofun⟩
  · exact Iff.rfl

theorem waiting_leaveLine (p : Pool) (t u : Ticket) :
    (p.leaveLine t).inbox u = .waiting ↔ p.inbox u = .waiting ∧ u ≠ t := by
  rw [inbox_leaveLine]
  split_ifs with hu
  · simp [hu.1]
  · exact ⟨fun hw => ⟨hw, fun hut => hu ⟨hut, hut ▸ hw⟩⟩, And.left⟩

theorem inbox_joinLine (p : Pool) (u : Ticket) : p.joinLine.2.inbox u =
    if u = p.inboxes.size then .waiting else p.inbox u := by
  rw [joinLine, inbox, Array.getElem?_push, inbox]
  split_ifs <;> rfl

theorem hangUp_fold : ∀ (list : List Ticket) (p : Pool), ∃ inboxes,
    list.foldl (fun q t => if q.isWaiting t then q.setInbox t .hungUp else q) p =
      { p with inboxes } ∧ inboxes.size = p.inboxes.size ∧
      ∀ t, ({ p with inboxes } : Pool).inbox t = p.inbox t ∨
        p.inbox t = .waiting ∧ ({ p with inboxes } : Pool).inbox t = .hungUp
  | [], p => ⟨p.inboxes, rfl, rfl, fun _ => .inl rfl⟩
  | t :: rest, p => by
    rw [List.foldl_cons]
    split_ifs with ht
    · have hw := isWaiting_iff.mp ht
      have hsize : t < p.inboxes.size := lt_size_of_inbox (by rw [hw]; exact nofun)
      obtain ⟨inboxes, he, hs, hi⟩ := hangUp_fold rest (p.setInbox t .hungUp)
      refine ⟨inboxes, he, hs.trans Array.size_setIfInBounds, ?_⟩
      intro u
      have hu : ({ p with inboxes } : Pool).inbox u = (p.setInbox t .hungUp).inbox u ∨
          (p.setInbox t .hungUp).inbox u = .waiting ∧
            ({ p with inboxes } : Pool).inbox u = .hungUp := hi u
      rw [inbox_setInbox _ hsize] at hu
      by_cases hut : u = t
      · rw [if_pos hut] at hu
        rw [hut] at hu ⊢
        exact .inr ⟨hw, hu.resolve_right nofun⟩
      · rw [if_neg hut] at hu
        exact hu
    · exact hangUp_fold rest p

end ProxyLease.Pool
