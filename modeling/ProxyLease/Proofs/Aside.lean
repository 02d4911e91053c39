import ProxyLease.Proofs.World.Beat

/-!
# Proxies that stand aside

A pending proxy that is not in the queue stands aside. Nothing ever brings it back: who
stands aside does so for good, and beyond those who did before, only a proxy that is new
and not admitted to validation comes to stand aside.
-/

namespace ProxyLease

namespace Pool

variable {c : Concern} {p q r : Pool} {h k : Handle} {s t : Lifecycle}

/-- A proxy waits for a probe, but nobody will take it out of the queue. -/
structure Aside (p : Pool) (h : Handle) : Prop where
  pending : p.state? h = some .pending
  unqueued : h ∉ p.queue

/-- Another proxy moves, or one that does not wait for a probe. -/
theorem Published.pending_iff (hm : Published h s t p q) (hs : s ≠ .pending) (ht : t ≠ .pending) :
    q.state? k = some .pending ↔ p.state? k = some .pending := by
  rw [hm.states]
  split_ifs with hk
  · simp [hk, hm.source, hs, ht]
  · exact Iff.rfl

theorem Begun.aside_iff {sent : Bool} (hb : Begun h p q sent) : q.Aside k ↔ p.Aside k := by
  constructor
  · intro ha
    have hne : k ≠ h := by
      rintro rfl
      exact hb.target ha.pending
    refine ⟨by rw [← hb.other hne, ha.pending], ?_⟩
    rw [hb.queue, List.mem_cons, not_or]
    exact ⟨hne, ha.unqueued⟩
  · intro ha
    have hn := ha.unqueued
    rw [hb.queue, List.mem_cons, not_or] at hn
    exact ⟨by rw [hb.other hn.1, ha.pending], hn.2⟩

theorem Beat.aside (hb : Beat c p q) (ha : p.Aside k) : q.Aside k := by
  cases hb with
  | still hstate hqueue =>
    exact ⟨by rw [hstate, ha.pending], by rw [hqueue]; exact ha.unqueued⟩
  | move h hm hqueue hs ht =>
    exact ⟨(hm.pending_iff hs ht).mpr ha.pending, by rw [hqueue]; exact ha.unqueued⟩
  | requeue h hc hm hqueue =>
    have hne : k ≠ h := by
      rintro rfl
      have hsame := ha.pending.symm.trans hm.source
      exact Lifecycle.ne_of_mem_next hm.next (Option.some.inj hsame).symm
    refine ⟨by rw [hm.other hne, ha.pending], ?_⟩
    rw [hqueue, List.mem_append, List.mem_singleton, not_or]
    exact ⟨ha.unqueued, hne⟩
  | register hc hstate hqueue =>
    have hne : k ≠ p.records.size := by
      rintro rfl
      have hs := ha.pending
      simp at hs
    refine ⟨by rw [hstate, if_neg hne, ha.pending], ?_⟩
    rw [hqueue]
    split_ifs
    · rw [List.mem_append, List.mem_singleton, not_or]
      exact ⟨ha.unqueued, hne⟩
    · exact ha.unqueued
  | begin h hc hb => exact hb.aside_iff.mpr ha

/-- Only the arrival of new proxies makes somebody stand aside. -/
theorem Beat.aside_of (hb : Beat c p q) (hc : c ≠ .acquisition) (ha : q.Aside k) : p.Aside k := by
  cases hb with
  | still hstate hqueue =>
    exact ⟨by rw [← hstate, ha.pending], by rw [← hqueue]; exact ha.unqueued⟩
  | move h hm hqueue hs ht =>
    exact ⟨(hm.pending_iff hs ht).mp ha.pending, by rw [← hqueue]; exact ha.unqueued⟩
  | requeue h _ hm hqueue =>
    have hn := ha.unqueued
    rw [hqueue, List.mem_append, List.mem_singleton, not_or] at hn
    exact ⟨by rw [← hm.other hn.2, ha.pending], hn.1⟩
  | register he => exact absurd he hc
  | begin h _ hb => exact hb.aside_iff.mp ha

theorem Beats.aside (hb : Beats c p q) (ha : p.Aside k) : q.Aside k :=
  hb.keep (P := fun q => q.Aside k) Beat.aside ha

theorem Beats.aside_of (hb : Beats c p q) (hc : c ≠ .acquisition) (ha : q.Aside k) :
    p.Aside k := by
  induction hb with
  | refl => exact ha
  | tail _ hstep ih => exact ih (hstep.aside_of hc ha)

theorem Beat.unknown_iff (hb : Beat c p q) (hc : c ≠ .acquisition) :
    q.state? k = none ↔ p.state? k = none := by
  have hmoved {h : Handle} {s t : Lifecycle} (hm : Published h s t p q) :
      q.state? k = none ↔ p.state? k = none := by
    rw [hm.states]
    split_ifs with hk
    · simp [hk, hm.source]
    · exact Iff.rfl
  cases hb with
  | still hstate => rw [hstate]
  | move h hm | requeue h _ hm => exact hmoved hm
  | register he => exact absurd he hc
  | begin h _ hb => exact hb.unknown_iff

theorem Beats.unknown_iff (hb : Beats c p q) (hc : c ≠ .acquisition) :
    q.state? k = none ↔ p.state? k = none :=
  hb.keep (P := fun q => q.state? k = none ↔ p.state? k = none)
    (fun hstep hs => (hstep.unknown_iff hc).trans hs) Iff.rfl

/-! ### Arrivals -/

/-- What a stretch that brings new proxies does to those who wait for a probe. -/
structure Arrival (p q : Pool) : Prop where
  admits : q.admitsValidation = p.admitsValidation
  /-- A pool that admits nobody to validation leaves its queue as it is. -/
  queue : p.admitsValidation = false → q.queue = p.queue
  unknown : ∀ h, q.state? h = none → p.state? h = none
  /-- Who comes to stand aside is new, and was not admitted to validation. -/
  aside : ∀ h, q.Aside h → p.Aside h ∨ p.state? h = none ∧ p.admitsValidation = false

namespace Arrival

theorem of_eq (hadmits : q.admitsValidation = p.admitsValidation)
    (hstate : ∀ k, q.state? k = p.state? k) (hqueue : q.queue = p.queue) : Arrival p q where
  admits := hadmits
  queue _ := hqueue
  unknown h hh := by rw [← hstate, hh]
  aside h ha := .inl ⟨by rw [← hstate, ha.pending], by rw [← hqueue]; exact ha.unqueued⟩

theorem trans (hpq : Arrival p q) (hqr : Arrival q r) : Arrival p r where
  admits := hqr.admits.trans hpq.admits
  queue hfull := (hqr.queue (hpq.admits.trans hfull)).trans (hpq.queue hfull)
  unknown h hh := hpq.unknown h (hqr.unknown h hh)
  aside h ha := by
    rcases hqr.aside h ha with ha | ⟨hnone, hfull⟩
    · exact hpq.aside h ha
    · exact .inr ⟨hpq.unknown h hnone, hpq.admits ▸ hfull⟩

end Arrival

theorem arrival_register {e : Endpoint} (hq : p.admit? e = some q) : Arrival p q where
  admits := by
    obtain ⟨registry, queue, _, rfl⟩ := admit?_eq_some hq
    rfl
  queue hfull := by rw [queue_register hq, hfull, if_neg nofun]
  unknown h hh := by
    rw [state?_register hq] at hh
    split_ifs at hh
    exact hh
  aside h ha := by
    have hpending := ha.pending
    have hn := ha.unqueued
    rw [state?_register hq] at hpending
    rw [queue_register hq] at hn
    split_ifs at hpending hn with hk hadmits hadmits
    · simp [hk] at hn
    · exact .inr ⟨by simp [hk], by simpa using hadmits⟩
    · exact .inl ⟨hpending, fun hh => hn (List.mem_append_left _ hh)⟩
    · exact .inl ⟨hpending, hn⟩

theorem Change.arrival (hc : Change .acquisition p q) : Arrival p q := by
  cases hc with
  | register e ha => exact arrival_register ha
  | restat h f => exact .of_eq rfl (fun _ => state?_restat f) rfl
  | tally census hcounts =>
    refine .of_eq ?_ (fun _ => rfl) rfl
    simp only [admitsValidation, Census.count, hcounts]
    rfl
  | remark | choose | trim => exact .of_eq rfl (fun _ => rfl) rfl
  | ask hc | requeue _ _ _ _ hc | begin _ hc | fail _ _ _ hc | elapse _ hc | staff _ hc
  | launch hc | close hc => cases hc

theorem Changes.arrival (hc : Changes .acquisition p q) : Arrival p q := by
  induction hc with
  | refl => exact .of_eq rfl (fun _ => rfl) rfl
  | tail _ hstep ih => exact ih.trans hstep.arrival

end Pool

namespace World

variable {w v : World} {h : Handle}

/-- Who comes to stand aside in a step is met in it, and was not admitted to validation. -/
theorem aside_of_perform (w : World) (a : Action) (hsum : w.pool.census.AddsUp)
    (ha : (w.perform a).pool.Aside h) :
    w.pool.Aside h ∨ w.pool.state? h = none ∧ w.pool.admitsValidation = false := by
  by_cases hc : w.concern a = .acquisition
  · exact (perform_changes hc).1.arrival.aside h ha
  · exact .inl ((perform_beaten w a hsum).1.aside_of hc ha)

theorem aside_forever (hw : w.pool.census.AddsUp) (ha : w.pool.Aside h) (hv : w.Reaches v) :
    v.pool.Aside h :=
  hv.keep_beats hw Pool.Beat.aside ha

end World
end ProxyLease
