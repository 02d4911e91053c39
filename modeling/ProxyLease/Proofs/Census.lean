import Mathlib.Data.List.Perm.Basic
import Mathlib.Tactic.Common
import ProxyLease.Record

/-!
# Balanced censuses

A census balances a list of states if it counts every live one among them, each in its
place, and nothing else. What is expired weighs nothing, and the order does not matter.
Arrivals, departures and moves keep the balance as long as whoever leaves a state was
in it. Whoever moves, the counts of the live states add up to the total.
-/

namespace ProxyLease

namespace StateCounts

theorem get_set (c : StateCounts) (s t : Lifecycle) (n : Nat) :
    (c.set s n).get t = if t = s then n else c.get t := by
  split_ifs with h
  · rw [h, get_set_self]
  · exact get_set_of_ne c n h

theorem liveSum_set (c : StateCounts) {s : Lifecycle} (hs : s ≠ .expired) (n : Nat) :
    (c.set s n).liveSum + c.get s = c.liveSum + n := by
  cases s <;> simp only [set, get, liveSum] <;> first | omega | exact absurd rfl hs

end StateCounts

namespace Census

variable {R : Type} {c d : Census R} {s t : Lifecycle} {states states' : List Lifecycle}

/-! ### Dealings -/

/-- What a census counts of requests: those made, those served and those that wait. -/
def dealings (c : Census R) : Nat × Nat × Nat := (c.requests, c.successfulRequests, c.waiting)

@[simp] theorem dealings_add (c : Census R) (now : Instant) (s : Lifecycle) :
    (c.add now s).dealings = c.dealings := by
  unfold add
  split <;> rfl

@[simp] theorem dealings_remove (c : Census R) (now : Instant) (s : Lifecycle) :
    (c.remove now s).dealings = c.dealings := by
  unfold remove
  split_ifs <;> rfl

@[simp] theorem dealings_change (c : Census R) (now : Instant) (s t : Lifecycle) :
    (c.change now s t).dealings = c.dealings := by
  unfold change
  split_ifs
  · rfl
  · exact dealings_remove c now s
  · exact dealings_add c now t
  · exact dealings_add c now t
  · rfl

theorem dealings_foldl_add (now : Instant) (c : Census R) (states : List Lifecycle) :
    (states.foldl (fun c s => c.add now s) c).dealings = c.dealings := by
  induction states generalizing c with
  | nil => rfl
  | cons s rest ih => rw [List.foldl_cons, ih, dealings_add]

/-! ### Balance -/

/-- The census counts the live ones among some states, and nobody else. -/
structure Balances (c : Census R) (states : List Lifecycle) : Prop where
  count : ∀ s, s ≠ .expired → c.counts.get s = states.count s
  total : c.total = states.countP (· ≠ .expired)

namespace Balances

theorem perm (hb : c.Balances states) (hp : states.Perm states') : c.Balances states' where
  count s hs := (hb.count s hs).trans (hp.count_eq s)
  total := hb.total.trans (hp.countP_eq _)

theorem congr (hb : c.Balances states) (hcounts : d.counts = c.counts)
    (htotal : d.total = c.total) : d.Balances states where
  count s hs := by rw [hcounts, hb.count s hs]
  total := by rw [htotal, hb.total]

theorem expired_iff : c.Balances (.expired :: states) ↔ c.Balances states := by
  have hcount : ∀ s, s ≠ .expired → (Lifecycle.expired :: states).count s = states.count s :=
    fun s hs => List.count_cons_of_ne hs.symm
  have htotal : (Lifecycle.expired :: states).countP (· ≠ .expired) =
      states.countP (· ≠ .expired) := by simp
  refine ⟨fun hb => ⟨?_, ?_⟩, fun hb => ⟨?_, ?_⟩⟩
  · intro s hs
    rw [hb.count s hs, hcount s hs]
  · rw [hb.total, htotal]
  · intro s hs
    rw [hb.count s hs, hcount s hs]
  · rw [hb.total, htotal]

theorem reset (c : Census R) (now : Instant) : (c.reset now).Balances [] where
  count s _ := StateCounts.get_empty s
  total := rfl

theorem add (hb : c.Balances states) (now : Instant) (s : Lifecycle) :
    (c.add now s).Balances (s :: states) := by
  unfold Census.add
  split_ifs with hs
  · rw [hs, expired_iff]
    exact hb
  · constructor
    · intro t ht
      rw [StateCounts.get_set, List.count_cons]
      by_cases hts : t = s
      · simp [hts, hb.count s hs]
      · simp [hts, Ne.symm hts, hb.count t ht]
    · simp [hs, hb.total]

theorem remove (hb : c.Balances (s :: states)) (now : Instant) :
    (c.remove now s).Balances states := by
  unfold Census.remove
  split_ifs with hs hzero
  · rw [hs, expired_iff] at hb
    exact hb
  · rw [hb.count s hs, List.count_cons_self] at hzero
    cases hzero
  · constructor
    · intro t ht
      have hcount := hb.count t ht
      rw [StateCounts.get_set]
      rw [List.count_cons] at hcount
      by_cases hts : t = s
      · rw [if_pos hts, hb.count s hs, List.count_cons_self, hts]
        rfl
      · simpa [hts, Ne.symm hts] using hcount
    · have htotal := hb.total
      rw [List.countP_cons_of_pos (by simpa using hs)] at htotal
      simp [htotal]

theorem change (hb : c.Balances (s :: states)) (now : Instant) (hst : s ≠ t) :
    (c.change now s t).Balances (t :: states) := by
  unfold Census.change
  rw [if_neg hst]
  split_ifs with ht hs hzero
  · rw [ht, expired_iff]
    exact hb.remove now
  · rw [hs, expired_iff] at hb
    exact hb.add now t
  · rw [hb.count s hs, List.count_cons_self] at hzero
    cases hzero
  · constructor
    · intro u hu
      have hcount := hb.count u hu
      have hsource := hb.count s hs
      rw [List.count_cons_self] at hsource
      simp only [StateCounts.get_set, List.count_cons] at hcount ⊢
      by_cases hut : u = t
      · subst hut
        simpa [hst, Ne.symm hst] using hcount
      · by_cases hus : u = s
        · subst hus
          simp [hut, Ne.symm hut, hsource]
        · simpa [hut, hus, Ne.symm hut, Ne.symm hus] using hcount
    · have htotal := hb.total
      simp only [List.countP_cons] at htotal ⊢
      simpa [ht, hs] using htotal

theorem foldl_add (now : Instant) : ∀ (list : List Lifecycle) {c : Census R}
    {states : List Lifecycle}, c.Balances states →
    (list.foldl (fun c s => c.add now s) c).Balances (list ++ states)
  | [], _, _, hb => hb
  | s :: rest, _, _, hb =>
    (foldl_add now rest (hb.add now s)).perm List.perm_middle

end Balances

def AddsUp (c : Census R) : Prop := c.counts.liveSum = c.total

namespace AddsUp

theorem add (hc : c.AddsUp) (now : Instant) (s : Lifecycle) : (c.add now s).AddsUp := by
  unfold Census.add
  split_ifs with hs
  · exact hc
  · have hsum := c.counts.liveSum_set hs (c.counts.get s + 1)
    have htotal : c.counts.liveSum = c.total := hc
    change (c.counts.set s (c.counts.get s + 1)).liveSum = c.total + 1
    omega

theorem remove (hc : c.AddsUp) (now : Instant) (s : Lifecycle) : (c.remove now s).AddsUp := by
  unfold Census.remove
  split_ifs with hs hzero
  · exact hc
  · exact hc
  · have hsum := c.counts.liveSum_set hs (c.counts.get s - 1)
    have htotal : c.counts.liveSum = c.total := hc
    change (c.counts.set s (c.counts.get s - 1)).liveSum = c.total - 1
    omega

theorem change (hc : c.AddsUp) (now : Instant) (s t : Lifecycle) : (c.change now s t).AddsUp := by
  unfold Census.change
  split_ifs with hst ht hs hzero
  · exact hc
  · exact hc.remove now s
  · exact hc.add now t
  · exact hc.add now t
  · have hleft := c.counts.liveSum_set hs (c.counts.get s - 1)
    have htarget := (c.counts.set s (c.counts.get s - 1)).liveSum_set ht
      ((c.counts.set s (c.counts.get s - 1)).get t + 1)
    have htotal : c.counts.liveSum = c.total := hc
    change (((c.counts.set s (c.counts.get s - 1)).set t
      ((c.counts.set s (c.counts.get s - 1)).get t + 1))).liveSum = c.total
    omega

theorem foldl_add (now : Instant) : ∀ (list : List Lifecycle) {c : Census R}, c.AddsUp →
    (list.foldl (fun c s => c.add now s) c).AddsUp
  | [], _, hc => hc
  | s :: rest, _, hc => foldl_add now rest (hc.add now s)

theorem reset (c : Census R) (now : Instant) : (c.reset now).AddsUp := rfl

end AddsUp
end Census

namespace Survey

variable {R : Type} [Scalar R] {s : Survey R} {states : List Lifecycle}

theorem balances_add (hb : s.census.Balances states) (r : Record R) :
    (s.add r).census.Balances (r.state :: states) := by
  unfold add
  split_ifs with hr
  · rw [hr, Census.Balances.expired_iff]
    exact hb
  · exact (hb.add 0 r.state).congr rfl rfl

theorem balances_foldl : ∀ (records : List (Record R)) {s : Survey R} {states : List Lifecycle},
    s.census.Balances states →
    (records.foldl add s).census.Balances (records.map (·.state) ++ states)
  | [], _, _, hb => hb
  | r :: rest, _, _, hb => (balances_foldl rest (balances_add hb r)).perm List.perm_middle

theorem balances_scan (records : List (Record R)) :
    (records.foldl add empty).census.Balances (records.map (·.state)) := by
  have hempty : (empty : Survey R).census.Balances [] :=
    ⟨fun s _ => StateCounts.get_empty s, rfl⟩
  simpa using balances_foldl records hempty

end Survey
end ProxyLease
