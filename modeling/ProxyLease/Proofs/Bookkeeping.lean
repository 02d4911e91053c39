import Mathlib.Algebra.GroupWithZero.Nat
import ProxyLease.Proofs.Census

/-!
# Books in any order

A census stays consistent whatever is entered: its counts add up to the total, expired proxies
are never counted, and nothing is taken off below zero. If every departure and every move starts
from expiry or from a state that counts somebody, the counts are those of the states that the
entries leave behind.
-/

namespace ProxyLease

namespace StateCounts

theorem get_le_liveSum (c : StateCounts) {s : Lifecycle} (hs : s ≠ .expired) :
    c.get s ≤ c.liveSum := by
  cases s <;> simp only [get, liveSum] <;> first | omega | exact absurd rfl hs

theorem sum_get (c : StateCounts) : (Lifecycle.all.map c.get).sum = c.liveSum + c.expired := by
  simp only [Lifecycle.all, List.map_cons, List.map_nil, List.sum_cons, List.sum_nil, get, liveSum]
  omega

end StateCounts

namespace Census

variable {R : Type} {c d : Census R} {s t : Lifecycle} {live : List Lifecycle}

/-! ## Consistency -/

structure Consistent (c : Census R) : Prop where
  addsUp : c.AddsUp
  expired : c.count .expired = 0
  validations : c.successfulValidations + c.failedValidations = c.validations

/-- Nothing but counts of live states, their total and the time is different. -/
structure Recounted (c d : Census R) : Prop where
  frame : ∃ counts total timestamp, d = { c with counts, total, timestamp }
  expired : d.count .expired = c.count .expired

namespace Recounted

theorem refl (c : Census R) : c.Recounted c := ⟨⟨_, _, _, rfl⟩, rfl⟩

theorem add (c : Census R) (now : Instant) (s : Lifecycle) : c.Recounted (c.add now s) := by
  unfold Census.add
  split_ifs with hs
  · exact refl c
  · exact ⟨⟨_, _, _, rfl⟩, c.counts.get_set_of_ne _ (Ne.symm hs)⟩

theorem remove (c : Census R) (now : Instant) (s : Lifecycle) : c.Recounted (c.remove now s) := by
  unfold Census.remove
  split_ifs with hs hzero
  · exact refl c
  · exact refl c
  · exact ⟨⟨_, _, _, rfl⟩, c.counts.get_set_of_ne _ (Ne.symm hs)⟩

theorem change (c : Census R) (now : Instant) (s t : Lifecycle) :
    c.Recounted (c.change now s t) := by
  unfold Census.change
  split_ifs with hst ht hs hzero
  · exact refl c
  · exact remove c now s
  · exact add c now t
  · exact add c now t
  · refine ⟨⟨_, _, _, rfl⟩, ?_⟩
    change (StateCounts.set _ t _).get .expired = c.counts.get .expired
    rw [StateCounts.get_set_of_ne _ _ (Ne.symm ht), StateCounts.get_set_of_ne _ _ (Ne.symm hs)]

end Recounted

namespace Consistent

theorem recounted (hc : c.Consistent) (h : c.Recounted d) (haddsUp : d.AddsUp) :
    d.Consistent := by
  refine ⟨haddsUp, h.expired.trans hc.expired, ?_⟩
  obtain ⟨counts, total, timestamp, rfl⟩ := h.frame
  exact hc.validations

theorem count_le_total (hc : c.Consistent) (s : Lifecycle) : c.count s ≤ c.total := by
  by_cases hs : s = .expired
  · rw [hs, hc.expired]
    exact Nat.zero_le _
  · exact Nat.le_trans (c.counts.get_le_liveSum hs) (Nat.le_of_eq hc.addsUp)

end Consistent

/-! ## Subtractions -/

def oneLess? : Nat → Option Nat
  | 0 => none
  | n + 1 => some n

theorem oneLess?_eq {n : Nat} (hn : n ≠ 0) : oneLess? n = some (n - 1) := by
  obtain ⟨m, rfl⟩ := Nat.exists_eq_succ_of_ne_zero hn
  rfl

/-- Takes a proxy off, and fails if a count would fall below zero. -/
def remove? (c : Census R) (now : Instant) (s : Lifecycle) : Option (Census R) :=
  if s = .expired then some c
  else if c.counts.get s = 0 then some c
  else do
    let left ← oneLess? (c.counts.get s)
    let total ← oneLess? c.total
    some { c with counts := c.counts.set s left, total, timestamp := now }

def change? (c : Census R) (now : Instant) (source target : Lifecycle) : Option (Census R) :=
  if source = target then some c
  else if target = .expired then c.remove? now source
  else if source = .expired then some (c.add now target)
  else if c.counts.get source = 0 then some (c.add now target)
  else do
    let rest ← oneLess? (c.counts.get source)
    let left := c.counts.set source rest
    some { c with counts := left.set target (left.get target + 1), timestamp := now }

theorem remove?_eq (hc : c.Consistent) (now : Instant) (s : Lifecycle) :
    c.remove? now s = some (c.remove now s) := by
  unfold remove? remove
  split_ifs with hs hzero
  · rfl
  · rfl
  · have within : c.counts.get s ≤ c.total := hc.count_le_total s
    have total : c.total ≠ 0 := by omega
    rw [oneLess?_eq hzero, oneLess?_eq total]
    rfl

theorem change?_eq (hc : c.Consistent) (now : Instant) (s t : Lifecycle) :
    c.change? now s t = some (c.change now s t) := by
  unfold change? change
  split_ifs with hst ht hs hzero
  · rfl
  · exact remove?_eq hc now s
  · rfl
  · rfl
  · rw [oneLess?_eq hzero]
    rfl

/-! ## Live states -/

/-- Some live states and one more; an expired proxy is not among them. -/
def arrive (s : Lifecycle) (live : List Lifecycle) : List Lifecycle :=
  if s = .expired then live else s :: live

/-- A census counts some states, all of which are live. -/
structure Follows (c : Census R) (live : List Lifecycle) : Prop where
  balances : c.Balances live
  living : .expired ∉ live

namespace Follows

theorem reset (c : Census R) (now : Instant) : (c.reset now).Follows [] :=
  ⟨.reset c now, List.not_mem_nil⟩

theorem count (hc : c.Follows live) (hexpired : c.count .expired = 0) (s : Lifecycle) :
    c.count s = live.count s := by
  by_cases hs : s = .expired
  · rw [hs, hexpired, List.count_eq_zero.mpr hc.living]
  · exact hc.balances.count s hs

/-- Whoever is taken from a state that counts somebody was there. -/
theorem balances_cons_erase (hc : c.Follows live) (hs : s = .expired ∨ c.count s ≠ 0) :
    c.Balances (s :: live.erase s) := by
  by_cases hexpired : s = .expired
  · rw [hexpired, List.erase_of_not_mem hc.living, Balances.expired_iff]
    exact hc.balances
  · have counted : c.count s ≠ 0 := hs.resolve_left hexpired
    have mem : s ∈ live := by
      rw [← List.count_pos_iff, ← hc.balances.count s hexpired]
      exact Nat.pos_of_ne_zero counted
    exact hc.balances.perm (List.perm_cons_erase mem)

theorem not_mem_erase (hc : c.Follows live) (s : Lifecycle) : .expired ∉ live.erase s :=
  fun h => hc.living (List.mem_of_mem_erase h)

theorem arrive (hb : c.Balances (t :: live)) (hlive : .expired ∉ live) :
    c.Follows (arrive t live) := by
  unfold Census.arrive
  split_ifs with ht
  · rw [ht, Balances.expired_iff] at hb
    exact ⟨hb, hlive⟩
  · exact ⟨hb, by simpa [Ne.symm ht] using hlive⟩

/-- A move is a departure and an arrival, also one that stays where it is. -/
theorem change (hc : c.Follows live) (now : Instant) (hs : s = .expired ∨ c.count s ≠ 0) :
    (c.change now s t).Follows (Census.arrive t (live.erase s)) := by
  have leaves := hc.balances_cons_erase hs
  refine arrive ?_ (hc.not_mem_erase s)
  by_cases hst : s = t
  · subst hst
    rwa [Census.change, if_pos rfl]
  · exact leaves.change now hst

end Follows

/-! ## Entries -/

variable [Scalar R] {e : Entry} {entries : List (Instant × Entry)}

def enterAll (c : Census R) (entries : List (Instant × Entry)) : Census R :=
  entries.foldl (fun c e => c.enter e.1 e.2) c

theorem enterAll_append (c : Census R) (earlier later : List (Instant × Entry)) :
    c.enterAll (earlier ++ later) = (c.enterAll earlier).enterAll later :=
  List.foldl_append

theorem figures_recordValidation (c : Census R) (now : Instant) (o : Outcome) :
    let d := c.recordValidation now o
    d.counts = c.counts ∧ d.total = c.total ∧ d.validations = c.validations + 1 ∧
      d.successfulValidations + d.failedValidations =
        c.successfulValidations + c.failedValidations + 1 := by
  unfold recordValidation
  cases o.isSuccess with
  | true => exact ⟨rfl, rfl, rfl, Nat.add_right_comm _ 1 _⟩
  | false => exact ⟨rfl, rfl, rfl, rfl⟩

namespace Consistent

theorem empty (now : Instant) : (Census.empty now : Census R).Consistent := ⟨rfl, rfl, rfl⟩

theorem recordValidation (hc : c.Consistent) (now : Instant) (o : Outcome) :
    (c.recordValidation now o).Consistent := by
  obtain ⟨counts, total, all, parts⟩ := figures_recordValidation c now o
  refine ⟨?_, ?_, ?_⟩
  · rw [AddsUp, counts, total]
    exact hc.addsUp
  · rw [count, counts]
    exact hc.expired
  · rw [parts, all, hc.validations]

theorem enter (hc : c.Consistent) (now : Instant) (e : Entry) : (c.enter now e).Consistent := by
  cases e with
  | add s => exact hc.recounted (.add c now s) (hc.addsUp.add now s)
  | remove s => exact hc.recounted (.remove c now s) (hc.addsUp.remove now s)
  | change s t => exact hc.recounted (.change c now s t) (hc.addsUp.change now s t)
  | reset => exact ⟨rfl, rfl, hc.validations⟩
  | validation o => exact hc.recordValidation now o
  | useTime | request | served | beginWait | endWait =>
    exact ⟨hc.addsUp, hc.expired, hc.validations⟩

theorem enterAll (hc : c.Consistent) (entries : List (Instant × Entry)) :
    (c.enterAll entries).Consistent := by
  induction entries generalizing c with
  | nil => exact hc
  | cons e later ih => exact ih (hc.enter e.1 e.2)

end Consistent

/-- One more entry with checked subtractions. The number of those who wait is meant to stop at
zero, so that it needs no check. -/
def enter? (c : Census R) (now : Instant) : Entry → Option (Census R)
  | .remove s => c.remove? now s
  | .change s t => c.change? now s t
  | e => some (c.enter now e)

def enterAll? (c : Census R) (entries : List (Instant × Entry)) : Option (Census R) :=
  entries.foldlM (fun c e => c.enter? e.1 e.2) c

theorem enter?_eq (hc : c.Consistent) (now : Instant) (e : Entry) :
    c.enter? now e = some (c.enter now e) := by
  cases e with
  | remove s => exact remove?_eq hc now s
  | change s t => exact change?_eq hc now s t
  | add | reset | validation | useTime | request | served | beginWait | endWait => rfl

/-- No subtraction goes below zero. -/
theorem enterAll?_eq (hc : c.Consistent) (entries : List (Instant × Entry)) :
    c.enterAll? entries = some (c.enterAll entries) := by
  induction entries generalizing c with
  | nil => rfl
  | cons e later ih =>
    rw [enterAll?, List.foldlM_cons, enter?_eq hc e.1 e.2]
    exact ih (hc.enter e.1 e.2)

namespace Entry

/-- The live states after one more entry. -/
def replay (live : List Lifecycle) : Entry → List Lifecycle
  | add s => arrive s live
  | remove s => live.erase s
  | change s t => arrive t (live.erase s)
  | reset => []
  | _ => live

/-- The state that an entry takes a proxy from. -/
def origin? : Entry → Option Lifecycle
  | remove s => some s
  | change s _ => some s
  | _ => none

end Entry

def replay (live : List Lifecycle) (entries : List (Instant × Entry)) : List Lifecycle :=
  entries.foldl (fun live e => e.2.replay live) live

/-- Every entry takes a proxy from a state that counts somebody by then, or from expiry. -/
def Grounded (c : Census R) : List (Instant × Entry) → Prop
  | [] => True
  | (now, e) :: later =>
    (∀ s ∈ e.origin?, s = .expired ∨ c.count s ≠ 0) ∧ (c.enter now e).Grounded later

namespace Follows

/-- A grounded entry does to the counts what its replay does to the states. -/
theorem enter (hc : c.Follows live) (now : Instant)
    (he : ∀ s ∈ e.origin?, s = .expired ∨ c.count s ≠ 0) :
    (c.enter now e).Follows (e.replay live) := by
  cases e with
  | add s => exact arrive (hc.balances.add now s) hc.living
  | remove s =>
    have leaves := hc.balances_cons_erase (he s rfl)
    exact ⟨leaves.remove now, hc.not_mem_erase s⟩
  | change s t => exact hc.change now (he s rfl)
  | reset => exact .reset c now
  | validation o =>
    obtain ⟨counts, total, -, -⟩ := figures_recordValidation c now o
    exact ⟨hc.balances.congr counts total, hc.living⟩
  | useTime | request | served | beginWait | endWait =>
    exact ⟨hc.balances.congr rfl rfl, hc.living⟩

theorem enterAll (hc : c.Follows live) (hg : c.Grounded entries) :
    (c.enterAll entries).Follows (replay live entries) := by
  induction entries generalizing c live with
  | nil => exact hc
  | cons e later ih => exact ih (hc.enter e.1 hg.1) hg.2

theorem nobody (start : Instant) {earlier : List (Instant × Entry)}
    (h : earlier = [] ∨ ∃ before now, earlier = before ++ [(now, .reset)]) :
    ((Census.empty start : Census R).enterAll earlier).Follows [] := by
  obtain rfl | ⟨before, now, rfl⟩ := h
  · exact ⟨⟨fun s _ => StateCounts.get_empty s, rfl⟩, List.not_mem_nil⟩
  · rw [enterAll_append]
    exact .reset _ now

end Follows

/-- Whatever is entered into an empty census, the counts of the states add up to the total, nobody
expired is counted, no subtraction goes below zero, and every probe is a success or a failure. If
from the beginning or from a reset on every departure and every move starts from expiry or from a
state that counts somebody, the counts are those of the states that the entries leave. -/
theorem books_stay_consistent (start : Instant) (entries : List (Instant × Entry)) :
    let c : Census R := (empty start).enterAll entries
    (c.snapshot.stateSum = c.snapshot.total ∧ (Lifecycle.all.map c.count).sum = c.total ∧
      c.count .expired = 0) ∧
    (empty start).enterAll? entries = some c ∧
    c.successfulValidations + c.failedValidations = c.validations ∧
    ∀ earlier recent, entries = earlier ++ recent →
      (earlier = [] ∨ ∃ before now, earlier = before ++ [(now, .reset)]) →
      ((empty start : Census R).enterAll earlier).Grounded recent →
      ∀ s, c.count s = (replay [] recent).count s := by
  intro c
  have hempty : (empty start : Census R).Consistent := .empty start
  have hc : c.Consistent := hempty.enterAll entries
  refine ⟨⟨hc.addsUp, ?_, hc.expired⟩, enterAll?_eq hempty entries, hc.validations, ?_⟩
  · have sum := c.counts.sum_get
    have live : c.counts.liveSum = c.total := hc.addsUp
    have expired : c.counts.expired = 0 := hc.expired
    rw [live, expired] at sum
    exact sum
  · intro earlier recent hentries hearlier hg s
    have follows := (Follows.nobody start hearlier).enterAll hg
    rw [← enterAll_append, ← hentries] at follows
    exact follows.count hc.expired s

/-- A departure from an empty state, a reset, and entries that are grounded after it. -/
theorem books_stay_consistent_after_reset :
    let earlier : List (Instant × Entry) :=
      [(1, .add .pending), (2, .remove .disabled), (3, .change .cooldown .available), (4, .reset)]
    let recent : List (Instant × Entry) :=
      [(5, .add .pending), (6, .add .available), (7, .change .pending .expired),
        (8, .change .expired .cooldown), (9, .change .available .available), (10, .endWait)]
    let c : Census Float := (empty 0).enterAll (earlier ++ recent)
    ((empty 0 : Census Float).enterAll earlier).Grounded recent ∧
      replay [] recent = [.available, .cooldown] ∧
      (∀ s, c.count s = [Lifecycle.available, .cooldown].count s) ∧
      c.snapshot.stateSum = c.snapshot.total := by
  intro earlier recent c
  have grounded : ((empty 0 : Census Float).enterAll earlier).Grounded recent := by
    simp only [Grounded, recent]
    decide
  have left : replay [] recent = [.available, .cooldown] := by decide
  obtain ⟨⟨sum, -⟩, -, -, follows⟩ := books_stay_consistent (R := Float) 0 (earlier ++ recent)
  refine ⟨grounded, left, ?_, sum⟩
  rw [← left]
  exact follows earlier recent rfl (.inr ⟨earlier.dropLast, 4, rfl⟩) grounded

end Census
end ProxyLease
