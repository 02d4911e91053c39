import Mathlib.Data.List.Nodup
import ProxyLease.Probe.ClientCache

/-!
# How long a client is cached

A client in use is never dropped, and an unused one is gone two idle windows after its
last use. The upper bound rests on the time of the last sweep: what a sweep leaves was
used less than one window before it, and the next operation a window later sweeps again.
-/

namespace ProxyLease
namespace ClientCache

variable {C ε : Type} {c d : ClientCache C} {key : String} {now last : Instant}
  {e x : CachedClient C} {entries : List (CachedClient C)}

theorem isIdle_iff : c.isIdle now e = true ↔ c.idleTimeout.ns ≤ now - e.lastUsed := by
  simp [isIdle, Duration.le_iff, Duration.since]

theorem isIdle_eq_false_iff : c.isIdle now e = false ↔ now - e.lastUsed < c.idleTimeout.ns := by
  rw [← Bool.not_eq_true, isIdle_iff, Nat.not_le]

@[simp] theorem sweep_maxEntries : (c.sweep now).maxEntries = c.maxEntries := by
  unfold sweep
  split <;> rfl

@[simp] theorem sweep_idleTimeout : (c.sweep now).idleTimeout = c.idleTimeout := by
  unfold sweep
  split <;> rfl

@[simp] theorem makeRoom_maxEntries : (c.makeRoom now).maxEntries = c.maxEntries := by
  unfold makeRoom
  split <;> rfl

@[simp] theorem makeRoom_idleTimeout : (c.makeRoom now).idleTimeout = c.idleTimeout := by
  unfold makeRoom
  split <;> rfl

@[simp] theorem makeRoom_lastSweep : (c.makeRoom now).lastSweep = c.lastSweep := by
  unfold makeRoom
  split <;> rfl

theorem sweep_sublist : (c.sweep now).entries.Sublist c.entries := by
  unfold sweep
  split
  · exact List.filter_sublist
  · exact List.Sublist.refl _

theorem mem_sweep_of_fresh (he : e ∈ c.entries) (hfresh : now - e.lastUsed < c.idleTimeout.ns) :
    e ∈ (c.sweep now).entries := by
  unfold sweep
  split
  · simp [he, isIdle_eq_false_iff.mpr hfresh]
  · exact he

/-! ## Room for one more -/

theorem withoutIdle_sublist (n : Nat) : (c.withoutIdle now n entries).Sublist entries := by
  induction entries generalizing n with
  | nil => cases n <;> simp [withoutIdle]
  | cons e rest ih =>
    cases n with
    | zero => simp [withoutIdle]
    | succ n =>
      unfold withoutIdle
      split
      · exact (ih n).cons e
      · exact (ih (n + 1)).cons_cons e

theorem mem_withoutIdle_of_fresh (n : Nat) (he : e ∈ entries) (hfresh : c.isIdle now e = false) :
    e ∈ c.withoutIdle now n entries := by
  induction entries generalizing n with
  | nil => cases he
  | cons x rest ih =>
    cases n with
    | zero => simpa [withoutIdle] using he
    | succ n =>
      rcases List.mem_cons.mp he with rfl | hrest
      · simp [withoutIdle, hfresh]
      · unfold withoutIdle
        split
        · exact ih n hrest
        · exact List.mem_cons_of_mem _ (ih (n + 1) hrest)

theorem length_le_withoutIdle (n : Nat) :
    entries.length ≤ (c.withoutIdle now n entries).length + n := by
  induction entries generalizing n with
  | nil => simp
  | cons e rest ih =>
    cases n with
    | zero => simp [withoutIdle]
    | succ n =>
      have hdropped := ih n
      have hpassed := ih (n + 1)
      unfold withoutIdle
      split <;> simp only [List.length_cons] <;> omega

/-- What is left when idle clients made room for a new one: all that are in use, at most
sixteen fewer, and fewer only if the cache was full. -/
structure Evicted (c : ClientCache C) (now : Instant) (kept : List (CachedClient C)) : Prop where
  sublist : kept.Sublist c.entries
  fresh : ∀ e ∈ c.entries, now - e.lastUsed < c.idleTimeout.ns → e ∈ kept
  few : c.size ≤ kept.length + maxInlineEvictions
  full : kept.length < c.size → c.maxEntries ≤ c.size

theorem makeRoom_evicted (c : ClientCache C) (now : Instant) :
    Evicted c now (c.makeRoom now).entries := by
  unfold makeRoom
  split
  next hfull =>
    refine ⟨withoutIdle_sublist _, ?_, length_le_withoutIdle _, fun _ => hfull⟩
    intro e he hfresh
    exact mem_withoutIdle_of_fresh _ he (isIdle_eq_false_iff.mpr hfresh)
  next =>
    refine ⟨List.Sublist.refl _, fun _ he _ => he, Nat.le_add_right _ _, ?_⟩
    intro hless
    exact absurd hless (Nat.lt_irrefl _)

/-! ## Asking for a client -/

theorem mem_touch_iff :
    x ∈ (c.touch key now).entries ↔
      ∃ e ∈ c.entries, x = if e.key = key then { e with lastUsed := now } else e := by
  simp only [touch, List.mem_map, beq_iff_eq]
  constructor <;> rintro ⟨e, he, rfl⟩ <;> exact ⟨e, he, rfl⟩

theorem touch_keys : (c.touch key now).entries.map (·.key) = c.entries.map (·.key) := by
  simp only [touch, List.map_map]
  apply List.map_congr_left
  intro e _
  by_cases hkey : e.key = key <;> simp [hkey]

/-- The entry a made client gets; there is none when making it fails. -/
def added (key : String) (now : Instant) : Except ε C → List (CachedClient C)
  | .error _ => []
  | .ok client => [⟨key, client, now⟩]

theorem eq_of_mem_added {make : Except ε C} (hx : x ∈ added key now make) :
    ∃ client, make = .ok client ∧ x = ⟨key, client, now⟩ := by
  cases make with
  | error flaw => cases hx
  | ok client => exact ⟨client, rfl, List.mem_singleton.mp hx⟩

theorem obtain_of_cached {make : Except ε C} (hkeys : (c.entries.map (·.key)).Nodup)
    (he : e ∈ (c.sweep now).entries) (hkey : e.key = key) :
    c.obtain key now make = (.ok e.client, (c.sweep now).touch key now) := by
  have hfind : (c.sweep now).find? key = some e := by
    cases hfound : (c.sweep now).find? key with
    | none => exact absurd hkey (by simpa using List.find?_eq_none.mp hfound e he)
    | some x =>
      have hx : x ∈ c.entries := sweep_sublist.subset (List.mem_of_find?_eq_some hfound)
      have hxkey : x.key = key := by simpa using List.find?_some hfound
      rw [List.inj_on_of_nodup_map hkeys hx (sweep_sublist.subset he) (hxkey.trans hkey.symm)]
  simp only [obtain, hfind]

theorem obtain_of_absent {make : Except ε C} (habsent : ∀ e ∈ (c.sweep now).entries, e.key ≠ key) :
    c.obtain key now make = (make, { (c.sweep now).makeRoom now with
      entries := ((c.sweep now).makeRoom now).entries ++ added key now make }) := by
  have hfind : (c.sweep now).find? key = none := by
    apply List.find?_eq_none.mpr
    intro e he
    simpa using habsent e he
  cases make with
  | error flaw => simp only [obtain, hfind, added, List.append_nil]
  | ok client => simp only [obtain, hfind, added]

/-! ## Operations one after another -/

theorem obtain_keys_nodup {make : Except ε C} (hkeys : (c.entries.map (·.key)).Nodup) :
    ((c.obtain key now make).2.entries.map (·.key)).Nodup := by
  have hswept : ((c.sweep now).entries.map (·.key)).Nodup := (sweep_sublist.map _).nodup hkeys
  by_cases hcached : ∃ e ∈ (c.sweep now).entries, e.key = key
  · obtain ⟨e, he, hkey⟩ := hcached
    rw [obtain_of_cached hkeys he hkey, touch_keys]
    exact hswept
  · push Not at hcached
    have hroom := (makeRoom_evicted (c.sweep now) now).sublist
    rw [obtain_of_absent hcached, List.map_append, List.nodup_append]
    refine ⟨(hroom.map _).nodup hswept, ?_, ?_⟩
    · cases make <;> simp [added]
    · intro k hk k' hk'
      obtain ⟨e, he, rfl⟩ := List.mem_map.mp hk
      obtain ⟨x, hx, rfl⟩ := List.mem_map.mp hk'
      obtain ⟨client, -, rfl⟩ := eq_of_mem_added hx
      exact hcached e (hroom.subset he)

theorem obtain_frame {make : Except ε C} :
    (c.obtain key now make).2.maxEntries = c.maxEntries ∧
    (c.obtain key now make).2.idleTimeout = c.idleTimeout ∧
    (c.obtain key now make).2.lastSweep = (c.sweep now).lastSweep := by
  cases hfind : (c.sweep now).find? key with
  | some e => simp [ClientCache.obtain, hfind, touch]
  | none => cases make <;> simp [ClientCache.obtain, hfind]

/-- What a request leaves is what its sweep left, noted as used if it is of that key, and a
client it made. -/
theorem mem_obtain {make : Except ε C} (hkeys : (c.entries.map (·.key)).Nodup)
    (hx : x ∈ (c.obtain key now make).2.entries) :
    (∃ e ∈ (c.sweep now).entries, x = if e.key = key then { e with lastUsed := now } else e) ∨
      ∃ client, make = .ok client ∧ x = ⟨key, client, now⟩ := by
  by_cases hcached : ∃ e ∈ (c.sweep now).entries, e.key = key
  · obtain ⟨e, he, hkey⟩ := hcached
    rw [obtain_of_cached hkeys he hkey] at hx
    exact Or.inl (mem_touch_iff.mp hx)
  · push Not at hcached
    rw [obtain_of_absent hcached] at hx
    rcases List.mem_append.mp hx with hold | hnew
    · have hswept := (makeRoom_evicted _ now).sublist.subset hold
      exact Or.inl ⟨x, hswept, (if_neg (hcached x hswept)).symm⟩
    · exact Or.inr (eq_of_mem_added hnew)

theorem mem_obtain_of_ok {make : Except ε C} {client : C} (hkeys : (c.entries.map (·.key)).Nodup)
    (hok : (c.obtain key now make).1 = .ok client) :
    ⟨key, client, now⟩ ∈ (c.obtain key now make).2.entries := by
  by_cases hcached : ∃ e ∈ (c.sweep now).entries, e.key = key
  · obtain ⟨e, he, rfl⟩ := hcached
    rw [obtain_of_cached hkeys he rfl] at hok ⊢
    cases hok
    exact mem_touch_iff.mpr ⟨e, he, (if_pos rfl).symm⟩
  · push Not at hcached
    rw [obtain_of_absent hcached] at hok ⊢
    subst hok
    simp [added]

theorem mem_obtain_of_fresh {make : Except ε C} (hkeys : (c.entries.map (·.key)).Nodup)
    (he : e ∈ c.entries) (hfresh : now - e.lastUsed < c.idleTimeout.ns) :
    (if e.key = key then { e with lastUsed := now } else e) ∈ (c.obtain key now make).2.entries := by
  have hswept := mem_sweep_of_fresh he hfresh
  by_cases hcached : ∃ x ∈ (c.sweep now).entries, x.key = key
  · obtain ⟨x, hx, hkey⟩ := hcached
    rw [obtain_of_cached hkeys hx hkey]
    exact mem_touch_iff.mpr ⟨e, hswept, rfl⟩
  · push Not at hcached
    rw [obtain_of_absent hcached, if_neg (hcached e hswept)]
    apply List.mem_append_left
    apply (makeRoom_evicted _ now).fresh e hswept
    rwa [sweep_idleTimeout]

/-- The caches that sweeps and requests at non-decreasing times make of an empty one; the
last of them was at the given time. Nothing is said about the order of the entries. -/
inductive Reached (maxEntries : Nat) (idle : Duration) : Instant → ClientCache C → Prop
  | empty (now : Instant) : Reached maxEntries idle now (.empty maxEntries idle)
  | sweep {last now : Instant} {c : ClientCache C} : Reached maxEntries idle last c →
      last ≤ now → Reached maxEntries idle now (c.sweep now)
  | obtain {ε : Type} {last now : Instant} {c : ClientCache C} (key : String)
      (make : Except ε C) : Reached maxEntries idle last c → last ≤ now →
      Reached maxEntries idle now (c.obtain key now make).2
  | reorder {now : Instant} {c : ClientCache C} {entries : List (CachedClient C)} :
      Reached maxEntries idle now c → entries.Perm c.entries →
      Reached maxEntries idle now { c with entries }

variable {maxEntries : Nat} {idle : Duration}

theorem Reached.limits (h : Reached maxEntries idle now c) :
    c.maxEntries = maxEntries ∧ c.idleTimeout = idle := by
  induction h with
  | empty now => exact ⟨rfl, rfl⟩
  | sweep _ _ ih => simpa using ih
  | obtain key make _ _ ih => simpa [obtain_frame] using ih
  | reorder _ _ ih => exact ih

theorem Reached.keys_nodup (h : Reached maxEntries idle now c) :
    (c.entries.map (·.key)).Nodup := by
  induction h with
  | empty now => exact List.nodup_nil
  | sweep _ _ ih => exact (sweep_sublist.map _).nodup ih
  | obtain key make _ _ ih => exact obtain_keys_nodup ih
  | reorder _ hperm ih => exact (hperm.map _).nodup_iff.mpr ih

theorem Reached.used_le (h : Reached maxEntries idle now c) : ∀ e ∈ c.entries, e.lastUsed ≤ now := by
  induction h with
  | empty now => simp [ClientCache.empty]
  | sweep _ hnow ih =>
    intro e he
    exact Nat.le_trans (ih e (sweep_sublist.subset he)) hnow
  | obtain key make hc hnow ih =>
    intro x hx
    rcases mem_obtain hc.keys_nodup hx with ⟨e, he, rfl⟩ | ⟨client, -, rfl⟩
    · have hpast := Nat.le_trans (ih e (sweep_sublist.subset he)) hnow
      split
      · exact Nat.le_refl _
      · exact hpast
    · exact Nat.le_refl _
  | reorder _ hperm ih =>
    intro e he
    exact ih e (hperm.mem_iff.mp he)

/-! ## The last sweep -/

/-- The last sweep lies in the past, and what is cached had not been idle for a window then. -/
structure Tended (c : ClientCache C) (now : Instant) : Prop where
  swept : ∀ s, c.lastSweep = some s → s ≤ now ∧ ∀ e ∈ c.entries, s < e.lastUsed + c.idleTimeout.ns
  unswept : c.lastSweep = none → c.entries = []

theorem Tended.later (h : Tended c last) (hnow : last ≤ now) : Tended c now := by
  refine ⟨?_, h.unswept⟩
  intro s hs
  exact ⟨Nat.le_trans (h.swept s hs).1 hnow, (h.swept s hs).2⟩

theorem Tended.sweep (h : Tended c now) : Tended (c.sweep now) now := by
  by_cases hdue : c.sweepDue now = true
  · have hswept : c.sweep now = { c with
        entries := c.entries.filter fun e => !c.isIdle now e
        lastSweep := some now } := if_pos hdue
    rw [hswept]
    refine ⟨?_, by simp⟩
    intro s hs
    cases hs
    refine ⟨Nat.le_refl _, fun e he => ?_⟩
    have hfresh := isIdle_eq_false_iff.mp (by simpa using (List.mem_filter.mp he).2)
    grind
  · rw [ClientCache.sweep, if_neg hdue]
    exact h

/-- Right after an operation at `now`, the last sweep is less than a window old. -/
theorem Tended.lastSweep_recent (h : Tended c now) (hpos : 0 < c.idleTimeout.ns) :
    ∃ s, (c.sweep now).lastSweep = some s ∧ now < s + c.idleTimeout.ns := by
  unfold ClientCache.sweep
  split
  next hdue => exact ⟨now, rfl, Nat.lt_add_of_pos_right hpos⟩
  next hdue =>
    cases hs : c.lastSweep with
    | none => simp [sweepDue, hs] at hdue
    | some s =>
      simp only [sweepDue, hs, Duration.le_iff, Duration.since, decide_eq_true_eq,
        Nat.not_le] at hdue
      have hpast := (h.swept s hs).1
      exact ⟨s, rfl, by grind⟩

theorem Tended.obtain {make : Except ε C} (h : Tended c now) (hpos : 0 < c.idleTimeout.ns)
    (hkeys : (c.entries.map (·.key)).Nodup) (hpast : ∀ e ∈ c.entries, e.lastUsed ≤ now) :
    Tended (c.obtain key now make).2 now := by
  obtain ⟨s, hs, -⟩ := h.lastSweep_recent hpos
  have hidle : (c.obtain key now make).2.idleTimeout = c.idleTimeout := obtain_frame.2.1
  have hafter : (c.obtain key now make).2.lastSweep = some s := obtain_frame.2.2.trans hs
  obtain ⟨hsnow, hfresh⟩ := h.sweep.swept s hs
  refine ⟨?_, by simp [hafter]⟩
  intro s' hs'
  obtain rfl : s = s' := Option.some.inj (hafter.symm.trans hs')
  refine ⟨hsnow, fun x hx => ?_⟩
  rw [hidle]
  rcases mem_obtain hkeys hx with ⟨e, he, rfl⟩ | ⟨client, -, rfl⟩
  · have hold := hfresh e he
    have hused := hpast e (sweep_sublist.subset he)
    rw [sweep_idleTimeout] at hold
    split <;> grind
  · grind

theorem Reached.tended (hpos : 0 < idle.ns) (h : Reached maxEntries idle now c) : Tended c now := by
  induction h with
  | empty now => exact ⟨by simp [ClientCache.empty], fun _ => rfl⟩
  | sweep _ hnow ih => exact (ih.later hnow).sweep
  | obtain key make hc hnow ih =>
    apply (ih.later hnow).obtain (hc.limits.2 ▸ hpos) hc.keys_nodup
    intro e he
    exact Nat.le_trans (hc.used_le e he) hnow
  | reorder _ hperm ih =>
    refine ⟨?_, fun hs => List.perm_nil.mp (ih.unswept hs ▸ hperm)⟩
    intro s hs
    exact ⟨(ih.swept s hs).1, fun e he => (ih.swept s hs).2 e (hperm.mem_iff.mp he)⟩

/-- No operation leaves a client that was unused for two windows. -/
theorem Tended.unused_lt (h : Tended d now) (hc : Tended c now) (hpos : 0 < c.idleTimeout.ns)
    (hsweep : d.lastSweep = (c.sweep now).lastSweep) (hidle : d.idleTimeout = c.idleTimeout)
    (he : e ∈ d.entries) : now - e.lastUsed < 2 * c.idleTimeout.ns := by
  obtain ⟨s, hs, hrecent⟩ := hc.lastSweep_recent hpos
  have hfresh := (h.swept s (hsweep.trans hs)).2 e he
  rw [hidle] at hfresh
  grind

theorem sweep_eq_nil_of_no_window (hzero : c.idleTimeout.ns = 0) : (c.sweep now).entries = [] := by
  have hdue : c.sweepDue now = true := by
    unfold sweepDue
    split <;> simp [Duration.le_iff, hzero]
  rw [ClientCache.sweep, if_pos hdue]
  apply List.filter_eq_nil_iff.mpr
  intro e _
  have hidle : c.isIdle now e = true := isIdle_iff.mpr (by simp [hzero])
  simp [hidle]

theorem Reached.unused_lt_of_mem_sweep (hc : Reached maxEntries idle last c) (hnow : last ≤ now)
    (he : e ∈ (c.sweep now).entries) : now - e.lastUsed < 2 * idle.ns := by
  obtain ⟨-, rfl⟩ := hc.limits
  rcases Nat.eq_zero_or_pos c.idleTimeout.ns with hzero | hpos
  · simp [sweep_eq_nil_of_no_window hzero] at he
  · have htended := (hc.tended hpos).later hnow
    exact htended.sweep.unused_lt htended hpos rfl sweep_idleTimeout he

/-- Eviction is neither early nor later than two windows after the last use: a sweep and a
request drop unused clients only, a request at most sixteen more of a full cache, and no
client stays that was unused for two windows. A request is answered with the cached client,
whatever making one would come to, and otherwise with what making one comes to, which is
cached unless it failed. -/
theorem evicted_after_one_window_within_two (hpos : 0 < idle.ns)
    (hc : Reached maxEntries idle last c) (hnow : last ≤ now) :
    ((c.sweep now).entries.Sublist c.entries ∧
      (∀ e ∈ c.entries, now - e.lastUsed < idle.ns → e ∈ (c.sweep now).entries) ∧
      ∀ e ∈ (c.sweep now).entries, now - e.lastUsed < 2 * idle.ns) ∧
    ∀ {ε : Type} (key : String) (make : Except ε C),
      (∀ e ∈ c.entries, now - e.lastUsed < idle.ns →
        (if e.key = key then { e with lastUsed := now } else e) ∈
          (c.obtain key now make).2.entries) ∧
      (∀ e ∈ (c.obtain key now make).2.entries, now - e.lastUsed < 2 * idle.ns) ∧
      ((c.obtain key now make).2.entries.map (·.key)).Nodup ∧
      (∀ e ∈ (c.sweep now).entries, e.key = key →
        (c.obtain key now make).1 = .ok e.client ∧
        (c.obtain key now make).2.entries = (c.sweep now).entries.map fun x =>
          if x.key = key then { x with lastUsed := now } else x) ∧
      ((∀ e ∈ (c.sweep now).entries, e.key ≠ key) →
        (c.obtain key now make).1 = make ∧
        ∃ kept, Evicted (c.sweep now) now kept ∧
          (c.obtain key now make).2.entries = kept ++ added key now make) := by
  have hkeys := hc.keys_nodup
  have htended := (hc.tended hpos).later hnow
  have hpast : ∀ e ∈ c.entries, e.lastUsed ≤ now := fun e he =>
    Nat.le_trans (hc.used_le e he) hnow
  refine ⟨⟨sweep_sublist, ?_, fun e => hc.unused_lt_of_mem_sweep hnow⟩, ?_⟩
  · obtain ⟨-, rfl⟩ := hc.limits
    exact fun e => mem_sweep_of_fresh
  · obtain ⟨-, rfl⟩ := hc.limits
    intro ε key make
    refine ⟨fun e => mem_obtain_of_fresh hkeys, ?_, obtain_keys_nodup hkeys, ?_, ?_⟩
    · intro e he
      exact (htended.obtain hpos hkeys hpast).unused_lt htended hpos obtain_frame.2.2
        obtain_frame.2.1 he
    · intro e he hkey
      rw [obtain_of_cached hkeys he hkey]
      simp [touch]
    · intro habsent
      rw [obtain_of_absent habsent]
      exact ⟨rfl, _, makeRoom_evicted _ now, rfl⟩

/-- With room for two and windows of 300: the sweep at 300 drops the client of 0, and at 450
the client of 100 makes room for a third. -/
theorem idle_client_evicted_for_new_one :
    ∃ c : ClientCache Nat, Reached 2 ⟨300⟩ 320 c ∧
      (c.entries.map fun e => (e.key, e.lastUsed)) = [("a", 100), ("b", 320)] ∧
      ((c.obtain "c" 450 (.ok 4 : Except Unit Nat)).2.entries.map fun e =>
        (e.key, e.lastUsed)) = [("b", 320), ("c", 450)] ∧
      ∀ e ∈ (c.obtain "c" 450 (.ok 4 : Except Unit Nat)).2.entries, 450 - e.lastUsed < 2 * 300 := by
  have hfirst : Reached 2 ⟨300⟩ 0 (C := Nat) _ :=
    (Reached.empty 0).obtain "z" (.ok 1 : Except Unit Nat) (by decide)
  have hsecond : Reached 2 ⟨300⟩ 100 _ :=
    hfirst.obtain "a" (.ok 2 : Except Unit Nat) (by decide)
  have hswept : Reached 2 ⟨300⟩ 300 _ := hsecond.sweep (by decide)
  have hthird : Reached 2 ⟨300⟩ 320 _ :=
    hswept.obtain "b" (.ok 3 : Except Unit Nat) (by decide)
  refine ⟨_, hthird, by decide +kernel, by decide +kernel, ?_⟩
  exact ((evicted_after_one_window_within_two (by decide) hthird (by decide)).2 "c" _).2.1

end ClientCache
end ProxyLease
