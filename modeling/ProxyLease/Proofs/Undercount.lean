import ProxyLease.Proofs.Agreement
import ProxyLease.Proofs.Pool.Beat

/-!
# What the census leaves out

Over a storage that was filled before, the census knows of nobody until the first start,
and who moves meanwhile is counted as an arrival. So it may leave proxies out, but it never
counts more of them than are registered.
-/

namespace ProxyLease

namespace Census

variable {c d : Census Float} {s t : Lifecycle} {states states' : List Lifecycle}

/-- In every live state, no more are counted than there are among some states. -/
def Within (c : Census Float) (states : List Lifecycle) : Prop :=
  ∀ s, s ≠ .expired → c.counts.get s ≤ states.count s

namespace Within

theorem perm (hc : c.Within states) (hp : states.Perm states') : c.Within states' := by
  intro s hs
  rw [← hp.count_eq s]
  exact hc s hs

theorem congr (hc : c.Within states) (hcounts : d.counts = c.counts) : d.Within states := by
  intro s hs
  rw [hcounts]
  exact hc s hs

theorem of_balances (hb : c.Balances states) : c.Within states :=
  fun s hs => Nat.le_of_eq (hb.count s hs)

theorem add (hc : c.Within states) (now : Instant) (s : Lifecycle) :
    (c.add now s).Within (s :: states) := by
  intro t ht
  have hcount := hc t ht
  unfold Census.add
  split_ifs with hs
  · exact Nat.le_trans hcount List.count_le_count_cons
  · simp only [StateCounts.get_set, List.count_cons]
    by_cases hts : t = s
    · simpa [hts] using hts ▸ hcount
    · simpa [hts, Ne.symm hts] using hcount

/-- Who leaves a state in which nobody is counted was not counted. -/
theorem remove (hc : c.Within (s :: states)) (now : Instant) (hs : s ≠ .expired) :
    (c.remove now s).Within states := by
  intro t ht
  have hcount := hc t ht
  rw [List.count_cons] at hcount
  unfold Census.remove
  rw [if_neg hs]
  split_ifs with hzero
  · by_cases hts : t = s
    · rw [hts, hzero]
      exact Nat.zero_le _
    · simpa [Ne.symm hts] using hcount
  · rw [StateCounts.get_set]
    by_cases hts : t = s
    · subst hts
      rw [beq_self_eq_true, if_pos rfl] at hcount
      rw [if_pos rfl]
      exact Nat.sub_le_iff_le_add.mpr hcount
    · simpa [hts, Ne.symm hts] using hcount

theorem change (hc : c.Within (s :: states)) (now : Instant) (hs : s ≠ .expired) (hst : s ≠ t)
    (ht : t ≠ .expired) : (c.change now s t).Within (t :: states) := by
  unfold Census.change
  rw [if_neg hst, if_neg ht, if_neg hs]
  split_ifs with hzero
  · have hrest : c.Within states := by
      intro u hu
      have hcount := hc u hu
      by_cases hus : u = s
      · rw [hus, hzero]
        exact Nat.zero_le _
      · rwa [List.count_cons_of_ne (Ne.symm hus)] at hcount
    exact hrest.add now t
  · intro u hu
    have hcount := hc u hu
    simp only [StateCounts.get_set, List.count_cons] at hcount ⊢
    by_cases hut : u = t
    · subst hut
      simpa [hst, Ne.symm hst] using hcount
    · by_cases hus : u = s
      · subst hus
        simp only [hut, Ne.symm hut, beq_self_eq_true, beq_iff_eq, if_true, if_false] at hcount ⊢
        omega
      · simpa [hut, hus, Ne.symm hut, Ne.symm hus] using hcount

end Within

theorem liveSum_count_le (states : List Lifecycle) :
    states.count .pending + states.count .validating + states.count .available +
      states.count .inUse + states.count .cooldown + states.count .disabled ≤ states.length := by
  induction states with
  | nil => exact Nat.le_refl _
  | cons s rest ih =>
    cases s <;> simp only [List.count_cons, List.length_cons, beq_self_eq_true, reduceCtorEq,
      beq_iff_eq, if_true, if_false] <;> omega

theorem Within.total_le (hc : c.Within states) (hsum : c.AddsUp) : c.total ≤ states.length := by
  have hle := liveSum_count_le states
  have hpending := hc .pending nofun
  have hvalidating := hc .validating nofun
  have havailable := hc .available nofun
  have hinUse := hc .inUse nofun
  have hcooldown := hc .cooldown nofun
  have hdisabled := hc .disabled nofun
  have htotal : c.counts.liveSum = c.total := hsum
  simp only [StateCounts.get] at hpending hvalidating havailable hinUse hcooldown hdisabled
  rw [← htotal, StateCounts.liveSum]
  omega

end Census

namespace Pool

variable {c : Concern} {p q : Pool} {h : Handle} {s t : Lifecycle}

/-- The registry is sound, and the census adds up to no more than is registered. -/
structure Modest (p : Pool) : Prop where
  enrolled : p.Enrolled
  addsUp : p.census.AddsUp
  within : p.census.Within p.states

namespace Modest

theorem transfer (hp : p.Modest) (hs : p.state? h = some s) (hst : s ≠ t) (hlive : s ≠ .expired)
    (hkept : s = .inUse → p.settings.removeAfterGet = false) : (p.transfer h s t).Modest := by
  have he := hp.enrolled
  have hb : Books False p := ⟨he, nofun⟩
  have hm := moved_transfer hs hst
  have hh := he.mem_handles hs hlive hkept
  obtain ⟨id, hid⟩ := exists_id_of_state hs
  have hentry := he.mem_entries hh hid
  have hregistry := registry_transfer he hs hst hentry
  have hwithin := hp.within.perm (states_perm hh hs)
  have hcensus : (p.transfer h s t).census = p.census.change p.now s t := by
    rw [transfer_eq hs hid hst]
  refine ⟨(hb.transfer hs hst hlive hkept).enrolled, ?_, ?_⟩
  · rw [hcensus]
    exact hp.addsUp.change p.now s t
  · rw [hcensus]
    by_cases ht : t = .expired
    · rw [if_pos ht] at hregistry
      rw [hm.states_leave he hentry hregistry, Census.change, if_neg hst, if_pos ht]
      exact hwithin.remove p.now hlive
    · rw [if_neg ht] at hregistry
      exact (hwithin.change p.now hlive hst ht).perm (hm.states_stay he hh hregistry).symm

theorem handOut (hp : p.Modest) (hs : p.state? h = some .available) : (p.handOut h).Modest := by
  have he := hp.enrolled
  have hb : Books False p := ⟨he, nofun⟩
  have hm := moved_handOut hs
  have hh := he.mem_handles hs nofun nofun
  obtain ⟨id, hid⟩ := exists_id_of_state hs
  have hentry := he.mem_entries hh hid
  have hregistry := registry_handOut he hs hentry
  have hwithin := hp.within.perm (states_perm hh hs)
  refine ⟨(hb.handOut hs).enrolled, addsUp_handOut hp.addsUp hs, ?_⟩
  have hcounts : (p.handOut h).census.counts = p.claimedCensus.counts := by
    rw [handOut_eq hs hid]
    rfl
  refine Census.Within.congr ?_ hcounts
  unfold claimedCensus
  split_ifs with hmode
  · rw [if_pos hmode] at hregistry
    rw [hm.states_leave he hentry hregistry]
    exact hwithin.remove p.now nofun
  · rw [if_neg hmode] at hregistry
    have hmoved := hwithin.change (t := .inUse) p.now nofun nofun nofun
    exact hmoved.perm (hm.states_stay he hh hregistry).symm

theorem register {e : Endpoint} (hp : p.Modest) (ha : p.admit? e = some q) : q.Modest := by
  have hb : Books False p := ⟨hp.enrolled, nofun⟩
  have hcensus : q.census = p.census.add p.now .pending := by
    obtain ⟨registry, queue, _, rfl⟩ := admit?_eq_some ha
    rfl
  refine ⟨(hb.register ha).enrolled, ?_, ?_⟩
  · rw [hcensus]
    exact hp.addsUp.add p.now .pending
  · rw [hcensus]
    exact (hp.within.add p.now .pending).perm (states_register hp.enrolled ha).symm

end Modest

theorem modestLaw (c : Concern) : StrokeLaw c Modest where
  still hsettings hregistry hid hstate hcounts htotal hp := by
    have hb : Books False _ := ⟨hp.enrolled, nofun⟩
    refine ⟨(hb.congr hsettings hregistry hid hstate hcounts htotal).enrolled, ?_, ?_⟩
    · rw [Census.AddsUp, hcounts, htotal]
      exact hp.addsUp
    · rw [states_congr hregistry hstate]
      exact hp.within.congr hcounts
  transfer hs hst hlive _ hkept hp := hp.transfer hs hst hlive hkept
  handOut hs hp := hp.handOut hs
  register _ _ _ _ ha hp := hp.register ha
  recount {p} hp := by
    have hb := Books.recount hp.enrolled
    refine ⟨hb.enrolled, ?_, .of_balances (hb.balanced trivial)⟩
    exact (Census.AddsUp.reset p.census p.now).foldl_add p.now _

theorem Modest.total_le (hp : p.Modest) : p.census.total ≤ p.registry.size := by
  have hhandles : p.registry.handles.length = p.registry.size := List.length_map _
  rw [← hhandles]
  exact Nat.le_trans (hp.within.total_le hp.addsUp) (List.length_filterMap_le _ _)

end Pool

/-- Whatever the storage holds at first, the census never counts more than is registered. -/
theorem World.modest_of_reaches {settings : Settings} {sources : List String} {chooser : Chooser}
    {now : Instant} {content : List (Record Float)} {w : World}
    (hw : (opening settings sources chooser now content).Reaches w) : w.pool.Modest := by
  refine hw.keep (P := fun w => w.pool.Modest)
    (fun w a _ hp => (Pool.modestLaw (w.concern a)).perform hp) ?_
  have hb := (Stocked.enroll content).books settings sources chooser now
  exact ⟨hb.enrolled, rfl, fun s _ => by
    rw [show (opening settings sources chooser now content).pool.census.counts.get s = 0 from
      StateCounts.get_empty s]
    exact Nat.zero_le _⟩

end ProxyLease
