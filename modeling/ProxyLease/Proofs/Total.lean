import ProxyLease.Proofs.Agreement

/-!
# The total

Of all that a pool does, only the arrival of a new proxy adds to the total. A move
between two live states leaves it as it is, because the books count whoever moves, and who
expires or is handed out for good is taken off.
-/

namespace ProxyLease

namespace Census

variable {c d : Census Float} {s t : Lifecycle}

theorem total_remove_le (c : Census Float) (now : Instant) (s : Lifecycle) :
    (c.remove now s).total ≤ c.total := by
  unfold remove
  split_ifs
  · exact Nat.le_refl _
  · exact Nat.le_refl _
  · exact Nat.sub_le _ _

theorem total_change_le (now : Instant) (hs : s ≠ .expired) (hcount : c.counts.get s ≠ 0) :
    (c.change now s t).total ≤ c.total := by
  unfold change
  rw [if_neg hs, if_neg hcount]
  split_ifs
  · exact Nat.le_refl _
  · exact total_remove_le c now s
  · exact Nat.le_refl _

theorem Balances.total_unique {states : List Lifecycle} (hc : c.Balances states)
    (hd : d.Balances states) : d.total = c.total := hd.total.trans hc.total.symm

end Census

namespace Pool

variable {c : Concern} {p q : Pool} {h : Handle} {s t : Lifecycle}

theorem Books.count_ne_zero (hb : Books True p) (hs : p.state? h = some s) (hlive : s ≠ .expired)
    (hkept : s = .inUse → p.settings.removeAfterGet = false) : p.census.counts.get s ≠ 0 := by
  have hperm := states_perm (hb.enrolled.mem_handles hs hlive hkept) hs
  rw [((hb.balanced trivial).perm hperm).count s hlive, List.count_cons_self]
  exact Nat.succ_ne_zero _

theorem total_transfer_le (hb : Books True p) (hs : p.state? h = some s) (hst : s ≠ t)
    (hlive : s ≠ .expired) (hkept : s = .inUse → p.settings.removeAfterGet = false) :
    (p.transfer h s t).census.total ≤ p.census.total := by
  obtain ⟨id, hid⟩ := exists_id_of_state hs
  rw [transfer_eq hs hid hst]
  exact Census.total_change_le p.now hlive (hb.count_ne_zero hs hlive hkept)

theorem total_handOut_le (hb : Books True p) (hs : p.state? h = some .available) :
    (p.handOut h).census.total ≤ p.census.total := by
  obtain ⟨id, hid⟩ := exists_id_of_state hs
  rw [handOut_eq hs hid]
  change p.claimedCensus.total ≤ p.census.total
  unfold claimedCensus
  split_ifs
  · exact Census.total_remove_le _ _ _
  · exact Census.total_change_le p.now nofun (hb.count_ne_zero hs nofun nofun)

theorem total_recount (hb : Books True p) : p.recount.census.total = p.census.total :=
  (hb.balanced trivial).total_unique ((Books.recount hb.enrolled).balanced trivial)

/-- The books are in order, and the total is within a bound. -/
structure Bounded (bound : Nat) (p : Pool) : Prop where
  books : Books True p
  total : p.census.total ≤ bound

/-- No stroke but the arrival of a new proxy takes the total beyond a bound. -/
theorem boundedLaw (hc : c ≠ .acquisition) (bound : Nat) : StrokeLaw c (Bounded bound) where
  still hsettings hregistry hid hstate hcounts htotal hb :=
    ⟨hb.books.congr hsettings hregistry hid hstate hcounts htotal, htotal ▸ hb.total⟩
  transfer hs hst hlive _ hkept hb :=
    ⟨hb.books.transfer hs hst hlive hkept,
      Nat.le_trans (total_transfer_le hb.books hs hst hlive hkept) hb.total⟩
  handOut hs hb := ⟨hb.books.handOut hs, Nat.le_trans (total_handOut_le hb.books hs) hb.total⟩
  register harrival := absurd harrival hc
  recount hb := ⟨Books.recount hb.books.enrolled, total_recount hb.books ▸ hb.total⟩

end Pool

theorem World.total_perform_le (w : World) {a : Action} (hc : w.concern a ≠ .acquisition)
    (hb : w.pool.Books True) : (w.perform a).pool.census.total ≤ w.pool.census.total :=
  ((Pool.boundedLaw hc _).perform ⟨hb, Nat.le_refl _⟩).total

end ProxyLease
