import Mathlib.Tactic.Common
import ProxyLease.Proofs.Registry
import ProxyLease.Simulation.Scenario

/-!
# Openings

A pool opens over a storage that may hold records from earlier, each registered under
its own identity. No task runs yet, and nobody has asked for anything.
-/

namespace ProxyLease

/-- Every record of a storage is registered, under its own identity and no other. -/
structure Stocked (records : Array (Record Float)) (registry : Registry) : Prop where
  keyed : registry.Keyed
  named : ∀ e ∈ registry.entries, (records[e.2]?).map (·.id) = some e.1
  listed : ∀ h < records.size, h ∈ registry.handles

namespace Stocked

variable {records : Array (Record Float)} {registry next : Registry}

theorem empty : Stocked #[] .empty := ⟨List.nodup_nil, nofun, nofun⟩

theorem push (hs : Stocked records registry) {r : Record Float}
    (ha : registry.add? r.id records.size = some next) : Stocked (records.push r) next := by
  obtain ⟨_, hentries⟩ := Registry.add?_eq_some ha
  refine ⟨hs.keyed.add ha, ?_, ?_⟩
  · intro e hm
    rw [hentries.mem_iff, List.mem_cons] at hm
    rcases hm with rfl | hm
    · rw [Array.getElem?_push_size]
      rfl
    · have hname := hs.named e hm
      have hlt : e.2 < records.size := by
        by_contra hn
        rw [Array.getElem?_eq_none (Nat.le_of_not_lt hn)] at hname
        cases hname
      rw [Array.getElem?_push_lt hlt, ← Array.getElem?_eq_getElem hlt]
      exact hname
  · intro h hh
    rw [Array.size_push] at hh
    rw [Registry.mem_handles_add ha]
    rcases Nat.lt_succ_iff_lt_or_eq.mp hh with hlt | heq
    · exact .inr (hs.listed h hlt)
    · exact .inl heq

theorem enroll (content : List (Record Float)) :
    Stocked (Simulation.Scenario.enroll content).1 (Simulation.Scenario.enroll content).2 := by
  refine List.foldlRecOn content _
    (motive := fun stock : Array (Record Float) × Registry => Stocked stock.1 stock.2) empty
    fun (kept, registry) hs r _ => ?_
  dsimp only at hs ⊢
  split
  · next next ha => exact hs.push ha
  · exact hs

end Stocked

/-- A pool over a storage with some content, before anything happens. -/
def World.opening (settings : Settings) (sources : List String) (chooser : Chooser)
    (now : Instant) (content : List (Record Float)) : World :=
  .ofPool (.create settings sources chooser now (Simulation.Scenario.enroll content).1
    (Simulation.Scenario.enroll content).2)

end ProxyLease
