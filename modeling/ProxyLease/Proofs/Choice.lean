import Mathlib.Order.Basic
import Mathlib.Tactic.Common
import ProxyLease.Proofs.Pool.Change

/-!
# Choices among candidates

The choosers that settings can name choose one of the candidates whenever there is
any. A pool with such a chooser finds an available proxy exactly when there is one.
-/

namespace ProxyLease

namespace Roulette

variable {R : Type} [Scalar R]

theorem land_lt_length (roll : R) : ∀ (list : List R) (sum : R), list ≠ [] →
    land roll sum list < list.length
  | [_], _, _ => Nat.zero_lt_one
  | w :: v :: rest, sum, _ => by
    have ih := land_lt_length roll (v :: rest) (sum + w) (List.cons_ne_nil _ _)
    rw [land]
    split_ifs
    · exact Nat.zero_lt_succ _
    · exact Nat.succ_lt_succ ih
    · exact List.cons_ne_nil _ _

theorem spin_lt_length {weights : List R} (hw : weights ≠ []) (draw : R) :
    spin weights draw < weights.length := by
  unfold spin
  dsimp only
  refine (land_lt_length _ _ _ ?_).trans_eq (List.length_map _)
  simpa using hw

end Roulette

namespace Chooser

/-- One of the choosers that settings can name, whatever it draws. -/
def isStandard : Chooser → Bool
  | .scripted _ _ => false
  | _ => true

theorem isStandard_select (c : Chooser) (weight : Handle → Float) (list : List Handle) :
    (c.select weight list).2.isStandard = c.isStandard := by
  cases c with
  | roundRobin turn => unfold select; split_ifs <;> rfl
  | weighted | uniform | scripted => rfl

theorem select_mem {c : Chooser} (hc : c.isStandard = true) (weight : Handle → Float)
    {list : List Handle} (hl : list ≠ []) : ∃ h ∈ list, (c.select weight list).1 = some h := by
  have pick {i : Nat} (hi : i < list.length) : ∃ h ∈ list, list[i]? = some h :=
    ⟨list[i], List.getElem_mem hi, List.getElem?_eq_getElem hi⟩
  have hpos : 0 < list.length := List.length_pos_iff.mpr hl
  cases c with
  | weighted draws =>
    have hm : list.map weight ≠ [] := by simpa using hl
    exact pick ((Roulette.spin_lt_length hm _).trans_eq (List.length_map _))
  | roundRobin turn =>
    simp only [select, if_neg hl]
    exact pick (Nat.mod_lt _ hpos)
  | uniform draws => exact pick (Nat.mod_lt _ hpos)
  | scripted picks directory => cases hc

theorem select_nil {c : Chooser} (hc : c.isStandard = true) (weight : Handle → Float) :
    (c.select weight []).1 = none := by
  cases c with
  | weighted | roundRobin | uniform => rfl
  | scripted => cases hc

end Chooser

namespace Pool

variable {p q : Pool} {h : Handle}

theorem mem_proxiesIn {s : Lifecycle} :
    h ∈ p.proxiesIn s ↔ h ∈ p.registry.handles ∧ p.state? h = some s := by
  simp [proxiesIn]

theorem isStandard_choose (p : Pool) : p.choose.2.chooser.isStandard = p.chooser.isStandard :=
  Chooser.isStandard_select _ _ _

theorem takeWithin_eq_none (tries : Nat) (hc : p.chooser.isStandard = true)
    (hn : (p.takeWithin (tries + 1)).1 = none) :
    p.proxiesIn .available = [] ∧ (p.takeWithin (tries + 1)).2 = p.choose.2 := by
  by_cases hl : p.proxiesIn .available = []
  · refine ⟨hl, ?_⟩
    rw [takeWithin] at hn ⊢
    split at hn
    · next q hq => rw [hq]
    · next h q hq =>
      have hnone : p.choose.1 = none := by
        rw [choose, hl]
        exact Chooser.select_nil hc _
      rw [hq] at hnone
      cases hnone
  · exfalso
    let weight (k : Handle) : Float := ((p.record? k).map (·.weight p.now)).getD 0
    obtain ⟨k, hk, hsel⟩ := Chooser.select_mem hc weight hl
    have hch : p.choose = (some k, p.choose.2) := Prod.ext hsel rfl
    have hs : p.choose.2.state? k = some .available := (mem_proxiesIn.mp hk).2
    rw [takeWithin, hch] at hn
    simp only [claim?_eq_some hs] at hn
    cases hn

theorem dispatchAvailable_changes {c : Concern} (hc : p.chooser.isStandard = true)
    (hl : p.proxiesIn .available = []) : Changes c p p.dispatchAvailable := by
  have hn : p.choose = (none, p.choose.2) := by
    refine Prod.ext ?_ rfl
    rw [choose, hl]
    exact Chooser.select_nil hc _
  rw [dispatchAvailable, dispatchWithin]
  split
  · rw [hn]
    exact (Change.choose p).changes
  · exact .refl p

end Pool
end ProxyLease
