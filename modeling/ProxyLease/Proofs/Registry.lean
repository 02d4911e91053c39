import Mathlib.Data.List.Nodup
import Mathlib.Tactic.Common
import ProxyLease.Registry

/-!
# Entries of a registry

Registering puts one entry among the others, removing takes out the entry of an
identity, and updating an identity under the handle it has changes nothing. A registry
is keyed if no identity is registered twice.
-/

namespace ProxyLease.Registry

variable {r r' : Registry} {id : String} {h k : Handle}

theorem perm_insertEntry (id : String) (h : Handle) :
    ∀ list : List (String × Handle), (insertEntry id h list).Perm ((id, h) :: list)
  | [] => .refl _
  | e :: rest => by
    rw [insertEntry]
    split_ifs
    · exact .refl _
    · exact ((perm_insertEntry id h rest).cons e).trans (.swap _ _ _)

/-- No identity is registered twice. -/
def Keyed (r : Registry) : Prop := (r.entries.map (·.1)).Nodup

theorem eq_of_keyed (hk : r.Keyed) {a b : String × Handle} (ha : a ∈ r.entries)
    (hb : b ∈ r.entries) (hab : a.1 = b.1) : a = b :=
  List.inj_on_of_nodup_map hk ha hb hab

/-! ### Registering -/

theorem add?_eq_some (ha : r.add? id h = some r') :
    (∀ e ∈ r.entries, e.1 ≠ id) ∧ r'.entries.Perm ((id, h) :: r.entries) := by
  unfold add? at ha
  split at ha
  · cases ha
  · next hn =>
    cases ha
    refine ⟨?_, perm_insertEntry _ _ _⟩
    intro e he heq
    have hne := List.lookup_eq_none_iff.mp hn e he
    simp [heq] at hne

theorem mem_handles_add (ha : r.add? id h = some r') :
    k ∈ r'.handles ↔ k = h ∨ k ∈ r.handles := by
  have hp := ((add?_eq_some ha).2.map (·.2)).mem_iff (a := k)
  simpa [handles] using hp

theorem Keyed.add (hk : r.Keyed) (ha : r.add? id h = some r') : r'.Keyed := by
  obtain ⟨hn, hp⟩ := add?_eq_some ha
  have hnodup : (((id, h) :: r.entries).map (·.1)).Nodup := by
    refine List.nodup_cons.mpr ⟨fun hm => ?_, hk⟩
    obtain ⟨e, he, heq⟩ := List.mem_map.mp hm
    exact hn e he heq
  exact (hp.map (·.1)).nodup_iff.mpr hnodup

/-! ### Updating -/

theorem mem_handles_update (hm : k ∈ (r.update id h).handles) : k ∈ r.handles ∨ k = h := by
  simp only [handles, update, List.map_map, List.mem_map, Function.comp_apply] at hm
  obtain ⟨e, he, rfl⟩ := hm
  split_ifs
  · exact .inr rfl
  · exact .inl (List.mem_map.mpr ⟨e, he, rfl⟩)

theorem update_self (hk : r.Keyed) (he : (id, h) ∈ r.entries) : r.update id h = r := by
  have hm : ∀ e ∈ r.entries, (if e.1 = id then (id, h) else e) = e := by
    intro e hm
    split_ifs with hid
    · exact eq_of_keyed hk he hm hid.symm
    · rfl
  rw [update, List.map_congr_left hm, List.map_id']

/-! ### Removing -/

theorem mem_handles_remove (hm : k ∈ (r.remove id).handles) : k ∈ r.handles := by
  obtain ⟨e, he, rfl⟩ := List.mem_map.mp hm
  exact List.mem_map.mpr ⟨e, List.mem_of_mem_filter he, rfl⟩

theorem Keyed.remove (hk : r.Keyed) (id : String) : (r.remove id).Keyed :=
  hk.sublist (List.filter_sublist.map _)

end ProxyLease.Registry
