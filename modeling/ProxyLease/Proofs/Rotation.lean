import Mathlib.Algebra.GCDMonoid.Finset
import Mathlib.Algebra.GCDMonoid.Nat
import Mathlib.Data.List.Rotate
import Mathlib.Order.Interval.Finset.Nat
import Mathlib.Tactic.Common
import ProxyLease.Chooser

/-!
# Taking turns

Proxies take turns by one counter, which is reduced by the number of candidates. As long as the
candidates stay the same, every one of them is chosen once a round, in their order. When the
candidates change from call to call, a proxy at an end of the order is still chosen within a
number of calls that depends on the length of the order alone, but one that stands inside the
order can be passed over for ever.
-/

namespace ProxyLease
namespace Chooser

variable {weight : Handle → Float} {order candidates : List Handle} {h : Handle} {turn n : Nat}
  {calls : List (List Handle)}

/-! ## Consecutive calls -/

def answers (weight : Handle → Float) : Chooser → List (List Handle) → List (Option Handle)
  | _, [] => []
  | c, candidates :: later =>
    (c.select weight candidates).1 :: answers weight (c.select weight candidates).2 later

/-- Calls that all offer a proxy, among candidates that keep to a fixed order, while the counter
stays below `2^64`. -/
structure Offers (order : List Handle) (h : Handle) (turn : Nat) (calls : List (List Handle)) :
    Prop where
  sublist : ∀ candidates ∈ calls, candidates.Sublist order
  mem : ∀ candidates ∈ calls, h ∈ candidates
  counter : turn + calls.length ≤ 2 ^ 64

theorem answers_roundRobin (weight : Handle → Float) (hcounter : turn + calls.length ≤ 2 ^ 64)
    (hcalls : ∀ l ∈ calls, l ≠ []) :
    answers weight (.roundRobin turn) calls =
      calls.mapIdx fun i l => l[(turn + i) % l.length]? := by
  induction calls generalizing turn with
  | nil => rfl
  | cons l later ih =>
    have hl : l ≠ [] := hcalls l List.mem_cons_self
    rw [List.length_cons] at hcounter
    have next : answers weight (.roundRobin ((turn + 1) % 2 ^ 64)) later =
        later.mapIdx fun i l => l[(turn + 1 + i) % l.length]? := by
      cases later with
      | nil => rfl
      | cons l' later' =>
        -- Only after the last call the counter may wrap.
        rw [Nat.mod_eq_of_lt (by rw [List.length_cons] at hcounter; omega)]
        exact ih (by omega) fun l hl => hcalls l (List.mem_cons_of_mem _ hl)
    rw [answers, select, if_neg hl, List.mapIdx_cons]
    simp only [Nat.add_zero, Nat.add_comm _ 1, ← Nat.add_assoc] at next ⊢
    exact congrArg _ next

theorem mem_answers_iff (weight : Handle → Float) (ho : Offers order h turn calls) :
    some h ∈ answers weight (.roundRobin turn) calls ↔
      ∃ i, ∃ hi : i < calls.length, calls[i][(turn + i) % calls[i].length]? = some h := by
  have hcalls : ∀ l ∈ calls, l ≠ [] := fun l hl => List.ne_nil_of_mem (ho.mem l hl)
  rw [answers_roundRobin weight ho.counter hcalls, List.mem_mapIdx]

/-! ## The same candidates -/

theorem answers_replicate (weight : Handle → Float)
    (hcounter : turn + candidates.length ≤ 2 ^ 64) :
    answers weight (.roundRobin turn) (.replicate candidates.length candidates) =
      (candidates.rotate turn).map some := by
  have hcalls : ∀ l ∈ List.replicate candidates.length candidates, l ≠ [] := by
    intro l hl
    obtain ⟨some, rfl⟩ := List.mem_replicate.mp hl
    exact List.length_pos_iff.mp (Nat.pos_of_ne_zero some)
  rw [answers_roundRobin weight (by rwa [List.length_replicate]) hcalls]
  refine List.ext_getElem (by simp) fun i hi hi' => ?_
  have within : i < candidates.length := by simpa using hi
  have rest : (turn + i) % candidates.length < candidates.length := Nat.mod_lt _ (by omega)
  simp [List.getElem_rotate, Nat.add_comm turn i]

/-! ## Passing over -/

/-- With the counter at `turn`, some candidates that keep to the order pass over one of them. -/
def PassedOver (order : List Handle) (h : Handle) (turn : Nat) : Prop :=
  ∃ candidates : List Handle, candidates.Sublist order ∧ h ∈ candidates ∧
    candidates[turn % candidates.length]? ≠ some h

/-- A proxy can miss all of some consecutive calls if every single one can pass it over. -/
theorem exists_calls_of_passedOver (weight : Handle → Float) (hcounter : turn + n ≤ 2 ^ 64)
    (hp : ∀ i < n, PassedOver order h (turn + i)) :
    ∃ calls, calls.length = n ∧ Offers order h turn calls ∧
      some h ∉ answers weight (.roundRobin turn) calls := by
  choose pick hsub hmem hmiss using hp
  have ho : Offers order h turn (.ofFn fun i : Fin n => pick i i.isLt) := by
    constructor
    · intro l hl
      obtain ⟨i, rfl⟩ := List.mem_ofFn.mp hl
      exact hsub i i.isLt
    · intro l hl
      obtain ⟨i, rfl⟩ := List.mem_ofFn.mp hl
      exact hmem i i.isLt
    · rwa [List.length_ofFn]
  refine ⟨_, List.length_ofFn, ho, ?_⟩
  rw [mem_answers_iff weight ho]
  rintro ⟨i, hi, hchosen⟩
  rw [List.getElem_ofFn] at hchosen
  exact hmiss i (by simpa using hi) hchosen

theorem passedOver_of_not_mem (ho : Offers order h turn calls)
    (hmiss : some h ∉ answers weight (.roundRobin turn) calls) {i : Nat} (hi : i < calls.length) :
    PassedOver order h (turn + i) := by
  refine ⟨calls[i], ho.sublist _ (List.getElem_mem hi), ho.mem _ (List.getElem_mem hi), ?_⟩
  intro hchosen
  exact hmiss ((mem_answers_iff weight ho).mpr ⟨i, hi, hchosen⟩)

/-! ## The ends of the order -/

/-- A proxy is the first or the last one of the order. -/
def AtEnd (order : List Handle) (h : Handle) : Prop :=
  order.head? = some h ∨ order.getLast? = some h

/-- The least number that every number of candidates divides. -/
def roundLength (proxies : Nat) : Nat := (Finset.Icc 1 proxies).lcm id

theorem dvd_roundLength {m k : Nat} (hm : 0 < m) (hk : m ≤ k) : m ∣ roundLength k :=
  Finset.dvd_lcm (Finset.mem_Icc.mpr ⟨hm, hk⟩)

theorem roundLength_pos (k : Nat) : 0 < roundLength k := by
  refine Nat.pos_of_ne_zero fun hzero => ?_
  obtain ⟨m, hm, hm0⟩ := Finset.lcm_eq_zero_iff.mp hzero
  have hpos := (Finset.mem_Icc.mp hm).1
  simp only [id] at hm0
  omega

theorem exists_not_dvd {k t : Nat} (ht : ¬roundLength k ∣ t) :
    ∃ m, 0 < m ∧ m ≤ k ∧ ¬m ∣ t := by
  by_contra! hall
  refine ht (Finset.lcm_dvd fun m hm => ?_)
  obtain ⟨hpos, hk⟩ := Finset.mem_Icc.mp hm
  exact hall m hpos hk

theorem exists_dvd_add {m : Nat} (hm : 0 < m) (t : Nat) : ∃ i < m, m ∣ t + i := by
  have hlt := Nat.mod_lt (t + m - 1) hm
  refine ⟨m - 1 - (t + m - 1) % m, by omega, ?_⟩
  have multiple := Nat.dvd_sub_mod (n := m) (t + m - 1)
  rwa [show t + (m - 1 - (t + m - 1) % m) = t + m - 1 - (t + m - 1) % m by omega]

theorem passedOver_head_iff {rest : List Handle} (hnodup : (h :: rest).Nodup) :
    PassedOver (h :: rest) h turn ↔ ¬roundLength (h :: rest).length ∣ turn := by
  have absent : h ∉ rest := (List.nodup_cons.mp hnodup).1
  constructor
  · rintro ⟨candidates, hsub, hmem, hmiss⟩ hdvd
    cases hsub with
    | cons _ hsub => exact absent (hsub.subset hmem)
    | @cons_cons later _ _ hsub =>
      refine hmiss ?_
      have short : (h :: later).length ∣ turn :=
        (dvd_roundLength (Nat.succ_pos _) (Nat.succ_le_succ hsub.length_le)).trans hdvd
      rw [Nat.mod_eq_zero_of_dvd short]
      rfl
  · intro hdvd
    obtain ⟨m, hpos, hle, hm⟩ := exists_not_dvd hdvd
    obtain ⟨m, rfl⟩ := Nat.exists_eq_add_one_of_ne_zero hpos.ne'
    refine ⟨h :: rest.take m, (List.take_sublist m rest).cons_cons h, List.mem_cons_self, ?_⟩
    have hlength : (h :: rest.take m).length = m + 1 := by
      rw [List.length_cons] at hle ⊢
      rw [List.length_take]
      omega
    obtain ⟨j, hj⟩ := Nat.exists_eq_add_one_of_ne_zero
      fun hzero => hm (Nat.dvd_of_mod_eq_zero hzero)
    rw [hlength, hj, List.getElem?_cons_succ]
    exact fun hchosen => absent (List.mem_of_mem_take (List.mem_of_getElem? hchosen))

theorem mod_eq_iff_dvd {t m : Nat} : t % (m + 1) = m ↔ m + 1 ∣ t + 1 := by
  constructor
  · intro hmod
    have parts := Nat.div_add_mod t (m + 1)
    refine ⟨t / (m + 1) + 1, ?_⟩
    rw [Nat.mul_add_one]
    omega
  · rintro ⟨c, hc⟩
    cases c with
    | zero => omega
    | succ c =>
      rw [Nat.mul_add_one] at hc
      have parts : t = (m + 1) * c + m := by omega
      rw [parts, Nat.mul_add_mod, Nat.mod_eq_of_lt (Nat.lt_succ_self m)]

theorem passedOver_last_iff {before : List Handle} (hnodup : (before ++ [h]).Nodup) :
    PassedOver (before ++ [h]) h turn ↔ ¬roundLength (before ++ [h]).length ∣ turn + 1 := by
  have absent : h ∉ before := fun hmem =>
    List.disjoint_of_nodup_append hnodup hmem List.mem_cons_self
  constructor
  · rintro ⟨candidates, hsub, hmem, hmiss⟩ hdvd
    obtain ⟨earlier, ends, rfl, hearlier, hends⟩ := List.sublist_append_iff.mp hsub
    obtain rfl | rfl := List.sublist_singleton.mp hends
    · rw [List.append_nil] at hmem
      exact absent (hearlier.subset hmem)
    · refine hmiss ?_
      have short : (earlier ++ [h]).length ∣ turn + 1 :=
        (dvd_roundLength (by simp) hsub.length_le).trans hdvd
      rw [List.length_append, List.length_singleton] at short ⊢
      rw [mod_eq_iff_dvd.mpr short, List.getElem?_concat_length]
  · intro hdvd
    obtain ⟨m, hpos, hle, hm⟩ := exists_not_dvd hdvd
    obtain ⟨m, rfl⟩ := Nat.exists_eq_add_one_of_ne_zero hpos.ne'
    let earlier := before.drop (before.length - m)
    have hlength : earlier.length = m := by
      rw [List.length_append, List.length_singleton] at hle
      rw [List.length_drop]
      omega
    refine ⟨earlier ++ [h], (List.drop_sublist _ before).append_right [h], by simp, ?_⟩
    have inside : turn % (m + 1) < earlier.length := by
      have hlt : turn % (m + 1) < m + 1 := Nat.mod_lt turn (Nat.succ_pos m)
      have hne : turn % (m + 1) ≠ m := fun hmod => hm (mod_eq_iff_dvd.mp hmod)
      omega
    rw [List.length_append, List.length_singleton, hlength, List.getElem?_append_left inside]
    exact fun hchosen => absent (List.mem_of_mem_drop (List.mem_of_getElem? hchosen))

theorem AtEnd.passedOver_iff (hnodup : order.Nodup) (hend : AtEnd order h) :
    ∃ ahead ≤ 1, ∀ turn, PassedOver order h turn ↔ ¬roundLength order.length ∣ turn + ahead := by
  obtain hhead | hlast := hend
  · obtain ⟨rest, rfl⟩ := List.head?_eq_some_iff.mp hhead
    exact ⟨0, Nat.zero_le 1, fun turn => passedOver_head_iff hnodup⟩
  · obtain ⟨before, rfl⟩ := List.getLast?_eq_some_iff.mp hlast
    exact ⟨1, le_rfl, fun turn => passedOver_last_iff hnodup⟩

theorem AtEnd.mem_answers (hnodup : order.Nodup) (hend : AtEnd order h)
    (ho : Offers order h turn calls) (hround : roundLength order.length ≤ calls.length) :
    some h ∈ answers weight (.roundRobin turn) calls := by
  obtain ⟨ahead, -, hiff⟩ := hend.passedOver_iff hnodup
  obtain ⟨i, hi, hdvd⟩ := exists_dvd_add (roundLength_pos order.length) (turn + ahead)
  by_contra hmiss
  refine (hiff (turn + i)).mp (passedOver_of_not_mem ho hmiss (hi.trans_le hround)) ?_
  rwa [Nat.add_right_comm]

/-- No smaller number of calls will do. -/
theorem AtEnd.exists_calls (weight : Handle → Float) (hnodup : order.Nodup) (hend : AtEnd order h)
    (hn : n < roundLength order.length) (hbound : n < 2 ^ 64) :
    ∃ turn calls, calls.length = n ∧ Offers order h turn calls ∧
      some h ∉ answers weight (.roundRobin turn) calls := by
  obtain ⟨ahead, hahead, hiff⟩ := hend.passedOver_iff hnodup
  refine ⟨1 - ahead, exists_calls_of_passedOver weight (by omega) fun i hi => ?_⟩
  refine (hiff _).mpr fun hdvd => ?_
  have long := Nat.le_of_dvd (by omega) hdvd
  omega

/-! ## Inside the order -/

/-- With one proxy on either side a proxy can be passed over at any time: the one before it is
chosen at even counters and the one after it at odd ones. -/
theorem passedOver_inside {before after : List Handle} (hnodup : (before ++ h :: after).Nodup)
    (hbefore : before ≠ []) (hafter : after ≠ []) (turn : Nat) :
    PassedOver (before ++ h :: after) h turn := by
  obtain ⟨a, ha⟩ := List.exists_mem_of_ne_nil before hbefore
  obtain ⟨b, hb⟩ := List.exists_mem_of_ne_nil after hafter
  obtain ⟨-, hright, apart⟩ := List.nodup_append.mp hnodup
  obtain even | odd := Nat.mod_two_eq_zero_or_one turn
  · refine ⟨[a, h], ?_, by simp, ?_⟩
    · exact (List.singleton_sublist.mpr ha).append
        ((List.nil_sublist after).cons_cons h)
    · have hne : a ≠ h := apart a ha h List.mem_cons_self
      simpa [even] using hne
  · refine ⟨[h, b], ?_, by simp, ?_⟩
    · exact ((List.singleton_sublist.mpr hb).cons_cons h).trans
        (List.sublist_append_right before (h :: after))
    · have hne : b ≠ h := fun heq => (List.nodup_cons.mp hright).1 (heq ▸ hb)
      simpa [odd] using hne

theorem exists_sides (hmem : h ∈ order) (hinside : ¬AtEnd order h) :
    ∃ before after, order = before ++ h :: after ∧ before ≠ [] ∧ after ≠ [] := by
  obtain ⟨before, after, rfl⟩ := List.append_of_mem hmem
  refine ⟨before, after, rfl, ?_, ?_⟩
  · rintro rfl
    exact hinside (.inl rfl)
  · rintro rfl
    exact hinside (.inr List.getLast?_concat)

theorem atEnd_of_length_le (hmem : h ∈ order) (hlength : order.length ≤ 2) : AtEnd order h := by
  by_contra hinside
  obtain ⟨before, after, rfl, hbefore, hafter⟩ := exists_sides hmem hinside
  have hpos := List.length_pos_iff.mpr hbefore
  have hpos' := List.length_pos_iff.mpr hafter
  rw [List.length_append, List.length_cons] at hlength
  omega

theorem roundLength_le_of_le_two {k : Nat} (hpos : 0 < k) (hk : k ≤ 2) : roundLength k ≤ k := by
  obtain rfl | rfl : k = 1 ∨ k = 2 := by omega
  · exact Nat.le_of_eq rfl
  · exact Nat.le_of_eq rfl

/-! ## Rounds -/

/-- A proxy that is offered in as many calls as there are proxies is chosen in one of them. -/
def ServesWithinLength : Prop :=
  ∀ (weight : Handle → Float) (order : List Handle) (h : Handle) (turn : Nat)
    (calls : List (List Handle)), order.Nodup → order ≠ [] → Offers order h turn calls →
    calls.length = order.length → some h ∈ answers weight (.roundRobin turn) calls

/-- The second of three proxies is passed over by the first three calls, which offer it together
with the first one, with the third one, and with both. -/
theorem not_servesWithinLength : ¬ServesWithinLength := by
  intro hserves
  have ho : Offers [1, 2, 3] 2 0 [[1, 2], [2, 3], [1, 2, 3]] := by
    constructor <;> decide
  have hchosen := hserves (fun _ => 1) [1, 2, 3] 2 0 _ (by decide) (by decide) ho rfl
  have made : answers (fun _ => 1) (.roundRobin 0) [[1, 2], [2, 3], [1, 2, 3]] =
      [some 1, some 3, some 3] := rfl
  rw [made] at hchosen
  exact absurd hchosen (by decide)

/-- Candidates that stay the same are chosen once a round each, in cyclic order. Of at most two
proxies none is passed over as often as there are proxies. A proxy at an end of the order is
chosen at least once in any `roundLength` calls in a row that offer it, but not in any smaller
number of them; one inside the order can be offered in any number of calls, from any counter on,
without being chosen. -/
theorem turns_come_round_at_the_ends (weight : Handle → Float) (hnodup : order.Nodup) :
    (∀ candidates turn, candidates.Sublist order → turn + candidates.length ≤ 2 ^ 64 →
      let round := answers weight (.roundRobin turn) (.replicate candidates.length candidates)
      round = (candidates.rotate turn).map some ∧ ∀ h ∈ candidates, round.count (some h) = 1) ∧
    (order.length ≤ 2 → ∀ h turn calls, h ∈ order → Offers order h turn calls →
      order.length ≤ calls.length → some h ∈ answers weight (.roundRobin turn) calls) ∧
    (∀ h, AtEnd order h →
      (∀ turn calls, Offers order h turn calls → roundLength order.length ≤ calls.length →
        some h ∈ answers weight (.roundRobin turn) calls) ∧
      ∀ n < roundLength order.length, n < 2 ^ 64 → ∃ turn calls, calls.length = n ∧
        Offers order h turn calls ∧ some h ∉ answers weight (.roundRobin turn) calls) ∧
    ∀ h ∈ order, ¬AtEnd order h → ∀ turn n, turn + n ≤ 2 ^ 64 → ∃ calls, calls.length = n ∧
      Offers order h turn calls ∧ some h ∉ answers weight (.roundRobin turn) calls := by
  refine ⟨?_, ?_, ?_, ?_⟩
  · intro candidates turn hsub hcounter round
    have cyclic : round = (candidates.rotate turn).map some := answers_replicate weight hcounter
    refine ⟨cyclic, fun h hmem => ?_⟩
    rw [cyclic, List.count_map_of_injective _ some (Option.some_injective _)]
    exact List.count_eq_one_of_mem (List.nodup_rotate.mpr (hsub.nodup hnodup))
      (List.mem_rotate.mpr hmem)
  · intro hlength h turn calls hmem ho hround
    have hpos := List.length_pos_of_mem hmem
    exact (atEnd_of_length_le hmem hlength).mem_answers hnodup ho
      ((roundLength_le_of_le_two hpos hlength).trans hround)
  · intro h hend
    exact ⟨fun turn calls ho hround => hend.mem_answers hnodup ho hround,
      fun n hn hbound => hend.exists_calls weight hnodup hn hbound⟩
  · intro h hmem hinside turn n hcounter
    obtain ⟨before, after, rfl, hbefore, hafter⟩ := exists_sides hmem hinside
    exact exists_calls_of_passedOver weight hcounter fun i _ =>
      passedOver_inside hnodup hbefore hafter (turn + i)

/-- Three proxies: two of them alone, a call less than a round with the last one, a whole round
with it, and ten calls without the one inside. -/
theorem turns_come_round_at_the_ends_of_three :
    let weight : Handle → Float := fun _ => 1
    let calls := [[1, 3], [3], [2, 3], [1, 2, 3], [3], [2, 3]]
    [1, 2, 3].Nodup ∧ roundLength 3 = 6 ∧ Offers [1, 2, 3] 3 6 calls ∧
      answers weight (.roundRobin 5) [[1, 3], [1, 3]] = [some 3, some 1] ∧
      some 3 ∈ answers weight (.roundRobin 6) calls ∧
      (∃ turn calls, calls.length = 5 ∧ Offers [1, 2, 3] 3 turn calls ∧
        some 3 ∉ answers weight (.roundRobin turn) calls) ∧
      ∃ calls, calls.length = 10 ∧ Offers [1, 2, 3] 2 7 calls ∧
        some 2 ∉ answers weight (.roundRobin 7) calls := by
  intro weight calls
  have hnodup : [1, 2, 3].Nodup := by decide
  have sixth : roundLength 3 = 6 := by decide
  have ho : Offers [1, 2, 3] 3 6 calls := by constructor <;> decide
  have hlast : AtEnd [1, 2, 3] 3 := .inr rfl
  have hinside : ¬AtEnd [1, 2, 3] 2 := by simp [AtEnd]
  obtain ⟨same, -, ends, inside⟩ := turns_come_round_at_the_ends weight hnodup
  refine ⟨hnodup, sixth, ho, (same [1, 3] 5 (by decide) (by decide)).1, ?_, ?_, ?_⟩
  · exact (ends 3 hlast).1 6 calls ho sixth.le
  · exact (ends 3 hlast).2 5 (by decide) (by decide)
  · exact inside 2 (by decide) hinside 7 10 (by decide)

end Chooser
end ProxyLease
