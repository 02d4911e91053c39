import Mathlib.Data.List.Induction
import Mathlib.Data.List.Perm.Subperm
import ProxyLease.Proofs.Endpoint.Identity
import ProxyLease.Source

/-!
# Sources put together

A composite names the first endpoint of every proxy that its members name, in their order
and up to the count. Composites in composites come to the same as one composite of all the
sources at the ends: what a member holds back because of the count would have come too late
in the whole, and the mark of the first composite on the way up is the mark that stays.
-/

namespace ProxyLease.Source

/-! ### The first endpoint of every proxy -/

section Firsts

variable {a b c d list : List Endpoint} {seen other : List String} {count : Nat}

/-- The endpoints before which no other of the same proxy stands, in order. -/
def firstMentions (list : List Endpoint) : List Endpoint :=
  (List.range list.length).filterMap fun i =>
    list[i]?.filter fun e => (list.take i).all fun d => ¬ d.SameProxy e

theorem firsts_congr (h : ∀ i, i ∈ seen ↔ i ∈ other) (list : List Endpoint) :
    firsts seen list = firsts other list := by
  induction list generalizing seen other with
  | nil => rfl
  | cons e rest ih =>
    have hrest : firsts (e.id :: seen) rest = firsts (e.id :: other) rest := ih (by simp [h])
    simp [firsts, h, ih h, hrest]

theorem firsts_append (seen : List String) (a b : List Endpoint) :
    firsts seen (a ++ b) = firsts seen a ++ firsts (a.map (·.id) ++ seen) b := by
  induction a generalizing seen with
  | nil => simp [firsts]
  | cons e rest ih =>
    by_cases he : e.id ∈ seen
    · have hsame : firsts (rest.map (·.id) ++ seen) b = firsts ((e :: rest).map (·.id) ++ seen) b :=
        firsts_congr (by intro i; simp; grind) b
      simp [firsts, he, ih, hsame]
    · have hsame : firsts (rest.map (·.id) ++ e.id :: seen) b =
          firsts ((e :: rest).map (·.id) ++ seen) b := firsts_congr (by intro i; simp; grind) b
      simp [firsts, he, ih, hsame]

theorem firsts_concat (seen : List String) (list : List Endpoint) (e : Endpoint) :
    firsts seen (list ++ [e]) =
      firsts seen list ++ if e.id ∈ list.map (·.id) ++ seen then [] else [e] := by
  rw [firsts_append]
  by_cases he : e.id ∈ list.map (·.id) ++ seen <;> simp [firsts, he]

theorem firsts_map (f : Endpoint → Endpoint) (hf : ∀ e, (f e).id = e.id) (seen : List String)
    (list : List Endpoint) : firsts seen (list.map f) = (firsts seen list).map f := by
  induction list generalizing seen with
  | nil => rfl
  | cons e rest ih => by_cases he : e.id ∈ seen <;> simp [firsts, hf, he, ih]

theorem id_mem_firsts_iff {i : String} :
    i ∈ (firsts [] list).map (·.id) ↔ i ∈ list.map (·.id) := by
  induction list using List.reverseRecOn with
  | nil => simp [firsts]
  | append_singleton rest e ih =>
    rw [firsts_concat, List.map_append, List.mem_append, ih]
    by_cases he : e.id ∈ rest.map (·.id) <;> simp [he]
    grind

theorem firsts_sublist (seen : List String) (list : List Endpoint) :
    (firsts seen list).Sublist list := by
  induction list generalizing seen with
  | nil => exact .refl _
  | cons e rest ih =>
    by_cases he : e.id ∈ seen
    · simpa [firsts, he] using (ih seen).cons e
    · simpa [firsts, he] using ih (e.id :: seen)

theorem nodup_firsts (list : List Endpoint) : ((firsts [] list).map (·.id)).Nodup := by
  induction list using List.reverseRecOn with
  | nil => simp [firsts]
  | append_singleton rest e ih =>
    rw [firsts_concat, List.map_append, List.append_nil]
    by_cases he : e.id ∈ rest.map (·.id)
    · simpa [he] using ih
    · have hnew : e.id ∉ (firsts [] rest).map (·.id) := mt id_mem_firsts_iff.mp he
      rw [if_neg he]
      exact List.nodup_append.mpr ⟨ih, by simp, by simp; grind⟩

theorem firsts_eq_filter (seen : List String) (list : List Endpoint) :
    firsts seen list = (firsts [] list).filter fun e => e.id ∉ seen := by
  induction list using List.reverseRecOn with
  | nil => rfl
  | append_singleton rest e ih =>
    rw [firsts_concat, firsts_concat, List.filter_append, ih]
    by_cases he : e.id ∈ rest.map (·.id) <;> by_cases hs : e.id ∈ seen <;> simp [he, hs]

theorem firsts_eq_self (h : (list.map (·.id)).Nodup) : firsts [] list = list := by
  induction list using List.reverseRecOn with
  | nil => rfl
  | append_singleton rest e ih =>
    rw [List.map_append, List.nodup_append] at h
    have he : e.id ∉ rest.map (·.id) := fun hmem => h.2.2 _ hmem e.id (by simp) rfl
    rw [firsts_concat, ih h.1, List.append_nil, if_neg he]

theorem firstMentions_concat (rest : List Endpoint) (e : Endpoint) :
    firstMentions (rest ++ [e]) =
      firstMentions rest ++ if ∃ d ∈ rest, d.SameProxy e then [] else [e] := by
  have hbefore : firstMentions rest = (List.range rest.length).filterMap fun i =>
      (rest ++ [e])[i]?.filter fun x => ((rest ++ [e]).take i).all fun d => ¬ d.SameProxy x := by
    apply List.filterMap_congr
    intro i hi
    have hlt := List.mem_range.mp hi
    rw [List.getElem?_append_left hlt, List.take_append_of_le_length (Nat.le_of_lt hlt)]
  rw [hbefore, firstMentions, List.length_append, List.length_singleton, List.range_succ,
    List.filterMap_append]
  congr 1
  have hall : (rest.all fun d => ¬ d.SameProxy e) = decide (¬ ∃ d ∈ rest, d.SameProxy e) := by
    rw [Bool.eq_iff_iff]
    simp
  by_cases he : ∃ d ∈ rest, d.SameProxy e <;>
    simp only [he, List.filterMap_cons, List.filterMap_nil, List.getElem?_concat_length,
      List.take_left, Option.filter_some, hall] <;> rfl

/-- One pass with the identities seen so far keeps the first endpoint of every proxy. -/
theorem firsts_eq_firstMentions (list : List Endpoint) : firsts [] list = firstMentions list := by
  induction list using List.reverseRecOn with
  | nil => rfl
  | append_singleton rest e ih =>
    have hiff : e.id ∈ rest.map (·.id) ++ [] ↔ ∃ d ∈ rest, d.SameProxy e := by
      simp [Endpoint.id_eq_iff]
    rw [firsts_concat, firstMentions_concat, ih]
    simp only [hiff]

/-! ### Fronts of lists -/

/-- Lists that name the same first proxies, up to the count. -/
def SameFront (count : Nat) (a b : List Endpoint) : Prop :=
  limit count (firsts [] a) = limit count (firsts [] b)

theorem firsts_append_congr (h : firsts [] a = firsts [] b) (p q : List Endpoint) :
    firsts [] (p ++ (a ++ q)) = firsts [] (p ++ (b ++ q)) := by
  have hids : ∀ i, i ∈ a.map (·.id) ++ p.map (·.id) ↔ i ∈ b.map (·.id) ++ p.map (·.id) := by
    intro i
    rw [List.mem_append, ← id_mem_firsts_iff, h, id_mem_firsts_iff, List.mem_append]
  rw [firsts_append, firsts_append [] p, firsts_append _ a, firsts_append _ b, firsts_eq_filter _ a,
    firsts_eq_filter _ b, h]
  congr 2
  exact firsts_congr (by simpa using hids) q

/-- Whoever is left out of a front because of those before it is made up for by them. -/
theorem length_le_firsts_append {t : List Endpoint} (ht : (t.map (·.id)).Nodup)
    (p : List Endpoint) :
    t.length ≤ (firsts [] p ++ t.filter fun e => e.id ∉ p.map (·.id)).length := by
  have hsub : ((t.filter fun e => e.id ∈ p.map (·.id)).map (·.id)).Subperm
      ((firsts [] p).map (·.id)) := by
    apply List.subperm_of_subset (ht.sublist (List.filter_sublist.map _))
    intro i hi
    obtain ⟨e, he, rfl⟩ := List.mem_map.mp hi
    rw [id_mem_firsts_iff]
    simpa using (List.mem_filter.mp he).2
  have hlength := hsub.length_le
  have hsplit := List.length_eq_length_filter_add (l := t) fun e => decide (e.id ∈ p.map (·.id))
  simp only [List.length_map, List.length_append, decide_not] at hlength hsplit ⊢
  omega

theorem take_firsts_append (p a q : List Endpoint) (hlong : count ≤ (firsts [] a).length) :
    (firsts [] (p ++ (a ++ q))).take count =
      (firsts [] p ++ ((firsts [] a).take count).filter fun e => e.id ∉ p.map (·.id)).take
        count := by
  have hnodup : (((firsts [] a).take count).map (·.id)).Nodup :=
    (nodup_firsts a).sublist ((List.take_sublist _ _).map _)
  have hlength := length_le_firsts_append hnodup p
  rw [List.length_take_of_le hlong] at hlength
  have hsplit : firsts (p.map (·.id)) a =
      ((firsts [] a).take count).filter (fun e => e.id ∉ p.map (·.id)) ++
        ((firsts [] a).drop count).filter (fun e => e.id ∉ p.map (·.id)) := by
    rw [firsts_eq_filter, ← List.filter_append, List.take_append_drop]
  rw [firsts_append, firsts_append, List.append_nil, hsplit, List.append_assoc, ← List.append_assoc,
    List.take_append_of_le_length hlength]

theorem SameFront.append_congr (h : SameFront count a b) (p q : List Endpoint) :
    SameFront count (p ++ (a ++ q)) (p ++ (b ++ q)) := by
  unfold SameFront limit at *
  by_cases hcount : count = 0
  · simp only [hcount, if_true] at h ⊢
    exact firsts_append_congr h p q
  · simp only [hcount, if_false] at h ⊢
    have hlengths := congrArg List.length h
    rw [List.length_take, List.length_take] at hlengths
    by_cases hlong : count ≤ (firsts [] a).length
    · rw [take_firsts_append p a q hlong, take_firsts_append p b q (by omega), h]
    · rw [List.take_of_length_le (by omega), List.take_of_length_le (by omega)] at h
      rw [firsts_append_congr h p q]

theorem SameFront.refl (count : Nat) (a : List Endpoint) : SameFront count a a := rfl

theorem SameFront.trans (hab : SameFront count a b) (hbc : SameFront count b c) :
    SameFront count a c := Eq.trans hab hbc

theorem SameFront.append (hab : SameFront count a b) (hcd : SameFront count c d) :
    SameFront count (a ++ c) (b ++ d) := by
  have hleft := hab.append_congr [] c
  have hright := hcd.append_congr b []
  simp only [List.nil_append, List.append_nil] at hleft hright
  exact hleft.trans hright

theorem limit_limit (list : List Endpoint) : limit count (limit count list) = limit count list := by
  by_cases hcount : count = 0 <;> simp [limit, hcount, List.take_take]

theorem limit_map (f : Endpoint → Endpoint) (list : List Endpoint) :
    limit count (list.map f) = (limit count list).map f := by
  by_cases hcount : count = 0 <;> simp [limit, hcount]

theorem limit_sublist (count : Nat) (list : List Endpoint) : (limit count list).Sublist list := by
  unfold limit
  split
  · exact .refl _
  · exact List.take_sublist _ _

theorem sameFront_limit (list : List Endpoint) :
    SameFront count (limit count (firsts [] list)) list := by
  have hnodup := (nodup_firsts list).sublist ((limit_sublist count _).map (·.id))
  rw [SameFront, firsts_eq_self hnodup, limit_limit]

end Firsts

/-! ### Trees of sources -/

section Trees

variable {link : Link} {round count : Nat} {members : List Source} {failure : SourceFailure}
  {answers : List (Except SourceFailure (List Endpoint))} {list : List Endpoint}

mutual

/-- The sources at the ends of a source, from left to right. -/
def leaves : Source → List Source
  | .composite members => leavesAll members
  | source => [source]

def leavesAll : List Source → List Source
  | [] => []
  | s :: rest => leaves s ++ leavesAll rest

end

/-- What is true of the sources at the ends, and of a composite if it is true of its
members, is true of every source. -/
theorem tree_induction {P : Source → Prop} (leaf : ∀ s : Source, s.leaves = [s] → P s)
    (composite : ∀ members, (∀ s ∈ members, P s) → P (.composite members)) :
    ∀ s : Source, P s
  | .fixed name list fails => leaf _ (by simp [leaves])
  | .file content fallback => leaf _ (by simp [leaves])
  | .http peer fallback => leaf _ (by simp [leaves])
  | .custom name answer => leaf _ (by simp [leaves])
  | .composite members => composite members fun s _ => tree_induction leaf composite s

theorem fetchAll_eq_map (link : Link) (round count : Nat) (members : List Source) :
    fetchAll link round count members = members.map (fetch link round count) := by
  induction members with
  | nil => rfl
  | cons s rest ih => simp [fetchAll, ih]

/-- The endpoints that answers name, one answer after the other. -/
def named (answers : List (Except SourceFailure (List Endpoint))) : List Endpoint :=
  (answers.filterMap (·.toOption)).flatten

theorem named_append (answers others : List (Except SourceFailure (List Endpoint))) :
    named (answers ++ others) = named answers ++ named others := by
  simp [named]

theorem no_lists_iff : answers.filterMap (·.toOption) = [] ↔ ∀ a ∈ answers, ∃ f, a = .error f := by
  rw [List.filterMap_eq_nil_iff]
  refine forall₂_congr fun a _ => ?_
  cases a <;> simp [Except.toOption]

theorem named_of_failures (h : ∀ a ∈ answers, ∃ f, a = .error f) : named answers = [] := by
  simp [named, no_lists_iff.mpr h]

theorem merge_eq_error_iff : merge count answers = .error failure ↔
    (∀ a ∈ answers, ∃ f, a = .error f) ∧ answers.getLast? = some (.error failure) := by
  unfold merge
  dsimp only
  split
  · rename_i hlists hlast
    have hall := no_lists_iff.mp hlists
    simpa [hlast] using fun _ => hall
  · rename_i hother
    simp only [reduceCtorEq, false_iff, not_and]
    intro hall hlast
    exact hother failure (no_lists_iff.mpr hall) hlast

theorem eq_of_merge_eq_ok (h : merge count answers = .ok list) :
    list = (limit count (firsts [] (named answers))).map (·.withDefaultSource "composite") := by
  unfold merge at h
  dsimp only at h
  split at h
  · cases h
  · exact (Except.ok.inj h).symm

theorem mem_named_iff {sources : List Source} {d : Endpoint} :
    d ∈ named (sources.map (fetch link round count)) ↔
      ∃ s ∈ sources, ∃ own, s.fetch link round count = .ok own ∧ d ∈ own := by
  simp only [named, List.mem_flatten, List.mem_filterMap, List.mem_map]
  constructor
  · rintro ⟨own, ⟨_, ⟨s, hs, rfl⟩, hown⟩, hd⟩
    cases hfetch : s.fetch link round count with
    | error failure => simp [hfetch, Except.toOption] at hown
    | ok list =>
      rw [hfetch] at hown
      cases hown
      exact ⟨s, hs, own, hfetch, hd⟩
  · rintro ⟨s, hs, own, hown, hd⟩
    exact ⟨own, ⟨_, ⟨s, hs, rfl⟩, by simp [hown, Except.toOption]⟩, hd⟩

/-- What sources name, one after the other, as a composite marks it. -/
def marked (link : Link) (round count : Nat) (sources : List Source) : List Endpoint :=
  (named (sources.map (fetch link round count))).map (·.withDefaultSource "composite")

theorem marked_append (link : Link) (round count : Nat) (sources others : List Source) :
    marked link round count (sources ++ others) =
      marked link round count sources ++ marked link round count others := by
  simp [marked, named_append]

theorem fetch_composite_eq_error_iff :
    (composite members).fetch link round count = .error failure ↔
      members ≠ [] ∧ (∀ s ∈ members, ∃ f, s.fetch link round count = .error f) ∧
        ∀ last, members.getLast? = some last → last.fetch link round count = .error failure := by
  rw [fetch, fetchAll_eq_map, merge_eq_error_iff, List.getLast?_map]
  cases hlast : members.getLast? with
  | none => simp [List.getLast?_eq_none_iff.mp hlast]
  | some last =>
    have hne : members ≠ [] := by rintro rfl; simp at hlast
    simp [hne]

theorem eq_of_fetch_composite (h : (composite members).fetch link round count = .ok list) :
    list = limit count (firsts [] (marked link round count members)) := by
  rw [fetch, fetchAll_eq_map] at h
  rw [eq_of_merge_eq_ok h, marked, firsts_map _ (by simp), limit_map]

theorem map_mark_eq_self (h : (composite members).fetch link round count = .ok list) :
    list.map (·.withDefaultSource "composite") = list := by
  rw [eq_of_fetch_composite h, marked, firsts_map _ (by simp), limit_map]
  simp

theorem sameFront_members (link : Link) (round count : Nat) (members : List Source) :
    SameFront count (marked link round count [composite members])
      (marked link round count members) := by
  cases h : (composite members).fetch link round count with
  | error failure =>
    have hone : marked link round count [composite members] = [] := by
      simp [marked, named, h, Except.toOption]
    rw [fetch, fetchAll_eq_map] at h
    have hmembers : marked link round count members = [] := by
      simp [marked, named_of_failures (merge_eq_error_iff.mp h).1]
    rw [hone, hmembers]
    exact .refl _ _
  | ok list =>
    have hone : marked link round count [composite members] = list := by
      simpa [marked, named, h, Except.toOption] using map_mark_eq_self h
    rw [hone, eq_of_fetch_composite h]
    exact sameFront_limit _

theorem sameFront_leaves (link : Link) (round count : Nat) (s : Source) :
    SameFront count (marked link round count [s]) (marked link round count s.leaves) := by
  induction s using tree_induction with
  | leaf s hs => rw [hs]; exact .refl _ _
  | composite members ih =>
    refine (sameFront_members link round count members).trans ?_
    rw [leaves]
    induction members with
    | nil => exact .refl _ _
    | cons s rest ihrest =>
      have hs := ih s (by simp)
      have hrest := ihrest fun t ht => ih t (by simp [ht])
      rw [leavesAll, ← List.singleton_append, marked_append, marked_append]
      exact hs.append hrest

theorem eq_of_fetch_leaves (h : (composite members).fetch link round count = .ok list) :
    list = limit count (firsts [] (marked link round count (leavesAll members))) := by
  have hfront := sameFront_leaves link round count (composite members)
  rw [leaves] at hfront
  rw [eq_of_fetch_composite h]
  exact (sameFront_members link round count members).symm.trans hfront

/-- A composite fails exactly if it has members and all of them fail, in the way the last one
does. Otherwise it names the first endpoint of every proxy that its members name, or that the
sources at the ends name, in order and up to the count, each with the source that was named
first on the way up. -/
theorem composite_names_every_proxy_once (link : Link) (round count : Nat) (members : List Source) :
    (∀ failure, (composite members).fetch link round count = .error failure ↔
      members ≠ [] ∧ (∀ s ∈ members, ∃ f, s.fetch link round count = .error f) ∧
        ∀ last, members.getLast? = some last → last.fetch link round count = .error failure) ∧
    ∀ list, (composite members).fetch link round count = .ok list →
      (list.Pairwise fun d e => ¬ d.SameProxy e) ∧
      list = (limit count (firstMentions (named (members.map (fetch link round count))))).map
        (·.withDefaultSource "composite") ∧
      list = (limit count (firstMentions (named ((leavesAll members).map
        (fetch link round count))))).map (·.withDefaultSource "composite") ∧
      ∀ e ∈ list, ∃ leaf ∈ leavesAll members, ∃ own, leaf.fetch link round count = .ok own ∧
        ∃ d ∈ own, e = { d with source := some (d.source.getD "composite") } := by
  constructor
  · exact fun failure => fetch_composite_eq_error_iff
  · intro list hlist
    have hmembers := eq_of_fetch_composite hlist
    have hleaves := eq_of_fetch_leaves hlist
    refine ⟨?_, ?_, ?_, ?_⟩
    · have hnodup := (nodup_firsts (marked link round count members)).sublist
        ((limit_sublist count _).map (·.id))
      rw [← hmembers] at hnodup
      exact (List.pairwise_map.mp hnodup).imp fun hne hsame => hne (Endpoint.id_eq_iff.mpr hsame)
    · rw [hmembers, marked, firsts_map _ (by simp), limit_map, firsts_eq_firstMentions]
    · rw [hleaves, marked, firsts_map _ (by simp), limit_map, firsts_eq_firstMentions]
    · intro e he
      rw [hleaves] at he
      have hmarked := (firsts_sublist [] _).subset ((limit_sublist count _).subset he)
      obtain ⟨d, hd, rfl⟩ := List.mem_map.mp hmarked
      obtain ⟨leaf, hleaf, own, hown, hmem⟩ := mem_named_iff.mp hd
      exact ⟨leaf, hleaf, own, hown, d, hmem, rfl⟩

/-- Two failing members, one of them a composite, stand before a source that names more than
it is asked for and names one proxy three times. -/
theorem composite_names_every_proxy_once_of_the_last :
    let broken : Source := .fixed "broken" [] true
    let answer (count : Nat) : Except SourceFailure (List Endpoint) :=
      .ok (List.replicate count (.plain "A" 1 .http) ++
        [.plain "a" 1 .socks5, (Endpoint.plain "b" 2 .http).withDefaultSource "own"])
    let inner : Source :=
      .composite [.custom "list" answer, .fixed "more" [.plain "c" 3 .http] false]
    ∃ list, (composite [broken, composite [broken], inner]).fetch .down 0 2 = .ok list ∧
      list = [(Endpoint.plain "A" 1 .http).withDefaultSource "composite",
        (Endpoint.plain "b" 2 .http).withDefaultSource "own"] ∧
      list.Pairwise fun d e => ¬ d.SameProxy e := by
  intro broken answer inner
  refine ⟨_, rfl, by decide, ?_⟩
  exact ((composite_names_every_proxy_once .down 0 2 [broken, composite [broken], inner]).2 _
    rfl).1

end Trees

end ProxyLease.Source
