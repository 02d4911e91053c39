import ProxyLease.Proofs.Source.Listing
import ProxyLease.Proofs.Source.Merging

/-!
# Limited requests

A count is passed on to every source of a composite, and each listing is cut to it before
anything is left out. Proxies that other listings have named already do no harm: whoever comes
too late in a listing comes too late in the whole. But a listing that names one proxy twice
among its first endpoints spends a place on the second mention, and then a limited request
gets less than the front of the complete list.
-/

namespace ProxyLease.Source

variable {link : Link} {round later count : Nat} {members : List Source} {source leaf : Source}
  {failure : SourceFailure} {list own : List Endpoint}

/-- The listings at the ends of a source are the same in two rounds of requests. -/
def Unchanged (link : Link) (round later : Nat) (source : Source) : Prop :=
  ∀ leaf ∈ source.leaves, leaf.fetch link later 0 = leaf.fetch link round 0

/-- Limited requests would name the front of the complete list if, for sources that read
listings and do not change, a request with a count succeeded exactly if one without succeeds,
and named as many endpoints from the front of its answer. -/
def NameFronts : Prop :=
  ∀ (source : Source) (link : Link) (round later count : Nat), source.IsListing →
    source.Unchanged link round later → count ≠ 0 →
    ((∃ list, source.fetch link later count = .ok list) ↔
      ∃ complete, source.fetch link round 0 = .ok complete) ∧
    ∀ complete, source.fetch link round 0 = .ok complete →
      source.fetch link later count = .ok (complete.take count)

/-- Of a file that names one proxy twice and then another one, a composite that is asked for
two endpoints names only one. -/
theorem not_nameFronts : ¬ NameFronts := by
  intro hfronts
  let file : Source := .file (.text "a:1\na:1\nb:2") .http
  have hlisting : (composite [file]).IsListing := .composite _ (by simp [file, IsListing.file])
  have hsame : (composite [file]).Unchanged .down 0 1 := by
    intro leaf hleaf
    simp only [leaves, leavesAll, file, List.append_nil, List.mem_singleton] at hleaf
    subst hleaf
    rfl
  have hfull : (composite [file]).fetch .down 0 0 =
      .ok [(Endpoint.plain "a" 1 .http).withDefaultSource "file",
        (Endpoint.plain "b" 2 .http).withDefaultSource "file"] := by
    decide +kernel
  have hlimited : (composite [file]).fetch .down 1 2 =
      .ok [(Endpoint.plain "a" 1 .http).withDefaultSource "file"] := by
    decide +kernel
  have hfront := (hfronts _ .down 0 1 2 hlisting hsame (by decide)).2 _ hfull
  rw [hlimited] at hfront
  revert hfront
  decide +kernel

theorem mem_leavesAll_iff : leaf ∈ leavesAll members ↔ ∃ s ∈ members, leaf ∈ s.leaves := by
  induction members with
  | nil => simp [leavesAll]
  | cons s rest ih => simp [leavesAll, ih]

theorem IsListing.isSingle_of_mem_leaves (hs : source.IsListing) :
    ∀ leaf ∈ source.leaves, leaf.isSingle = true := by
  induction hs with
  | file | http => simp [leaves, isSingle]
  | composite members _ ih =>
    intro leaf hleaf
    rw [leaves, mem_leavesAll_iff] at hleaf
    obtain ⟨s, hs, hmem⟩ := hleaf
    exact ih s hs leaf hmem

theorem Unchanged.of_mem (hsame : (composite members).Unchanged link round later)
    (hs : source ∈ members) : source.Unchanged link round later := by
  intro leaf hleaf
  refine hsame leaf ?_
  rw [leaves, mem_leavesAll_iff]
  exact ⟨source, hs, hleaf⟩

theorem fetch_leaf (hleaf : leaf.isSingle = true) (hcount : count ≠ 0)
    (hsame : leaf.fetch link later 0 = leaf.fetch link round 0) :
    leaf.fetch link later count = (leaf.fetch link round 0).map fun own => own.take count := by
  rw [fetch_eq_take hleaf link later hcount, hsame]

theorem fetch_eq_error_iff (hs : source.IsListing) (hsame : source.Unchanged link round later)
    (hcount : count ≠ 0) : source.fetch link later count = .error failure ↔
      source.fetch link round 0 = .error failure := by
  induction hs generalizing failure with
  | file content fallback =>
    rw [fetch_leaf rfl hcount (hsame _ (by simp [leaves]))]
    cases fetch link round 0 (.file content fallback) <;> simp [Except.map]
  | http peer fallback =>
    rw [fetch_leaf rfl hcount (hsame _ (by simp [leaves]))]
    cases fetch link round 0 (.http peer fallback) <;> simp [Except.map]
  | composite members _ ih =>
    have hfails : ∀ s ∈ members, ∀ f, s.fetch link later count = .error f ↔
        s.fetch link round 0 = .error f := fun s hs f => ih s hs (hsame.of_mem hs)
    rw [fetch_composite_eq_error_iff, fetch_composite_eq_error_iff]
    refine and_congr_right fun _ => and_congr ?_ ?_
    · exact forall₂_congr fun s hs => exists_congr fun f => hfails s hs f
    · exact forall₂_congr fun last hlast => hfails last (List.mem_of_getLast? hlast) failure

theorem sameFront_take (hcount : count ≠ 0)
    (hnodup : (list.take count).Pairwise fun d e => ¬ d.SameProxy e) :
    SameFront count (list.take count) list := by
  have hids : ((list.take count).map (·.id)).Nodup :=
    List.pairwise_map.mpr (hnodup.imp fun hne hid => hne (Endpoint.id_eq_iff.mp hid))
  have hsplit : firsts [] list = list.take count ++
      firsts ((list.take count).map (·.id) ++ []) (list.drop count) := by
    conv_lhs => rw [← List.take_append_drop count list]
    rw [firsts_append, firsts_eq_self hids]
  rw [SameFront, firsts_eq_self hids, hsplit, limit, limit, if_neg hcount, if_neg hcount,
    List.take_take, Nat.min_self]
  by_cases hlong : count ≤ list.length
  · rw [List.take_append_of_le_length (by simp [hlong]), List.take_take, Nat.min_self]
  · have hnone : list.drop count = [] := List.drop_of_length_le (by omega)
    simp [hnone, firsts, List.take_take]

/-- What listings name when each is cut, one listing after the other. -/
def cut (link : Link) (round count : Nat) (sources : List Source) : List Endpoint :=
  named (sources.map fun leaf => (leaf.fetch link round 0).map fun own => own.take count)

theorem mark_eq_self (hleaf : leaf.isSingle = true) (hown : leaf.fetch link round count = .ok own) :
    ∀ e ∈ own, e.withDefaultSource "composite" = e := by
  intro e he
  cases leaf with
  | fixed | custom | composite => cases hleaf
  | file content fallback =>
    rw [fetch] at hown
    cases hread : content.read <;> rw [hread] at hown <;> cases hown
    obtain ⟨d, -, rfl⟩ := List.mem_map.mp he
    rfl
  | http peer fallback =>
    rw [fetch] at hown
    cases hbody : download peer link round <;> rw [hbody] at hown <;> cases hown
    obtain ⟨d, -, rfl⟩ := List.mem_map.mp he
    rfl

theorem marked_eq_named {sources : List Source}
    (hsingle : ∀ leaf ∈ sources, leaf.isSingle = true) :
    marked link round count sources = named (sources.map (fetch link round count)) := by
  have hself : ∀ e ∈ named (sources.map (fetch link round count)),
      e.withDefaultSource "composite" = e := by
    intro e he
    obtain ⟨leaf, hleaf, own, hown, hmem⟩ := mem_named_iff.mp he
    exact mark_eq_self (hsingle leaf hleaf) hown e hmem
  rw [marked, List.map_congr_left hself, List.map_id']

theorem marked_eq_cut {sources : List Source} (hsingle : ∀ leaf ∈ sources, leaf.isSingle = true)
    (hsame : ∀ leaf ∈ sources, leaf.fetch link later 0 = leaf.fetch link round 0)
    (hcount : count ≠ 0) : marked link later count sources = cut link round count sources := by
  rw [marked_eq_named hsingle, cut]
  congr 1
  exact List.map_congr_left fun leaf hleaf =>
    fetch_leaf (hsingle leaf hleaf) hcount (hsame leaf hleaf)

/-- The front of no listing names one proxy twice. -/
def FrontsDistinct (link : Link) (round count : Nat) (source : Source) : Prop :=
  ∀ leaf ∈ source.leaves, ∀ own, leaf.fetch link round 0 = .ok own →
    (own.take count).Pairwise fun d e => ¬ d.SameProxy e

theorem sameFront_cut {sources : List Source} (hcount : count ≠ 0)
    (hdistinct : ∀ leaf ∈ sources, ∀ own, leaf.fetch link round 0 = .ok own →
      (own.take count).Pairwise fun d e => ¬ d.SameProxy e) :
    SameFront count (cut link round count sources)
      (named (sources.map (fetch link round 0))) := by
  induction sources with
  | nil => exact .refl _ _
  | cons leaf rest ih =>
    have hrest := ih fun s hs => hdistinct s (by simp [hs])
    have hleaf : SameFront count (cut link round count [leaf])
        (named [leaf.fetch link round 0]) := by
      cases hown : leaf.fetch link round 0 with
      | error failure => simp [cut, hown, SameFront, Except.map, named, Except.toOption]
      | ok own =>
        simpa [cut, hown, Except.map, named, Except.toOption] using
          sameFront_take hcount (hdistinct leaf (by simp) own hown)
    simpa [cut, ← named_append] using hleaf.append hrest

theorem fetch_composite_eq_take (hs : (composite members).IsListing)
    (hsame : (composite members).Unchanged link round later) (hcount : count ≠ 0)
    (hdistinct : (composite members).FrontsDistinct link round count)
    (hcomplete : (composite members).fetch link round 0 = .ok own)
    (hlist : (composite members).fetch link later count = .ok list) : list = own.take count := by
  have hsingle := hs.isSingle_of_mem_leaves
  rw [leaves] at hsingle
  have hfront : SameFront count (cut link round count (leavesAll members))
      (named ((leavesAll members).map (fetch link round 0))) := sameFront_cut hcount hdistinct
  rw [eq_of_fetch_leaves hcomplete, eq_of_fetch_leaves hlist, marked_eq_cut hsingle hsame hcount,
    marked_eq_named hsingle, hfront]
  simp [limit, hcount]

/-- A source that reads listings and does not change fails in the same way with a count and
without. With a count it names the front of the complete list if it has one listing only, or
if the front of none of its listings names one proxy twice. A composite names in any case what
it would name of its listings if each ended after the count. -/
theorem limited_request_names_front (hs : source.IsListing)
    (hsame : source.Unchanged link round later) (hcount : count ≠ 0) :
    (∀ failure, source.fetch link later count = .error failure ↔
      source.fetch link round 0 = .error failure) ∧
    (source.isSingle = true ∨ source.FrontsDistinct link round count →
      ∀ complete, source.fetch link round 0 = .ok complete →
        source.fetch link later count = .ok (complete.take count)) ∧
    ∀ members, source = composite members →
      ∀ list, source.fetch link later count = .ok list →
        list = (firstMentions (cut link round count source.leaves)).take count := by
  have hfails : ∀ failure, source.fetch link later count = .error failure ↔
      source.fetch link round 0 = .error failure := fun _ => fetch_eq_error_iff hs hsame hcount
  have hsingle := hs.isSingle_of_mem_leaves
  refine ⟨hfails, ?_, ?_⟩
  · intro hcase complete hcomplete
    cases hs with
    | file content fallback =>
      rw [fetch_leaf rfl hcount (hsame _ (by simp [leaves])), hcomplete]
      rfl
    | http peer fallback =>
      rw [fetch_leaf rfl hcount (hsame _ (by simp [leaves])), hcomplete]
      rfl
    | composite members hm =>
      cases hlist : (composite members).fetch link later count with
      | error failure =>
        rw [(hfails failure).mp hlist] at hcomplete
        cases hcomplete
      | ok list =>
        have hdistinct := hcase.resolve_left (by simp [isSingle])
        rw [fetch_composite_eq_take (.composite members hm) hsame hcount hdistinct hcomplete hlist]
  · rintro members rfl list hlist
    rw [leaves] at hsingle ⊢
    rw [eq_of_fetch_leaves hlist, marked_eq_cut hsingle hsame hcount, firsts_eq_firstMentions,
      limit, if_neg hcount]

/-- Two listings with a proxy in common. -/
theorem limited_request_names_front_of_two :
    let source : Source :=
      composite [.file (.text "b:2
a:1") .http, .file (.text "a:1
c:3
d:4") .http]
    ∃ complete, source.fetch .down 0 0 = .ok complete ∧ complete.length = 4 ∧
      source.fetch .down 1 3 = .ok (complete.take 3) := by
  intro source
  have hlisting : source.IsListing := .composite _ (by simp [IsListing.file])
  have hsame : source.Unchanged .down 0 1 := by
    intro leaf hleaf
    simp only [source, leaves, leavesAll, List.mem_append, List.mem_singleton, List.not_mem_nil,
      or_false] at hleaf
    rcases hleaf with rfl | rfl <;> rfl
  have hdistinct : source.FrontsDistinct .down 0 3 := by
    intro leaf hleaf own hown
    simp only [source, leaves, leavesAll, List.mem_append, List.mem_singleton, List.not_mem_nil,
      or_false] at hleaf
    rcases hleaf with rfl | rfl <;> cases hown <;> decide +kernel
  refine ⟨_, rfl, by decide +kernel, ?_⟩
  exact (limited_request_names_front hlisting hsame (by decide)).2.1 (.inr hdistinct) _ rfl

end ProxyLease.Source
