import ProxyLease.Source

/-!
# Sources that read listings

A file and a peer name the endpoints of one listing from its front, as many as they are
asked for. Composites of such sources are listings put together.
-/

namespace ProxyLease.Source

inductive IsListing : Source → Prop
  | file (content : FileContent) (fallback : Transport) : IsListing (.file content fallback)
  | http (peer : Peer) (fallback : Transport) : IsListing (.http peer fallback)
  | composite (members : List Source) (hm : ∀ s ∈ members, s.IsListing) :
      IsListing (.composite members)

/-- Whether the endpoints of a source come from one listing. -/
def isSingle : Source → Bool
  | .file _ _ | .http _ _ => true
  | _ => false

theorem hand_eq_take (source : String) {count : Nat} (hcount : count ≠ 0) (list : List Endpoint) :
    hand source count list = (hand source 0 list).take count := by
  simp only [hand, limit, if_neg hcount, if_true, List.map_take]

theorem fetch_eq_take {source : Source} (hsingle : source.isSingle = true) (link : Link)
    (round : Nat) {count : Nat} (hcount : count ≠ 0) :
    source.fetch link round count =
      (source.fetch link round 0).map fun complete => complete.take count := by
  cases source with
  | fixed | custom | composite => cases hsingle
  | file content fallback =>
    rw [fetch, fetch]
    cases content.read with
    | error failure => rfl
    | ok text => exact congrArg Except.ok (hand_eq_take "file" hcount _)
  | http peer fallback =>
    rw [fetch, fetch]
    cases download peer link round with
    | error failure => rfl
    | ok text => exact congrArg Except.ok (hand_eq_take "http" hcount _)

end ProxyLease.Source
