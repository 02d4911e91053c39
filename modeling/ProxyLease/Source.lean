import ProxyLease.Endpoint.Listing
import ProxyLease.Failure
import ProxyLease.Network.Peer

/-!
# Sources of endpoints

A source names endpoints on request: up to a count, or all of them for a count of
zero. Listings come from a file or a peer; a composite asks all its members, keeps
the first endpoint of every identity and fails only when every member fails. Each
endpoint is marked with the source that named it, unless it carries a name already.
-/

namespace ProxyLease

/-- What is found at a path. -/
inductive FileContent where
  | text (content : String)
  | missing
  /-- Bytes that are no text. -/
  | notText

def FileContent.ofBytes (bytes : ByteArray) : FileContent :=
  match String.fromUTF8? bytes with
  | some content => .text content
  | none => .notText

def FileContent.read : FileContent → Except SourceFailure String
  | .text content => .ok content
  | .missing => .error (.read "No such file or directory (os error 2)")
  | .notText => .error (.read "stream did not contain valid UTF-8")

inductive Source where
  /-- Names the same endpoints on every request, or always fails. -/
  | fixed (name : String) (list : List Endpoint) (fails : Bool)
  | file (content : FileContent) (fallback : Transport)
  | http (peer : Peer) (fallback : Transport)
  /-- Answers every count in a way of its own. -/
  | custom (name : String) (answer : Nat → Except SourceFailure (List Endpoint))
  | composite (members : List Source)

namespace Source

def name : Source → String
  | .fixed name _ _ => name
  | .file _ _ => "file"
  | .http _ _ => "http"
  | .custom name _ => name
  | .composite _ => "composite"

/-- The first `count` members of a list, all of them for zero. -/
def limit {α : Type} (count : Nat) (list : List α) : List α :=
  if count = 0 then list else list.take count

/-- The endpoints asked for, marked with the source. -/
def hand (source : String) (count : Nat) (list : List Endpoint) : List Endpoint :=
  (limit count list).map (·.withDefaultSource source)

/-- The endpoints whose identity is neither in `seen` nor earlier in the list. -/
def firsts : List String → List Endpoint → List Endpoint
  | _, [] => []
  | seen, e :: rest =>
    if e.id ∈ seen then firsts seen rest else e :: firsts (e.id :: seen) rest

/-- Puts the answers of the members together. -/
def merge (count : Nat) (answers : List (Except SourceFailure (List Endpoint))) :
    Except SourceFailure (List Endpoint) :=
  let lists := answers.filterMap (·.toOption)
  match lists, answers.getLast? with
  | [], some (.error e) => .error e
  | _, _ => .ok (hand "composite" count (firsts [] lists.flatten))

/-- The body of a peer's answer with a status that is no error. -/
def download (peer : Peer) (link : Link) (round : Nat) : Except SourceFailure String :=
  match peer.exchange link .http round with
  | .answered answer _ => if answer.status < 400 then .ok answer.body else .error .download
  | _ => .error .download

mutual

/-- What the source answers in a round of requests; every member of a composite is asked
once a round. -/
def fetch (link : Link) (round count : Nat) : Source → Except SourceFailure (List Endpoint)
  | .fixed name list fails =>
    if fails then .error (.read (name ++ " down")) else .ok (limit count list)
  | .file content fallback =>
    content.read.map fun text => hand "file" count (Listing.parse fallback text)
  | .http peer fallback =>
    (download peer link round).map fun text => hand "http" count (Listing.parse fallback text)
  | .custom _ answer => answer count
  | .composite members => merge count (fetchAll link round count members)

def fetchAll (link : Link) (round count : Nat) :
    List Source → List (Except SourceFailure (List Endpoint))
  | [] => []
  | s :: rest => fetch link round count s :: fetchAll link round count rest

end

end Source
end ProxyLease
