import ProxyLease.Pool.Basic

/-!
# Handing proxies out

A request takes an available proxy at once or joins the line. Whenever a proxy
becomes available it goes to the first consumer in line, and a consumer that joins
the line first looks once more for available proxies. What was delivered to an
inbox is found there whatever else ends the wait.
-/

namespace ProxyLease

inductive WaitEnd where
  /-- The inbox has something to say. -/
  | answered
  | timedOut (wait : Duration)
  | cancelled

/-- How a request for a proxy begins: with its result, or with a wait in line. -/
inductive RequestStart where
  | done (result : Except PoolFailure Handle)
  | queued (ticket : Ticket) (wait : Duration)

/-- What became of a proxy that was offered to the line. -/
inductive Offer where
  | handed
  | taken
  | nobody
  deriving DecidableEq

namespace Pool

/-- Lets the chooser choose among the available proxies. -/
def choose (p : Pool) : Option Handle × Pool :=
  let weight (h : Handle) : Float := ((p.record? h).map (·.weight p.now)).getD 0
  let (choice, chooser) := p.chooser.select weight (p.proxiesIn .available)
  (choice, { p with chooser })

/-- Claims the proxy that is chosen, with at most `tries` choices that are no candidates. -/
def takeWithin : Nat → Pool → Option Handle × Pool
  | 0, p => (none, p)
  | tries + 1, p =>
    match p.choose with
    | (none, q) => (none, q)
    | (some h, q) =>
      match q.claim? h with
      | some (claimed, move) => (some h, claimed.served.publish move)
      | none => takeWithin tries q

def takeAvailable (p : Pool) : Option Handle × Pool :=
  p.takeWithin (p.chooser.foreignPicks + 1)

/-- A request that does not wait. -/
def tryGet (p : Pool) : Option Handle × Pool := p.requested.takeAvailable

/-- Offers a proxy to the first consumer in line that still waits. -/
def offer (p : Pool) (h : Handle) : Offer × Pool :=
  match p.line.dropWhile (!p.isWaiting ·) with
  | [] => (.nobody, { p with line := [] })
  | ticket :: others =>
    match p.claim? h with
    | none => (.taken, { p with line := ticket :: others })
    | some (claimed, move) =>
      let sent := { claimed with line := others }.setInbox ticket (.delivered h)
      (.handed, sent.served.publish move)

def hasWaiters (p : Pool) : Bool := p.line.any p.isWaiting

/-- Hands available proxies to the line while there are both, within a number of offers. -/
def dispatchWithin : Nat → Pool → Pool
  | 0, p => p
  | tries + 1, p =>
    if p.hasWaiters then
      match p.choose with
      | (none, q) => q
      | (some h, q) =>
        match q.offer h with
        | (.nobody, r) => r
        | (_, r) => dispatchWithin tries r
    else p

/-- Hands available proxies to the line while there are both. -/
def dispatchAvailable (p : Pool) : Pool :=
  p.dispatchWithin (p.line.length + p.chooser.foreignPicks + 1)

/-- Puts a new consumer at the end of the line and drops those that went away. -/
def joinLine (p : Pool) : Ticket × Pool :=
  let ticket := p.inboxes.size
  (ticket, { p with
    line := p.line.filter p.isWaiting ++ [ticket]
    inboxes := p.inboxes.push .waiting
    census := p.census.beginWait p.now })

/-- Begins a request that waits up to `timeout`, or as long as the settings say. -/
def beginGet (p : Pool) (timeout : Option Duration) : RequestStart × Pool :=
  match p.requested.takeAvailable with
  | (some h, q) => (.done (.ok h), q)
  | (none, q) =>
    let wait := timeout.getD q.settings.defaultGetTimeout
    if wait = .zero then (.done (.error (.timedOut wait)), q)
    else if q.running then
      let (ticket, joined) := q.joinLine
      (.queued ticket wait, joined.dispatchAvailable)
    else (.done (.error .stopped), q)

/-- Closes an inbox to which nothing was sent. -/
def leaveLine (p : Pool) (t : Ticket) : Pool :=
  let q := { p with census := p.census.endWait p.now }
  if q.inbox t = .waiting then q.setInbox t .closed else q

/-- What a wait comes to: the proxy in the inbox, else what ended it. -/
def waitResult (inbox : Inbox) (cause : WaitEnd) : Except PoolFailure Handle :=
  match inbox, cause with
  | .delivered h, _ => .ok h
  | _, .answered => .error .stopped
  | _, .timedOut wait => .error (.timedOut wait)
  | _, .cancelled => .error .cancelled

def endGet (p : Pool) (t : Ticket) (cause : WaitEnd) : Except PoolFailure Handle × Pool :=
  (waitResult (p.inbox t) cause, p.leaveLine t)

def hangUpAll (p : Pool) : Pool :=
  p.line.foldl
    (fun q t => if q.isWaiting t then q.setInbox t .hungUp else q) { p with line := [] }

end Pool
end ProxyLease
