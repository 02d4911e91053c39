import ProxyLease.Duration

/-!
# Cached clients

Clients are kept by identity and dropped when they are idle: all idle ones by a
sweep, which runs at most once an idle window, and at most sixteen of them before
an insertion into a full cache. A full cache still takes a new client.
-/

namespace ProxyLease

structure CachedClient (C : Type) where
  key : String
  client : C
  lastUsed : Instant

structure ClientCache (C : Type) where
  entries : List (CachedClient C)
  lastSweep : Option Instant
  maxEntries : Nat
  idleTimeout : Duration

namespace ClientCache

variable {C : Type}

def empty (maxEntries : Nat) (idleTimeout : Duration) : ClientCache C :=
  ⟨[], none, maxEntries, idleTimeout⟩

def size (c : ClientCache C) : Nat := c.entries.length

/-- How many idle clients make room for a new one at most. -/
def maxInlineEvictions : Nat := 16

def isIdle (c : ClientCache C) (now : Instant) (e : CachedClient C) : Bool :=
  c.idleTimeout ≤ .since e.lastUsed now

def sweepDue (c : ClientCache C) (now : Instant) : Bool :=
  match c.lastSweep with
  | none => true
  | some last => c.idleTimeout ≤ .since last now

/-- Drops all idle clients, unless a sweep ran within the idle window. -/
def sweep (c : ClientCache C) (now : Instant) : ClientCache C :=
  if c.sweepDue now then
    { c with
      entries := c.entries.filter fun e => !c.isIdle now e
      lastSweep := some now }
  else c

def find? (c : ClientCache C) (key : String) : Option (CachedClient C) :=
  c.entries.find? (·.key == key)

/-- The entries without the first idle ones, at most `n` of them. -/
def withoutIdle (c : ClientCache C) (now : Instant) :
    Nat → List (CachedClient C) → List (CachedClient C)
  | 0, entries => entries
  | _, [] => []
  | n + 1, e :: rest =>
    if c.isIdle now e then c.withoutIdle now n rest else e :: c.withoutIdle now (n + 1) rest

/-- Makes room when the cache is full. -/
def makeRoom (c : ClientCache C) (now : Instant) : ClientCache C :=
  if c.maxEntries ≤ c.size then
    { c with entries := c.withoutIdle now maxInlineEvictions c.entries }
  else c

def touch (c : ClientCache C) (key : String) (now : Instant) : ClientCache C :=
  { c with entries := c.entries.map fun e => if e.key == key then { e with lastUsed := now } else e }

/-- The client of a key, made and kept if there is none; nothing is kept when making it
fails. -/
def obtain {ε : Type} (c : ClientCache C) (key : String) (now : Instant) (make : Except ε C) :
    Except ε C × ClientCache C :=
  let swept := c.sweep now
  match swept.find? key with
  | some e => (.ok e.client, swept.touch key now)
  | none =>
    let roomy := swept.makeRoom now
    match make with
    | .error e => (.error e, roomy)
    | .ok client => (.ok client, { roomy with entries := roomy.entries ++ [⟨key, client, now⟩] })

end ClientCache
end ProxyLease
