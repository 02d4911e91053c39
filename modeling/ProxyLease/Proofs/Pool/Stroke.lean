import Mathlib.Tactic.Common
import ProxyLease.Pool.Upkeep

/-!
# Compound strokes

Whatever a pool does to a proxy comes down to a few compound strokes: its statistics
change, it is transferred from one state to another, it is handed out, delivered to
an inbox, or freed, that is made available and offered to the line. Each stroke
here is the change of record and census together with its publication; the lemmas
say which parts of the pool it leaves alone and what it does to the others.
-/

namespace ProxyLease.Pool

variable {p q : Pool} {h k : Handle}

/-! ### Records -/

def id? (p : Pool) (h : Handle) : Option String := (p.record? h).map (·.id)

theorem exists_record_of_state {s : Lifecycle} (hs : p.state? h = some s) :
    ∃ r, p.record? h = some r ∧ r.state = s := by
  obtain ⟨r, hr, hrs⟩ := Option.map_eq_some_iff.mp hs
  exact ⟨r, hr, hrs⟩

theorem exists_id_of_state {s : Lifecycle} (hs : p.state? h = some s) :
    ∃ id, p.id? h = some id := by
  obtain ⟨r, hr, _⟩ := exists_record_of_state hs
  exact ⟨r.id, by rw [id?, hr]; rfl⟩

theorem state?_modifyRecord (f : Record Float → Record Float) :
    (p.modifyRecord h f).state? k =
      if h = k then (p.record? k).map (fun r => (f r).state) else p.state? k := by
  simp only [state?, record?, modifyRecord, Array.getElem?_modify]
  split_ifs <;> simp [Function.comp_def]

theorem id?_modifyRecord (f : Record Float → Record Float) (hf : ∀ r, (f r).id = r.id) :
    (p.modifyRecord h f).id? k = p.id? k := by
  simp only [id?, record?, modifyRecord, Array.getElem?_modify]
  split_ifs <;> simp [Function.comp_def, hf]

theorem state?_setState {s t : Lifecycle} (hs : p.state? h = some s) :
    (p.setState h t).state? k = if k = h then some t else p.state? k := by
  obtain ⟨r, hr, _⟩ := exists_record_of_state hs
  rw [setState, state?_modifyRecord]
  by_cases hk : h = k
  · subst hk
    simp [hr]
  · rw [if_neg hk, if_neg (Ne.symm hk)]

theorem id?_setState (t : Lifecycle) : (p.setState h t).id? k = p.id? k :=
  id?_modifyRecord _ fun _ => rfl

/-! ### Statistics -/

/-- Changes the statistics of a record and nothing else. -/
def restat (p : Pool) (h : Handle) (f : Statistics Float → Statistics Float) : Pool :=
  p.modifyRecord h fun r => { r with statistics := f r.statistics }

@[simp] theorem state?_restat (f : Statistics Float → Statistics Float) :
    (p.restat h f).state? k = p.state? k := by
  rw [restat, state?_modifyRecord]
  split_ifs <;> rfl

@[simp] theorem id?_restat (f : Statistics Float → Statistics Float) :
    (p.restat h f).id? k = p.id? k := id?_modifyRecord _ fun _ => rfl

def statistics? (p : Pool) (h : Handle) : Option (Statistics Float) :=
  (p.record? h).map (·.statistics)

theorem statistics?_modifyRecord (f : Record Float → Record Float) :
    (p.modifyRecord h f).statistics? k =
      if h = k then (p.record? k).map (fun r => (f r).statistics) else p.statistics? k := by
  simp only [statistics?, record?, modifyRecord, Array.getElem?_modify]
  split_ifs <;> simp [Function.comp_def]

theorem statistics?_setState (t : Lifecycle) : (p.setState h t).statistics? k = p.statistics? k := by
  rw [setState, statistics?_modifyRecord]
  split_ifs <;> rfl

theorem statistics?_restat (f : Statistics Float → Statistics Float) (hk : k ≠ h) :
    (p.restat h f).statistics? k = p.statistics? k := by
  rw [restat, statistics?_modifyRecord, if_neg (Ne.symm hk)]

/-! ### Publication -/

theorem publish_eq {m : Move} {id : String} (hid : p.id? m.proxy = some id) :
    p.publish m = { p with
      registry :=
        if m.target = .expired ∨ m.detached then p.registry.remove id
        else p.registry.update id m.proxy
      trace := (p.trace.push (.moved m.proxy m.source m.target)).push (.counted m.figures) } := by
  obtain ⟨r, hr, rfl⟩ := Option.map_eq_some_iff.mp hid
  rw [publish, hr]
  rfl

theorem publish_frame (p : Pool) (m : Move) :
    ∃ registry trace, p.publish m = { p with registry, trace } := by
  unfold publish
  split
  · exact ⟨p.registry, p.trace, rfl⟩
  · exact ⟨_, _, rfl⟩

/-! ### Transfers -/

/-- Moves a proxy out of the state it is expected in and publishes the move. -/
def transfer (p : Pool) (h : Handle) (source target : Lifecycle) : Pool :=
  match p.shiftFrom? h source target with
  | none => p
  | some (moved, move) => moved.publish move

theorem shiftFrom?_eq_some {s t : Lifecycle} (hs : p.state? h = some s) (hst : s ≠ t) :
    p.shiftFrom? h s t = some
      ({ p.setState h t with census := p.census.change p.now s t },
        ⟨h, s, t, false, (p.census.change p.now s t).snapshot⟩) := by
  simp [shiftFrom?, shift?, hs, hst]

theorem shiftFrom?_eq_none {s t : Lifecycle} (hs : p.state? h ≠ some s) :
    p.shiftFrom? h s t = none := by
  simp [shiftFrom?, hs]

/-- Goes on with a move if the proxy is in the state it is expected in. -/
def onShift (p : Pool) (h : Handle) (source target : Lifecycle) (missed : Pool)
    (next : Pool → Move → Pool) : Pool :=
  match p.shiftFrom? h source target with
  | none => missed
  | some (moved, move) => next moved move

theorem onShift_of_state {s t : Lifecycle} (hs : p.state? h = some s) (hst : s ≠ t)
    (missed : Pool) (next : Pool → Move → Pool) : ∃ moved move,
      p.shiftFrom? h s t = some (moved, move) ∧ p.onShift h s t missed next = next moved move :=
  ⟨_, _, shiftFrom?_eq_some hs hst, by rw [onShift, shiftFrom?_eq_some hs hst]⟩

theorem onShift_of_ne {s : Lifecycle} (hs : p.state? h ≠ some s) (t : Lifecycle) (missed : Pool)
    (next : Pool → Move → Pool) : p.onShift h s t missed next = missed := by
  rw [onShift, shiftFrom?_eq_none hs]

theorem transfer_eq {s t : Lifecycle} {id : String} (hs : p.state? h = some s)
    (hid : p.id? h = some id) (hst : s ≠ t) :
    p.transfer h s t = { p.setState h t with
      census := p.census.change p.now s t
      registry := if t = .expired then p.registry.remove id else p.registry.update id h
      trace := (p.trace.push (.moved h s t)).push
        (.counted (p.census.change p.now s t).snapshot) } := by
  have hid' : ({ p.setState h t with census := p.census.change p.now s t } : Pool).id? h =
      some id := (id?_setState t).trans hid
  rw [transfer, shiftFrom?_eq_some hs hst]
  exact (publish_eq hid').trans (by simp [setState, modifyRecord])

theorem state?_transfer {s t : Lifecycle} (hs : p.state? h = some s) (hst : s ≠ t) :
    (p.transfer h s t).state? k = if k = h then some t else p.state? k := by
  obtain ⟨id, hid⟩ := exists_id_of_state hs
  rw [transfer_eq hs hid hst]
  exact state?_setState hs

theorem id?_transfer {s t : Lifecycle} (hs : p.state? h = some s) (hst : s ≠ t) :
    (p.transfer h s t).id? k = p.id? k := by
  obtain ⟨id, hid⟩ := exists_id_of_state hs
  rw [transfer_eq hs hid hst]
  exact id?_setState t

theorem statistics?_transfer {s t : Lifecycle} (hs : p.state? h = some s) (hst : s ≠ t) :
    (p.transfer h s t).statistics? k = p.statistics? k := by
  obtain ⟨id, hid⟩ := exists_id_of_state hs
  rw [transfer_eq hs hid hst]
  exact statistics?_setState t

theorem transfer_frame (p : Pool) (h : Handle) (s t : Lifecycle) :
    ∃ records registry census trace,
      p.transfer h s t = { p with records, registry, census, trace } := by
  unfold transfer shiftFrom? shift?
  split
  · exact ⟨p.records, p.registry, p.census, p.trace, rfl⟩
  · next moved move hm =>
    obtain ⟨registry, trace, hp⟩ := publish_frame moved move
    split at hm
    · split at hm
      · cases hm
      · split at hm
        · cases hm
        · cases hm
          exact ⟨_, registry, _, trace, hp⟩
    · cases hm

/-! ### Handing out -/

/-- Claims a proxy, counts the request as served and publishes the claim. -/
def handOut (p : Pool) (h : Handle) : Pool :=
  match p.claim? h with
  | none => p
  | some (claimed, move) => claimed.served.publish move

/-- Takes the consumer at a ticket out of the line and hands a proxy to it. -/
def deliver (p : Pool) (t : Ticket) (others : List Ticket) (h : Handle) : Pool :=
  ({ p with line := others }.setInbox t (.delivered h)).handOut h

/-- Makes a proxy available and offers it to the line. -/
def free (p : Pool) (h : Handle) (source : Lifecycle) : Pool :=
  ((p.transfer h source .available).offer h).2

def claimedCensus (p : Pool) : Census Float :=
  if p.settings.removeAfterGet then p.census.remove p.now .available
  else p.census.change p.now .available .inUse

theorem claim?_eq_some (hs : p.state? h = some .available) :
    p.claim? h = some ({ p.setState h .inUse with census := p.claimedCensus },
      ⟨h, .available, .inUse, p.settings.removeAfterGet, p.claimedCensus.snapshot⟩) := by
  simp [claim?, claimedCensus, hs]

theorem claim?_eq_none (hs : p.state? h ≠ some .available) : p.claim? h = none := by
  simp [claim?, hs]

theorem handOut_eq {id : String} (hs : p.state? h = some .available) (hid : p.id? h = some id) :
    p.handOut h = { p.setState h .inUse with
      census := p.claimedCensus.recordServed p.now
      registry :=
        if p.settings.removeAfterGet then p.registry.remove id else p.registry.update id h
      trace := (p.trace.push (.moved h .available .inUse)).push
        (.counted p.claimedCensus.snapshot) } := by
  have hid' : (served { p.setState h .inUse with census := p.claimedCensus }).id? h = some id :=
    (id?_setState .inUse).trans hid
  rw [handOut, claim?_eq_some hs]
  exact (publish_eq hid').trans (by simp [setState, modifyRecord, served])

theorem state?_handOut (hs : p.state? h = some .available) :
    (p.handOut h).state? k = if k = h then some .inUse else p.state? k := by
  obtain ⟨id, hid⟩ := exists_id_of_state hs
  rw [handOut_eq hs hid]
  exact state?_setState hs

theorem id?_handOut (hs : p.state? h = some .available) : (p.handOut h).id? k = p.id? k := by
  obtain ⟨id, hid⟩ := exists_id_of_state hs
  rw [handOut_eq hs hid]
  exact id?_setState .inUse

theorem statistics?_handOut (hs : p.state? h = some .available) :
    (p.handOut h).statistics? k = p.statistics? k := by
  obtain ⟨id, hid⟩ := exists_id_of_state hs
  rw [handOut_eq hs hid]
  exact statistics?_setState .inUse

theorem handOut_frame (p : Pool) (h : Handle) :
    ∃ records registry census trace,
      p.handOut h = { p with records, registry, census, trace } := by
  unfold handOut claim?
  split
  · exact ⟨p.records, p.registry, p.census, p.trace, rfl⟩
  · next claimed move hc =>
    obtain ⟨registry, trace, hp⟩ := publish_frame claimed.served move
    split at hc
    · cases hc
      exact ⟨_, registry, _, trace, hp⟩
    · cases hc

end ProxyLease.Pool
