import Mathlib.Logic.Relation
import ProxyLease.Proofs.Census
import ProxyLease.Proofs.Pool.Stroke
import ProxyLease.World.Step

/-!
# Changes of a pool

Whatever a pool does for itself is a sequence of indivisible changes. The list of them
is closed: a law that every change keeps is kept by acquisition, the beginning of
probes, upkeep, start and stop. No change makes a proxy available, hands one to anybody
or takes one back.

A change belongs to a stretch of some task, and what that stretch is about limits what
the change may be: only upkeep sends proxies back to the queue, only acquisition brings
new ones, only a request is counted as one, and a probe or a report touches the proxy it is
about and no other.
-/

namespace ProxyLease

/-- The ways of a proxy that are no concern of the consumers: none of them leads to
being available or in use, or away from being in use. -/
inductive Route : Lifecycle → Lifecycle → Prop
  | probe : Route .pending .validating
  | rest : Route .validating .cooldown
  | disable : Route .validating .disabled
  | expire : Route .validating .expired
  | renew : Route .available .pending
  | recover : Route .cooldown .pending

namespace Route

variable {s t : Lifecycle}

theorem ne (r : Route s t) : s ≠ t := by cases r <;> decide

theorem source_ne_inUse (r : Route s t) : s ≠ .inUse := by cases r <;> decide

theorem source_ne_expired (r : Route s t) : s ≠ .expired := by cases r <;> decide

theorem source_ne_disabled (r : Route s t) : s ≠ .disabled := by cases r <;> decide

theorem target_ne_inUse (r : Route s t) : t ≠ .inUse := by cases r <;> decide

theorem target_ne_available (r : Route s t) : t ≠ .available := by cases r <;> decide

end Route

/-- Whether an event is about something else than a move, the figures after it, or a probe
that is sent. -/
def Event.isRemark : Event → Bool
  | .moved _ _ _ | .counted _ | .check _ => false
  | _ => true

/-- What a stretch of a task is about. -/
inductive Concern where
  /-- The pool as a whole. -/
  | upkeep
  /-- New proxies. -/
  | acquisition
  /-- A request of a consumer. -/
  | request
  /-- A proxy whose probe begins. -/
  | probe (proxy : Handle)
  /-- A proxy whose probe ends. -/
  | verdict (proxy : Handle)
  /-- A proxy on whose use a consumer reports. -/
  | use (proxy : Handle)
  deriving DecidableEq

namespace Pool

variable {c : Concern} {p q r : Pool} {h : Handle}

/-- The line without those at its front who do not wait any more. -/
def trimmed (p : Pool) : Pool := { p with line := p.line.dropWhile (!p.isWaiting ·) }

/-- One indivisible change that a pool makes in a stretch about some concern. -/
inductive Change (c : Concern) : Pool → Pool → Prop
  | remark (p : Pool) (e : Event) (he : e.isRemark = true) : Change c p (p.emit e)
  | restat (p : Pool) (h : Handle) (f : Statistics Float → Statistics Float)
      (hc : c = .verdict h ∨ c = .use h) : Change c p (p.restat h f)
  /-- Uses and outcomes are counted, but no proxies and no requests. -/
  | tally (p : Pool) (census : Census Float) (hcounts : census.counts = p.census.counts)
      (htotal : census.total = p.census.total) (hdealings : census.dealings = p.census.dealings) :
      Change c p { p with census }
  | ask (p : Pool) (hc : c = .request) : Change c p p.requested
  /-- A proxy goes back to the queue, from cooldown only once it has rested. -/
  | requeue (p : Pool) (h : Handle) {s : Lifecycle} (hs : p.state? h = some s)
      (hr : Route s .pending) (hrested : s = .cooldown → p.isRested h = true)
      (hc : c = .upkeep) : Change c p (p.requeue h s)
  /-- The first proxy of the queue is taken out, and its probe begins. -/
  | begin (p : Pool) {h : Handle} {rest : List Handle} (hq : p.queue = h :: rest)
      (hc : c = .probe h) : Change c p ({ p with queue := rest }.beginProbe h).2
  | fail (p : Pool) (h : Handle) {t : Lifecycle} (hs : p.state? h = some .validating)
      (hr : Route .validating t) (hc : c = .verdict h) : Change c p (p.transfer h .validating t)
  | choose (p : Pool) : Change c p p.choose.2
  | trim (p : Pool) : Change c p p.trimmed
  | register {p q : Pool} (e : Endpoint) (ha : p.admit? e = some q) (hc : c = .acquisition) :
      Change c p q
  | elapse (p : Pool) (d : Duration) (hc : c = .upkeep) : Change c p { p with now := p.now + d.ns }
  | staff (p : Pool) (n : Nat) (hc : c = .upkeep) : Change c p { p with concurrency := n }
  | launch (p : Pool) (hc : c = .upkeep) : Change c p { p with running := true }.recount
  | close (p : Pool) (hc : c = .upkeep) : Change c p { p with running := false }.hangUpAll

def Changes (c : Concern) : Pool → Pool → Prop := Relation.ReflTransGen (Change c)

theorem Changes.refl (p : Pool) : Changes c p p := Relation.ReflTransGen.refl

theorem Changes.trans (hpq : Changes c p q) (hqr : Changes c q r) : Changes c p r :=
  Relation.ReflTransGen.trans hpq hqr

theorem Change.changes (h : Change c p q) : Changes c p q := Relation.ReflTransGen.single h

theorem Changes.keep {P : Pool → Prop} (step : ∀ {p q}, Change c p q → P p → P q)
    (h : Changes c p q) (hp : P p) : P q := by
  induction h with
  | refl => exact hp
  | tail _ hc ih => exact step hc ih

theorem changes_foldl {α : Type} (f : Pool → α → Pool) (hf : ∀ p a, Changes c p (f p a)) :
    ∀ (list : List α) (p : Pool), Changes c p (list.foldl f p)
  | [], p => .refl p
  | a :: rest, p => (hf p a).trans (changes_foldl f hf rest (f p a))

theorem changes_emit (p : Pool) {e : Event} (he : e.isRemark = true) : Changes c p (p.emit e) :=
  (Change.remark p e he).changes

theorem changes_note (p : Pool) (level : LogLevel) (text : String) :
    Changes c p (p.note level text) := changes_emit p rfl

/-! ### Upkeep -/

theorem requeue_eq {s : Lifecycle} (hs : p.state? h = some s) (hne : s ≠ .pending) :
    p.requeue h s = (p.transfer h s .pending).enqueue h := by
  rw [requeue, transfer, shiftFrom?_eq_some hs hne]

theorem requeue_changes (p : Pool) (h : Handle) {s : Lifecycle} (hr : Route s .pending)
    (hrested : s = .cooldown → p.isRested h = true) : Changes .upkeep p (p.requeue h s) := by
  by_cases hs : p.state? h = some s
  · exact (Change.requeue p h hs hr hrested rfl).changes
  · rw [requeue, shiftFrom?_eq_none hs]
    exact .refl p

theorem requeueStale_changes (p : Pool) : Changes .upkeep p p.requeueStale := by
  refine changes_foldl _ (fun q h => ?_) _ p
  split
  · exact requeue_changes q h .renew nofun
  · exact .refl q

/-- Sends a proxy back to the queue if it has rested. -/
def recover (p : Pool) (h : Handle) : Pool := if p.isRested h then p.requeue h .cooldown else p

theorem requeueRested_eq (p : Pool) :
    p.requeueRested = (p.proxiesIn .cooldown).foldl recover p := rfl

theorem recover_changes (p : Pool) (h : Handle) : Changes .upkeep p (p.recover h) := by
  rw [recover]
  split
  · next hrested => exact requeue_changes p h .recover fun _ => hrested
  · exact .refl p

theorem requeueRested_changes (p : Pool) : Changes .upkeep p p.requeueRested :=
  changes_foldl recover recover_changes _ p

/-! ### Probes -/

def ageOf (p : Pool) (h : Handle) : Duration := ((p.record? h).map (·.age p.now)).getD .zero

theorem ageOf_transfer (p : Pool) (h k : Handle) {s t : Lifecycle} (hst : s ≠ t) :
    (p.transfer h s t).ageOf k = p.ageOf k := by
  by_cases hs : p.state? h = some s
  · obtain ⟨id, hid⟩ := exists_id_of_state hs
    rw [transfer_eq hs hid hst]
    simp only [ageOf, record?, setState, modifyRecord, Array.getElem?_modify]
    split_ifs
    · cases p.records[k]? <;> rfl
    · rfl
  · rw [transfer, shiftFrom?_eq_none hs]

/-- Only a pending proxy is probed. One that is too old expires instead, and about any
other the prober is asked. -/
theorem beginProbe_cases (p : Pool) (h : Handle) :
    (p.state? h ≠ some .pending ∧ p.beginProbe h = (false, p)) ∨
    (p.state? h = some .pending ∧ p.settings.proxyTtl ≤ p.ageOf h ∧ p.beginProbe h =
      (false, (p.transfer h .pending .validating).transfer h .validating .expired)) ∨
    (p.state? h = some .pending ∧ p.ageOf h < p.settings.proxyTtl ∧ p.beginProbe h =
      (true, (p.transfer h .pending .validating).emit (.check h))) := by
  by_cases hs : p.state? h = some .pending
  · have hne : Lifecycle.pending ≠ .validating := by decide
    have hage := ageOf_transfer p h h hne
    obtain ⟨_, _, _, _, hf⟩ := transfer_frame p h .pending .validating
    have hsettings : (p.transfer h .pending .validating).settings = p.settings := by rw [hf]
    have hv : (p.transfer h .pending .validating).state? h = some .validating := by
      rw [state?_transfer hs hne, if_pos rfl]
    have he : p.beginProbe h =
        if (p.transfer h .pending .validating).settings.proxyTtl ≤
          (p.transfer h .pending .validating).ageOf h
        then (false, (p.transfer h .pending .validating).transfer h .validating .expired)
        else (true, (p.transfer h .pending .validating).emit (.check h)) := by
      have hshift := shiftFrom?_eq_some hs hne
      rw [transfer, hshift] at hv ⊢
      rw [beginProbe, hshift]
      dsimp only at hv ⊢
      rw [transfer, shiftFrom?_eq_some hv (by decide)]
      rfl
    rw [hsettings, hage] at he
    by_cases hold : p.settings.proxyTtl ≤ p.ageOf h
    · rw [if_pos hold] at he
      exact .inr (.inl ⟨hs, hold, he⟩)
    · rw [if_neg hold] at he
      exact .inr (.inr ⟨hs, Nat.lt_of_not_le hold, he⟩)
  · exact .inl ⟨hs, by rw [beginProbe, shiftFrom?_eq_none hs]⟩

/-- Remarks between a move and its publication might as well come before both. -/
theorem shiftFrom?_emit (p : Pool) (e : Event) (h : Handle) (s t : Lifecycle) :
    (p.emit e).shiftFrom? h s t = (p.shiftFrom? h s t).map fun m => (m.1.emit e, m.2) := by
  simp only [shiftFrom?, shift?, show (p.emit e).state? h = p.state? h from rfl]
  split_ifs with hs
  · rw [hs]
    dsimp only
    split_ifs <;> rfl
  · rfl

theorem transfer_emit_eq {e : Event} {s t : Lifecycle} {moved : Pool} {move : Move}
    (hm : p.shiftFrom? h s t = some (moved, move)) :
    (moved.emit e).publish move = (p.emit e).transfer h s t := by
  rw [transfer, shiftFrom?_emit, hm]
  rfl

def warned (p : Pool) (w : Prop) [Decidable w] (text : String) : Pool :=
  if w then p.note .warn text else p

theorem warned_changes (p : Pool) (w : Prop) [Decidable w] (text : String) :
    Changes c p (p.warned w text) := by
  unfold warned
  split
  · exact changes_note p .warn text
  · exact .refl p

theorem state?_warned (w : Prop) [Decidable w] (text : String) :
    (p.warned w text).state? h = p.state? h := by
  unfold warned
  split <;> rfl

theorem settings_warned (w : Prop) [Decidable w] (text : String) :
    (p.warned w text).settings = p.settings := by
  unfold warned
  split <;> rfl

theorem transfer_warned_eq {s t : Lifecycle} {moved : Pool} {move : Move} {w : Prop}
    [Decidable w] (hm : p.shiftFrom? h s t = some (moved, move)) (text : String) :
    (moved.warned w text).publish move = (p.warned w text).transfer h s t := by
  unfold warned
  split
  · exact transfer_emit_eq hm
  · rw [transfer, hm]

/-! ### Acquisition -/

theorem admit?_eq_some {e : Endpoint} (ha : p.admit? e = some q) :
    ∃ registry queue, p.registry.add? e.id p.records.size = some registry ∧
      q = { p with
        records := p.records.push (.fresh e p.now (burstOf p.settings.maxRequestsPerSecond))
        registry
        census := p.census.add p.now .pending
        queue
        trace := p.trace.push (.counted (p.census.add p.now .pending).snapshot) } := by
  obtain ⟨registry, hr, rfl⟩ := Option.map_eq_some_iff.mp ha
  dsimp only
  split
  · exact ⟨registry, _, hr, rfl⟩
  · exact ⟨registry, _, hr, rfl⟩

theorem record?_register {e : Endpoint} (ha : p.admit? e = some q) :
    q.record? h = if h = p.records.size
      then some (.fresh e p.now (burstOf p.settings.maxRequestsPerSecond)) else p.record? h := by
  obtain ⟨registry, queue, _, rfl⟩ := admit?_eq_some ha
  exact Array.getElem?_push

@[simp] theorem record?_size (p : Pool) : p.record? p.records.size = none := by simp [record?]

@[simp] theorem state?_size (p : Pool) : p.state? p.records.size = none := by simp [state?]

theorem statistics?_register {e : Endpoint} (ha : p.admit? e = some q) {s : Statistics Float}
    (hs : p.statistics? h = some s) : q.statistics? h = some s := by
  have hold : h ≠ p.records.size := by
    rintro rfl
    simp [statistics?] at hs
  rw [statistics?, record?_register ha, if_neg hold]
  exact hs

theorem state?_register {e : Endpoint} (ha : p.admit? e = some q) :
    q.state? h = if h = p.records.size then some .pending else p.state? h := by
  rw [state?, record?_register ha, state?]
  split_ifs <;> rfl

theorem addAll_changes : ∀ (list : List Endpoint) (p : Pool) (added : Nat),
    Changes .acquisition p (p.admitAll added list).2
  | [], p, _ => .refl p
  | e :: rest, p, added => by
    rw [admitAll]
    split
    · exact .refl p
    · split
      · exact addAll_changes rest p added
      · next q hq =>
        exact (Change.register e hq rfl).changes.trans (addAll_changes rest q (added + 1))

theorem receive_changes (p : Pool) (pass : Pass)
    (answer : Except SourceFailure (List Endpoint)) :
    Changes .acquisition p (p.receive pass answer).2 := by
  unfold receive
  split
  · exact changes_note _ _ _
  · exact addAll_changes _ _ _

theorem finishPass_changes (p : Pool) (pass : Pass) : Changes c p (p.finishPass pass) := by
  unfold finishPass
  dsimp only
  split
  · exact (changes_note _ _ _).trans (changes_note _ _ _)
  · exact changes_note _ _ _

theorem proceed_changes (p : Pool) (pass : Pass) : Changes c p (World.proceed p pass).2 := by
  unfold World.proceed
  split
  · exact changes_emit _ rfl
  · exact finishPass_changes p pass

theorem answered_changes (p : Pool) (state : Asking)
    (answer : Except SourceFailure (List Endpoint)) :
    Changes .acquisition p (World.answered p state answer).2.2 :=
  (receive_changes p state.pass answer).trans (proceed_changes _ _)

end Pool
end ProxyLease
