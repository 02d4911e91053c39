import ProxyLease.Proofs.World.Beat

/-!
# The published history

Whoever reads the trace of a pool reads the life of every proxy. The moves of a proxy
form a course that ends in its present state, every move is followed at once by figures
that add up, and a probe is sent only right after the move that announces it, for a
proxy that is young enough.
-/

namespace ProxyLease

open Lifecycle (Course)

def Event.moveOf? (h : Handle) : Event → Option (Lifecycle × Lifecycle)
  | .moved k s t => if k = h then some (s, t) else none
  | _ => none

/-- Moves are followed by figures that add up, and probes follow upon the moves that
announce them. -/
structure Punctual (events : Array Event) : Prop where
  figures : ∀ i h s t, events[i]? = some (.moved h s t) →
    ∃ f : Snapshot Float, events[i + 1]? = some (.counted f) ∧ f.stateSum = f.total
  checks : ∀ i h, events[i]? = some (.check h) → ∃ j, ∃ f : Snapshot Float, i = j + 2 ∧
    events[j]? = some (.moved h .pending .validating) ∧ events[j + 1]? = some (.counted f)

namespace Punctual

variable {events : Array Event} {h : Handle} {f : Snapshot Float}

theorem empty : Punctual #[] := ⟨by simp, by simp⟩

theorem push {e : Event} (ho : Punctual events) (hm : ∀ h s t, e ≠ .moved h s t)
    (hc : ∀ h, e ≠ .check h) : Punctual (events.push e) := by
  constructor
  · intro i h s t hi
    have hold := ho.figures i h s t
    grind
  · intro i h hi
    have hold := ho.checks i h
    grind

theorem push_move (ho : Punctual events) (s t : Lifecycle) (hf : f.stateSum = f.total) :
    Punctual ((events.push (.moved h s t)).push (.counted f)) := by
  constructor
  · intro i k a b hi
    have hold := ho.figures i k a b
    grind
  · intro i k hi
    have hold := ho.checks i k
    grind

theorem push_check (ho : Punctual events) (hf : f.stateSum = f.total) : Punctual
    (((events.push (.moved h .pending .validating)).push (.counted f)).push (.check h)) := by
  have hmoved := ho.push_move .pending .validating (h := h) hf
  constructor
  · intro i k a b hi
    have hold := hmoved.figures i k a b
    grind
  · intro i k hi
    have hold := hmoved.checks i k
    grind

end Punctual

namespace Pool

variable {c : Concern} {p q r : Pool} {h k : Handle} {s t : Lifecycle}

/-- The moves of a proxy as the trace tells them. -/
def history (p : Pool) (h : Handle) : List (Lifecycle × Lifecycle) :=
  p.trace.toList.filterMap (Event.moveOf? h)

theorem history_congr (htrace : q.trace = p.trace) (k : Handle) : q.history k = p.history k := by
  rw [history, history, htrace]

theorem history_push {e : Event} (htrace : q.trace = p.trace.push e)
    (hm : ∀ h s t, e ≠ .moved h s t) (k : Handle) : q.history k = p.history k := by
  have hnone : e.moveOf? k = none := by
    cases e with
    | moved h s t => exact absurd rfl (hm h s t)
    | _ => rfl
  rw [history, htrace, Array.toList_push, List.filterMap_append]
  simp [hnone, history]

theorem Published.history (hm : Published h s t p q) (k : Handle) :
    q.history k = if k = h then p.history k ++ [(s, t)] else p.history k := by
  obtain ⟨f, _, htrace⟩ := hm.told
  rw [Pool.history, htrace, Array.toList_push, Array.toList_push, List.append_assoc,
    List.filterMap_append]
  by_cases hk : k = h
  · simp [Event.moveOf?, Pool.history, hk]
  · simp [Event.moveOf?, Pool.history, hk, Ne.symm hk]

/-- The trace tells the story of every proxy since its first state, and at the right times. -/
structure Recorded (first : Handle → Lifecycle) (p : Pool) : Prop where
  course : ∀ h s, p.state? h = some s → Course (first h) (p.history h) s
  unknown : ∀ h, p.state? h = none → first h = .pending ∧ p.history h = []
  punctual : Punctual p.trace

variable {first : Handle → Lifecycle}

theorem Recorded.still (hr : Recorded first p) (hstate : ∀ k, q.state? k = p.state? k)
    (hhistory : ∀ k, q.history k = p.history k) (ho : Punctual q.trace) : Recorded first q := by
  refine ⟨?_, ?_, ho⟩
  · intro k s hs
    rw [hhistory]
    exact hr.course k s (by rw [← hstate, hs])
  · intro k hk
    rw [hhistory]
    exact hr.unknown k (by rw [← hstate, hk])

theorem Recorded.published (hr : Recorded first p) (hm : Published h s t p q) :
    Recorded first q := by
  refine ⟨?_, ?_, ?_⟩
  · intro k u hu
    rw [hm.states] at hu
    rw [hm.history]
    split_ifs at hu ⊢ with hk
    · cases hu
      rw [hk]
      exact (hr.course h s hm.source).snoc hm.next
    · exact hr.course k u hu
  · intro k hk
    rw [hm.states] at hk
    rw [hm.history]
    split_ifs at hk ⊢ with hkh
    exact hr.unknown k hk
  · obtain ⟨f, hf, htrace⟩ := hm.told
    rw [htrace]
    exact hr.punctual.push_move s t hf

theorem Recorded.register (hr : Recorded first p)
    (hstate : ∀ k, q.state? k = if k = p.records.size then some .pending else p.state? k)
    (htrace : ∃ f : Snapshot Float, f.stateSum = f.total ∧ q.trace = p.trace.push (.counted f)) :
    Recorded first q := by
  obtain ⟨f, _, htrace⟩ := htrace
  have hhistory (k : Handle) : q.history k = p.history k := history_push htrace nofun k
  refine ⟨?_, ?_, ?_⟩
  · intro k s hs
    rw [hstate] at hs
    rw [hhistory]
    split_ifs at hs with hk
    · cases hs
      obtain ⟨hfirst, hnil⟩ := hr.unknown _ (state?_size p)
      rw [hk, hfirst, hnil]
      exact .nil .pending
    · exact hr.course k s hs
  · intro k hk
    rw [hstate] at hk
    rw [hhistory]
    split_ifs at hk
    exact hr.unknown k hk
  · rw [htrace]
    exact hr.punctual.push nofun nofun

theorem Begun.recorded {sent : Bool} (hb : Begun h p q sent) (hr : Recorded first p) :
    Recorded first q := by
  cases hb with
  | skip hqueue hs hstate htrace =>
    refine hr.still hstate (history_congr htrace) ?_
    rw [htrace]
    exact hr.punctual
  | expire hqueue hfirst hlast => exact (hr.published hfirst).published hlast
  | check hqueue hyoung hm hstate htrace =>
    -- That the move stands right before the probe is lost once the story is updated for it,
    -- so punctuality is checked from the trace before both.
    refine (hr.published hm).still hstate (history_push htrace nofun) ?_
    obtain ⟨f, hf, htold⟩ := hm.told
    rw [htrace, htold]
    exact hr.punctual.push_check hf

theorem Beat.recorded (hb : Beat c p q) (hr : Recorded first p) : Recorded first q := by
  cases hb with
  | still hstate hqueue htrace =>
    rcases htrace with htrace | ⟨e, he, htrace⟩
    · refine hr.still hstate (history_congr htrace) ?_
      rw [htrace]
      exact hr.punctual
    · have hm : ∀ h s t, e ≠ .moved h s t := by rintro h s t rfl; cases he
      refine hr.still hstate (history_push htrace hm) ?_
      rw [htrace]
      exact hr.punctual.push hm (by rintro h rfl; cases he)
  | move h hm => exact hr.published hm
  | requeue h hc hm => exact hr.published hm
  | register hc hstate hqueue htrace => exact hr.register hstate htrace
  | begin h hc hb => exact hb.recorded hr

end Pool

namespace World

variable {settings : Settings} {sources : List String} {chooser : Chooser} {now : Instant}
  {content : List (Record Float)} {w : World}

/-- The state in which a proxy is first seen: the one it was restored in, or pending. -/
def firstState (content : List (Record Float)) (h : Handle) : Lifecycle :=
  (((Simulation.Scenario.enroll content).1[h]?).map (·.state)).getD .pending

theorem recorded_of_reaches (hw : (opening settings sources chooser now content).Reaches w) :
    w.pool.Recorded (firstState content) := by
  refine hw.keep_beats rfl Pool.Beat.recorded ⟨?_, ?_, Punctual.empty⟩
  · intro h s hs
    have hfirst : firstState content h = s := congrArg (·.getD .pending) hs
    rw [hfirst]
    exact .nil s
  · intro h hs
    exact ⟨congrArg (·.getD .pending) hs, rfl⟩

end World

/-- Over an empty storage, the published moves of a proxy form a course from pending to its
present state, in which nothing follows once it is disabled or expired. Every move is
followed at once by figures that add up, and a probe is sent only right after the move
that announces it, for a proxy that is younger than its time to live. -/
theorem lives_are_published {settings : Settings} {sources : List String} {chooser : Chooser}
    {now : Instant} {w : World}
    (hw : (World.opening settings sources chooser now []).Reaches w) :
    (∀ h s, w.pool.state? h = some s → Course .pending (w.pool.history h) s) ∧
    (∀ h, w.pool.state? h = none → w.pool.history h = []) ∧
    (∀ h s t earlier later, w.pool.history h = earlier ++ (s, t) :: later →
      t = .disabled ∨ t = .expired → later = []) ∧
    (∀ i h s t, w.pool.trace[i]? = some (.moved h s t) →
      ∃ f, w.pool.trace[i + 1]? = some (.counted f) ∧ f.stateSum = f.total) ∧
    (∀ i h, w.pool.trace[i]? = some (.check h) → ∃ j f, i = j + 2 ∧
      w.pool.trace[j]? = some (.moved h .pending .validating) ∧
      w.pool.trace[j + 1]? = some (.counted f)) ∧
    ∀ a, w.Enabled a = true → ∃ news,
      (w.perform a).pool.trace.toList = w.pool.trace.toList ++ news ∧
      ∀ h, .check h ∈ news →
        ∃ r, w.pool.record? h = some r ∧ r.age w.now < settings.proxyTtl := by
  have hr := World.recorded_of_reaches hw
  have hcourse (h : Handle) (s : Lifecycle) (hs : w.pool.state? h = some s) :
      Course .pending (w.pool.history h) s := hr.course h s hs
  have hunknown (h : Handle) (hh : w.pool.state? h = none) : w.pool.history h = [] :=
    (hr.unknown h hh).2
  refine ⟨hcourse, hunknown, ?_, hr.punctual.figures, hr.punctual.checks, ?_⟩
  · intro h s t earlier later hh ht
    have hfinal : t.next = [] := by rcases ht with rfl | rfl <;> rfl
    cases hs : w.pool.state? h with
    | none =>
      rw [hunknown h hs] at hh
      simp at hh
    | some u =>
      have hc := hcourse h u hs
      rw [hh] at hc
      exact hc.eq_nil_of_final hfinal
  · intro a _
    have hnews := World.perform_news w a (World.addsUp_of_reaches hw)
    rwa [World.settings_of_reaches hw] at hnews

/-- One proxy is probed, used and given back, and a second one expires. -/
theorem lives_are_published_after_use :
    ∃ w, (World.opening { Settings.standard with proxyTtl := ⟨1⟩ } ["s"] (.roundRobin 0) 0 []).run?
        [.start, .supplyPass 0 (.ok [.plain "a" 1 .http, .plain "b" 1 .http]), .take 0,
          .advance ⟨1⟩, .take 1, .conclude 0 (.success 1 .zero 200), .tryGet,
          .reportSuccess 0 .zero] = some w ∧
      Course .pending (w.pool.history 0) .available ∧
      w.pool.history 0 = [(.pending, .validating), (.validating, .available),
        (.available, .inUse), (.inUse, .available)] ∧
      Course .pending (w.pool.history 1) .expired ∧
      w.pool.history 1 = [(.pending, .validating), (.validating, .expired)] := by
  let actions : List Action :=
    [.start, .supplyPass 0 (.ok [.plain "a" 1 .http, .plain "b" 1 .http]), .take 0,
      .advance ⟨1⟩, .take 1, .conclude 0 (.success 1 .zero 200), .tryGet, .reportSuccess 0 .zero]
  have hrun : ((World.opening { Settings.standard with proxyTtl := ⟨1⟩ } ["s"] (.roundRobin 0) 0
      []).run? actions).map (fun w => decide (
        w.pool.state? 0 = some .available ∧ w.pool.state? 1 = some .expired ∧
        w.pool.history 0 = [(.pending, .validating), (.validating, .available),
          (.available, .inUse), (.inUse, .available)] ∧
        w.pool.history 1 = [(.pending, .validating), (.validating, .expired)])) = some true := by
    decide +kernel
  obtain ⟨w, hw, hfacts⟩ := Option.map_eq_some_iff.mp hrun
  obtain ⟨hfirst, hsecond, hhistory, hexpired⟩ := of_decide_eq_true hfacts
  obtain ⟨hcourse, _⟩ := lives_are_published ⟨actions, hw⟩
  exact ⟨w, hw, hcourse 0 _ hfirst, hhistory, hcourse 1 _ hsecond, hexpired⟩

end ProxyLease
