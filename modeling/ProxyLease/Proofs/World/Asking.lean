import Mathlib.Tactic.Common
import ProxyLease.Proofs.Pool.Intake
import ProxyLease.Proofs.World.Stretch

/-!
# Questions to sources

A pass waits for the answer of one source at a time, on behalf of a caller or of a loop.
Only a pass that goes on asks a question, and only the answer to its question makes it go
on, so what a pass has added is what the answers to it have brought in.
-/

namespace ProxyLease

def PassCall.asking? : PassCall → Option Asking
  | .asking state => some state
  | .finished _ => none

def PassCall.added : PassCall → Nat
  | .asking state => state.pass.added
  | .finished added => added

def ChoreLoop.asking? (l : ChoreLoop) : Option Asking :=
  match l.cancelled, l.stage with
  | false, .asking state => some state
  | _, _ => none

/-- Who waits for the answer of a source. -/
inductive Asker where
  | pass (pass : PassId)
  | loop (loop : LoopId)
  deriving DecidableEq

def Asker.supply (answer : Except SourceFailure (List Endpoint)) : Asker → Action
  | .pass i => .supplyPass i answer
  | .loop i => .supplyLoop i answer

namespace World

variable {w v u : World} {x : Asker} {state : Asking} {i j : PassId}
  {answer : Except SourceFailure (List Endpoint)}

/-- The question that somebody waits with. -/
def asking? (w : World) : Asker → Option Asking
  | .pass i => (w.passes[i]?).bind (·.asking?)
  | .loop i => (w.loops[i]?).bind (·.asking?)

def addedBy (w : World) (i : PassId) : Nat := ((w.passes[i]?).map (·.added)).getD 0

theorem asking_pass_iff :
    w.asking? (.pass i) = some state ↔ w.passes[i]? = some (.asking state) := by
  rw [asking?, Option.bind_eq_some_iff]
  constructor
  · rintro ⟨call, hi, hc⟩
    cases call with
    | asking state' =>
      cases hc
      exact hi
    | finished added => cases hc
  · exact fun hi => ⟨_, hi, rfl⟩

theorem asking_loop_iff {i : LoopId} : w.asking? (.loop i) = some state ↔
    ∃ chore next, w.loops[i]? = some ⟨chore, next, false, .asking state⟩ := by
  rw [asking?, Option.bind_eq_some_iff]
  constructor
  · rintro ⟨⟨chore, next, cancelled, stage⟩, hi, hc⟩
    unfold ChoreLoop.asking? at hc
    split at hc
    · next hcancelled hstage =>
      cases hc
      dsimp only at hcancelled hstage
      subst hcancelled hstage
      exact ⟨chore, next, hi⟩
    · cases hc
  · rintro ⟨chore, next, hi⟩
    exact ⟨_, hi, rfl⟩

/-- An answer can come exactly while somebody waits for one. -/
theorem enabled_supply (w : World) (x : Asker) (answer : Except SourceFailure (List Endpoint)) :
    w.Enabled (x.supply answer) = (w.asking? x).isSome := by
  cases x with
  | pass i =>
    simp only [Asker.supply, Enabled, asking?]
    cases hi : w.passes[i]? with
    | none => rfl
    | some call => cases call <;> rfl
  | loop i =>
    simp only [Asker.supply, Enabled, asking?]
    cases hi : w.loops[i]? with
    | none => rfl
    | some l =>
      obtain ⟨chore, next, cancelled, stage⟩ := l
      cases cancelled <;> cases stage <;> rfl

/-! ### Answers -/

theorem loops_setLoopStage (w : World) (i j : LoopId) (stage : LoopStage) :
    (w.setLoopStage i stage).loops[j]? =
      if i = j then (w.loops[j]?).map fun l => { l with stage } else w.loops[j]? :=
  Array.getElem?_modify

theorem supplyPass_eq (hi : w.passes[i]? = some (.asking state))
    (answer : Except SourceFailure (List Endpoint)) :
    ∃ call, w.supplyPass i answer = { w with
        pool := (answered w.pool state answer).2.2
        passes := w.passes.setIfInBounds i call } ∧
      call.asking? = (answered w.pool state answer).2.1 ∧
      call.added = (answered w.pool state answer).1.added := by
  simp only [supplyPass, hi]
  split
  · next asking hnext =>
    refine ⟨_, rfl, hnext.symm, ?_⟩
    rw [Pool.answered_eq] at hnext ⊢
    rw [(Pool.proceed_ask hnext).1]
    rfl
  · next hnext => exact ⟨_, rfl, hnext.symm, rfl⟩

theorem supplyPass_idle (answer : Except SourceFailure (List Endpoint))
    (hn : ∀ state, w.passes[i]? ≠ some (.asking state)) : w.supplyPass i answer = w := by
  unfold supplyPass
  split
  · next state hi => exact absurd hi (hn state)
  · rfl

theorem perform_supply (hx : w.asking? x = some state)
    (answer : Except SourceFailure (List Endpoint)) :
    (w.perform (x.supply answer)).pool = (answered w.pool state answer).2.2 ∧
      (w.perform (x.supply answer)).asking? x = (answered w.pool state answer).2.1 := by
  cases x with
  | pass i =>
    have hi := asking_pass_iff.mp hx
    obtain ⟨call, he, hc, _⟩ := supplyPass_eq hi answer
    have hlt : i < w.passes.size := (Array.getElem?_eq_some_iff.mp hi).1
    rw [Asker.supply, perform, he]
    refine ⟨rfl, ?_⟩
    rw [asking?, Array.getElem?_setIfInBounds_self_of_lt hlt]
    exact hc
  | loop i =>
    obtain ⟨chore, next, hi⟩ := asking_loop_iff.mp hx
    simp only [Asker.supply, perform, supplyLoop, hi]
    refine ⟨rfl, ?_⟩
    rw [asking?, loops_setLoopStage, if_pos rfl]
    simp only [hi, Option.map_some, Option.bind_some, ChoreLoop.asking?]
    split
    · next hstage =>
      split at hstage
      · next hnext =>
        cases hstage
        exact hnext.symm
      · cases hstage
    · next hstage =>
      split at hstage
      · exact absurd rfl (hstage _ rfl)
      · next hnext => exact hnext.symm

theorem exists_supply_of_concern {a : Action} (he : w.Enabled a = true)
    (hc : w.concern a = .acquisition) :
    ∃ x answer state, a = Asker.supply answer x ∧ w.asking? x = some state := by
  obtain ⟨x, answer, rfl⟩ : ∃ x answer, a = Asker.supply answer x := by
    cases a with
    | supplyPass i answer => exact ⟨.pass i, answer, rfl⟩
    | supplyLoop i answer => exact ⟨.loop i, answer, rfl⟩
    | take i | conclude i o =>
      simp only [concern] at hc
      split at hc <;> cases hc
    | _ => cases hc
  rw [enabled_supply] at he
  obtain ⟨state, hx⟩ := Option.isSome_iff_exists.mp he
  exact ⟨x, answer, state, rfl, hx⟩

/-! ### Other steps -/

/-- No pass begins or goes on, though some may be given up. -/
structure Mute (w v : World) : Prop where
  asking : ∀ x state, v.asking? x = some state → w.asking? x = some state
  added : ∀ i, v.addedBy i = w.addedBy i

/-- A question that nobody waited with before is asked by a pass that goes on, and nothing
is added to any pass. -/
structure Inquiring (w v : World) : Prop where
  asking : ∀ x state, v.asking? x = some state → w.asking? x = some state ∨
    ∃ p pass, (proceed p pass).1 = some state ∧ v.pool = (proceed p pass).2
  added : ∀ i, v.addedBy i = w.addedBy i

namespace Mute

theorem trans (hwv : Mute w v) (hvu : Mute v u) : Mute w u where
  asking x state hx := hwv.asking x state (hvu.asking x state hx)
  added i := (hvu.added i).trans (hwv.added i)

theorem of_loops (hpasses : v.passes = w.passes)
    (hloops : ∀ (i : LoopId) state, (v.loops[i]?).bind (·.asking?) = some state →
      (w.loops[i]?).bind (·.asking?) = some state) : Mute w v where
  asking x state hx := by
    cases x with
    | pass i => rwa [asking?, hpasses] at hx
    | loop i => exact hloops i state hx
  added i := by rw [addedBy, hpasses, addedBy]

theorem of_eq (hpasses : v.passes = w.passes) (hloops : v.loops = w.loops) : Mute w v :=
  of_loops hpasses fun i state hx => by rwa [hloops] at hx

theorem inquiring (hm : Mute w v) : Inquiring w v :=
  ⟨fun x state hx => .inl (hm.asking x state hx), hm.added⟩

theorem trans_inquiring (hwv : Mute w v) (hvu : Inquiring v u) : Inquiring w u where
  asking x state hx := (hvu.asking x state hx).imp_left (hwv.asking x state)
  added i := (hvu.added i).trans (hwv.added i)

end Mute

theorem Inquiring.of_eq (hpasses : v.passes = w.passes) (hloops : v.loops = w.loops) :
    Inquiring w v := (Mute.of_eq hpasses hloops).inquiring

theorem beginPass_inquiring (w : World) : Inquiring w w.beginPass.2 := by
  obtain ⟨call, hpasses, hcall, hadded⟩ : ∃ call : PassCall,
      w.beginPass.2.passes = w.passes.push call ∧ call.asking? = (proceed w.pool .start).1 ∧
        call.added = 0 := by
    unfold beginPass
    dsimp only
    split
    · next asking hnext =>
      refine ⟨_, rfl, hnext.symm, ?_⟩
      rw [(Pool.proceed_ask hnext).1]
      rfl
    · next hnext => exact ⟨_, rfl, hnext.symm, rfl⟩
  constructor
  · intro x state hx
    cases x with
    | pass i =>
      rw [asking?, hpasses, Array.getElem?_push] at hx
      split_ifs at hx with hi
      · exact .inr ⟨w.pool, .start, hcall.symm.trans hx, rfl⟩
      · exact .inl hx
    | loop i => exact .inl hx
  · intro i
    rw [addedBy, hpasses, Array.getElem?_push]
    split_ifs with hi
    · rw [addedBy, hi, Array.getElem?_eq_none (Nat.le_refl _)]
      exact hadded
    · rfl

theorem resize_mute (w : World) : Mute w w.resize := by
  unfold resize
  split
  · exact .of_eq rfl rfl
  · exact .of_eq rfl rfl

theorem start_inquiring (w : World) : Inquiring w w.start.2 := by
  unfold start
  split_ifs
  · exact .of_eq rfl rfl
  · exact .of_eq rfl rfl
  · extract_lets counted chores looping staffed told
    have hlooping : Mute w looping := by
      refine .of_loops rfl fun i state hx => ?_
      rw [Option.bind_eq_some_iff] at hx
      obtain ⟨l, hl, hask⟩ := hx
      have hl : (counted.loops ++
          (chores.map (newLoop counted.pool.settings counted.now)).toArray)[i]? = some l := hl
      rw [Array.getElem?_append] at hl
      split_ifs at hl with hi
      · rw [Option.bind_eq_some_iff]
        exact ⟨l, hl, hask⟩
      · rw [List.getElem?_toArray, List.getElem?_map] at hl
        obtain ⟨chore, _, rfl⟩ := Option.map_eq_some_iff.mp hl
        cases hask
    have htold : Mute staffed told := .of_eq rfl rfl
    exact ((hlooping.trans (resize_mute looping)).trans htold).trans_inquiring
      (beginPass_inquiring told)

theorem stop_mute (w : World) : Mute w w.stop.2 := by
  have hcancel : ∀ (list : List LoopId) (loops : Array ChoreLoop) (i : LoopId) (state : Asking),
      ((list.foldl (fun ls i => ls.modify i fun l => { l with cancelled := true }) loops)[i]?).bind
        (·.asking?) = some state → (loops[i]?).bind (·.asking?) = some state := by
    intro list
    induction list with
    | nil => exact fun _ _ _ hx => hx
    | cons j rest ih =>
      intro loops i state hx
      have hx := ih _ i state hx
      rw [Array.getElem?_modify] at hx
      split_ifs at hx
      · rw [Option.bind_eq_some_iff] at hx
        obtain ⟨l, hl, hask⟩ := hx
        obtain ⟨_, _, rfl⟩ := Option.map_eq_some_iff.mp hl
        cases hask
      · exact hx
  unfold stop
  split
  · exact .of_loops rfl fun i state => hcancel w.currentLoops w.loops i state
  · exact .of_eq rfl rfl

theorem setLoopStage_mute (w : World) (i : LoopId) {stage : LoopStage}
    (hstage : ∀ state, stage ≠ .asking state) : Mute w (w.setLoopStage i stage) := by
  refine .of_loops rfl fun j state hx => ?_
  rw [loops_setLoopStage] at hx
  split_ifs at hx
  · rw [Option.bind_eq_some_iff] at hx
    obtain ⟨l, hl, hask⟩ := hx
    obtain ⟨⟨_, _, cancelled, _⟩, _, rfl⟩ := Option.map_eq_some_iff.mp hl
    cases stage with
    | asking state => exact absurd rfl (hstage state)
    | sleeping | finished => cases cancelled <;> cases hask
  · exact hx

/-- A loop that waits asks the next question of its pass, or a new one. -/
theorem setLoopStage_inquiring {i : LoopId} {p : Pool} {pass : Pass}
    (hpool : w.pool = (proceed p pass).2) (hstate : (proceed p pass).1 = some state) :
    Inquiring w (w.setLoopStage i (.asking state)) := by
  refine ⟨fun x other hx => ?_, fun _ => rfl⟩
  cases x with
  | pass j => exact .inl hx
  | loop j =>
    rw [asking?, loops_setLoopStage] at hx
    split_ifs at hx
    · rw [Option.bind_eq_some_iff] at hx
      obtain ⟨l, hl, hask⟩ := hx
      obtain ⟨⟨_, _, cancelled, _⟩, _, rfl⟩ := Option.map_eq_some_iff.mp hl
      cases cancelled <;> cases hask
      exact .inr ⟨p, pass, hstate, hpool⟩
    · exact .inl hx

theorem tick_inquiring (w : World) (i : LoopId) : Inquiring w (w.tick i) := by
  unfold tick
  split
  · exact .of_eq rfl rfl
  · next l hl =>
    dsimp only
    have hticked (next : Instant) (p : Pool) : Mute w { w with
        pool := p
        loops := w.loops.modify i fun l => { l with nextTick := next } } := by
      refine .of_loops rfl fun j state hx => ?_
      rw [Array.getElem?_modify] at hx
      split_ifs at hx
      · cases hj : w.loops[j]? with
        | none =>
          rw [hj] at hx
          cases hx
        | some l =>
          rw [hj] at hx
          exact hx
      · exact hx
    split
    · exact (hticked _ _).inquiring
    · exact (hticked _ _).inquiring
    · split
      · next asking hnext =>
        exact (hticked _ _).trans_inquiring (setLoopStage_inquiring rfl hnext)
      · exact (hticked _ _).inquiring

theorem endCall_mute (w : World) (i : CallId) (cause : WaitEnd) : Mute w (w.endCall i cause) := by
  unfold endCall
  split <;> exact .of_eq rfl rfl

theorem supplyLoop_inquiring (w : World) (i : LoopId)
    (answer : Except SourceFailure (List Endpoint)) : Inquiring w (w.supplyLoop i answer) := by
  unfold supplyLoop
  split
  · next state hi =>
    dsimp only
    have hsupplied (p : Pool) : Mute w { w with pool := p } := .of_eq rfl rfl
    split
    · next asking hnext =>
      exact (hsupplied _).trans_inquiring (setLoopStage_inquiring rfl hnext)
    · exact ((hsupplied _).trans (setLoopStage_mute _ i (by simp))).inquiring
  · exact .of_eq rfl rfl

theorem perform_inquiring (w : World) {a : Action} (ha : ∀ i answer, a ≠ .supplyPass i answer) :
    Inquiring w (w.perform a) := by
  cases a with
  | start => exact start_inquiring w
  | stop => exact (stop_mute w).inquiring
  | setConcurrency n =>
    unfold perform setConcurrency
    dsimp only
    split_ifs
    · exact .of_eq rfl rfl
    · have hasked : Mute w (w.mapPool fun p => { p with concurrency := n }) := .of_eq rfl rfl
      exact (hasked.trans (resize_mute _)).inquiring
  | take i =>
    unfold perform take
    dsimp only
    split
    · exact .of_eq rfl rfl
    · split <;> exact .of_eq rfl rfl
  | conclude i o =>
    unfold perform conclude
    dsimp only
    split <;> exact .of_eq rfl rfl
  | tick i => exact tick_inquiring w i
  | quit i => exact (setLoopStage_mute w i (by simp)).inquiring
  | fetch => exact beginPass_inquiring w
  | supplyPass i answer => exact absurd rfl (ha i answer)
  | supplyLoop i answer => exact supplyLoop_inquiring w i answer
  | resume i | cancel i => exact (endCall_mute w i _).inquiring
  | expire i =>
    unfold perform
    dsimp only
    split
    · exact (endCall_mute w i _).inquiring
    · exact .of_eq rfl rfl
  | abandon i =>
    unfold perform abandon
    dsimp only
    split <;> exact .of_eq rfl rfl
  | _ => exact .of_eq rfl rfl

theorem passes_supplyPass (hi : w.passes[i]? = some (.asking state)) {call : PassCall}
    (hcall : (w.supplyPass i answer).passes = w.passes.setIfInBounds i call) :
    (w.supplyPass i answer).passes[j]? = if i = j then some call else w.passes[j]? := by
  have hlt : i < w.passes.size := (Array.getElem?_eq_some_iff.mp hi).1
  rw [hcall, Array.getElem?_setIfInBounds]
  split_ifs
  · rfl
  · rfl

/-- A question that nobody waited with before is asked by a pass that goes on. -/
theorem asked_of_perform (w : World) {a : Action}
    (hx : (w.perform a).asking? x = some state) : w.asking? x = some state ∨
      ∃ p pass, (proceed p pass).1 = some state ∧ (w.perform a).pool = (proceed p pass).2 := by
  by_cases ha : ∀ i answer, a ≠ .supplyPass i answer
  · exact (perform_inquiring w ha).asking x state hx
  · simp only [not_forall, not_not] at ha
    obtain ⟨i, answer, rfl⟩ := ha
    by_cases hi : ∃ asked, w.passes[i]? = some (.asking asked)
    · obtain ⟨asked, hi⟩ := hi
      obtain ⟨call, he, hcall, _⟩ := supplyPass_eq hi answer
      rw [perform] at hx ⊢
      have hpool : (w.supplyPass i answer).pool = (answered w.pool asked answer).2.2 := by rw [he]
      cases x with
      | pass j =>
        rw [asking?, passes_supplyPass hi (by rw [he])] at hx
        split_ifs at hx
        · exact .inr ⟨_, _, hcall.symm.trans hx, hpool⟩
        · exact .inl hx
      | loop j =>
        rw [he] at hx
        exact .inl hx
    · rw [perform, supplyPass_idle answer fun asked hasked => hi ⟨asked, hasked⟩] at hx
      exact .inl hx

end World
end ProxyLease
