import Mathlib.Data.List.Basic
import Mathlib.Tactic.Common
import ProxyLease.World.Step

/-!
# The staff of a world

Workers are hired and dismissed, and a stop sends them all away, but none of that
interrupts a probe. A worker that has not ended is wanted, or was dismissed, or is
waited for by a stop that has not returned.
-/

namespace ProxyLease.World

variable {w v u : World} {i j : WorkerId} {h : Handle} {stage : WorkerStage}

/-- Whether somebody counts on a worker: the current run, or a stop that waits for it. -/
def Employed (w : World) (i : WorkerId) : Prop :=
  i ∈ w.active ∨ i ∈ w.retired ∨ ∃ s ∈ w.stops, s.returned = false ∧ i ∈ s.workers

/-- Every worker that has not ended is employed. -/
def Staffed (w : World) : Prop := ∀ i, w.workerStage i ≠ .finished → w.Employed i

/-- No probe begins or ends, and the staff stays complete. -/
structure Undisturbed (w v : World) : Prop where
  busy : ∀ i h, v.workerStage i = .probing h ↔ w.workerStage i = .probing h
  staffed : w.Staffed → v.Staffed

namespace Undisturbed

theorem trans (hwv : Undisturbed w v) (hvu : Undisturbed v u) : Undisturbed w u where
  busy i h := (hvu.busy i h).trans (hwv.busy i h)
  staffed hw := hvu.staffed (hwv.staffed hw)

theorem of_eq (hworkers : v.workers = w.workers) (hactive : v.active = w.active)
    (hretired : v.retired = w.retired) (hstops : v.stops = w.stops) : Undisturbed w v := by
  have hstage (i : WorkerId) : v.workerStage i = w.workerStage i := by
    rw [workerStage, workerStage, hworkers]
  constructor
  · intro i h
    rw [hstage]
  · intro hw i hi
    rw [hstage] at hi
    rw [Employed, hactive, hretired, hstops]
    exact hw i hi

end Undisturbed

/-! ### Stages -/

theorem workerStage_set (w : World) (i j : WorkerId) (stage : WorkerStage) :
    (w.setWorkerStage i stage).workerStage j =
      if i = j ∧ i < w.workers.size then stage else w.workerStage j := by
  simp only [workerStage, setWorkerStage, Array.getElem?_modify]
  grind

theorem map_foldl_modify {α β : Type} {f : α → β} {change : α → α} (hf : ∀ x, f (change x) = f x)
    (list : List Nat) (xs : Array α) (k : Nat) :
    ((list.foldl (fun ys i => ys.modify i change) xs)[k]?).map f = (xs[k]?).map f := by
  induction list generalizing xs with
  | nil => rfl
  | cons i rest ih =>
    rw [List.foldl_cons, ih, Array.getElem?_modify]
    split
    · cases xs[k]? <;> simp [hf]
    · rfl

theorem workerStage_cancel (w : World) (list : List WorkerId) (j : WorkerId) :
    (w.cancelWorkers list).workerStage j = w.workerStage j := by
  have hstages : ((w.cancelWorkers list).workers[j]?).map (·.stage) =
      (w.workers[j]?).map (·.stage) := by
    apply map_foldl_modify
    intro v
    rfl
  rw [workerStage, hstages, workerStage]

theorem workerStage_hire (w : World) (n : Nat) (j : WorkerId) :
    (w.hire n).workerStage j =
      if w.workers.size ≤ j ∧ j < w.workers.size + n then .idle else w.workerStage j := by
  simp only [workerStage, hire, Array.getElem?_append, Array.getElem?_replicate]
  grind

theorem lt_size_of_stage (hi : w.workerStage i ≠ .finished) : i < w.workers.size := by
  by_contra hn
  rw [workerStage, Array.getElem?_eq_none (Nat.le_of_not_lt hn)] at hi
  exact hi rfl

theorem Staffed.set (hw : w.Staffed) (hi : w.workerStage i ≠ .finished) :
    (w.setWorkerStage i stage).Staffed := by
  intro j hj
  change w.Employed j
  by_cases hij : i = j
  · rw [← hij]
    exact hw i hi
  · rw [workerStage_set, if_neg fun hh => hij hh.1] at hj
    exact hw j hj

/-! ### Hiring and dismissing -/

theorem forget_undisturbed (w : World) :
    Undisturbed w { w with retired := w.retired.filter (!w.isWorkerDone ·) } := by
  refine ⟨fun _ _ => Iff.rfl, fun hw i hi => ?_⟩
  rcases hw i hi with ha | hr | hs
  · exact .inl ha
  · have hdone : w.isWorkerDone i = false := by
      rw [isWorkerDone, beq_eq_false_iff_ne]
      exact hi
    exact .inr (.inl (List.mem_filter.mpr ⟨hr, by rw [hdone]; rfl⟩))
  · exact .inr (.inr hs)

theorem hire_undisturbed (w : World) (n : Nat) : Undisturbed w (w.hire n) := by
  constructor
  · intro i h
    rw [workerStage_hire]
    split_ifs with hi
    · have hnew : w.workerStage i = .finished := by
        by_contra hn
        exact absurd (lt_size_of_stage hn) (Nat.not_lt.mpr hi.1)
      rw [hnew]
      exact ⟨nofun, nofun⟩
    · exact Iff.rfl
  · intro hw i hi
    rw [workerStage_hire] at hi
    split_ifs at hi with hnew
    · have hk : i - w.workers.size < n := Nat.sub_lt_left_of_lt_add hnew.1 hnew.2
      have hi : w.workers.size + (i - w.workers.size) = i := Nat.add_sub_cancel' hnew.1
      exact .inl (List.mem_append_right _ (List.mem_map.mpr ⟨_, List.mem_range.mpr hk, hi⟩))
    · rcases hw i hi with ha | hrest
      · exact .inl (List.mem_append_left _ ha)
      · exact .inr hrest

theorem dismiss_undisturbed (w : World) (n : Nat) : Undisturbed w (w.dismiss n) := by
  have hstage (i : WorkerId) : (w.dismiss n).workerStage i = w.workerStage i :=
    workerStage_cancel w _ i
  constructor
  · intro i h
    rw [hstage]
  · intro hw i hi
    rw [hstage] at hi
    rcases hw i hi with ha | hr | hs
    · rw [← List.take_append_drop n w.active] at ha
      rcases List.mem_append.mp ha with hkept | hgone
      · exact .inl hkept
      · exact .inr (.inl (List.mem_append_right _ (List.mem_reverse.mpr hgone)))
    · exact .inr (.inl (List.mem_append_left _ hr))
    · exact .inr (.inr hs)

theorem resize_undisturbed (w : World) : Undisturbed w w.resize := by
  unfold resize
  split
  · exact ((forget_undisturbed w).trans (hire_undisturbed _ _)).trans (dismiss_undisturbed _ _)
  · exact .of_eq rfl rfl rfl rfl

/-! ### Start and stop -/

theorem start_undisturbed (w : World) : Undisturbed w w.start.2 := by
  unfold start
  split_ifs
  · exact .of_eq rfl rfl rfl rfl
  · exact .of_eq rfl rfl rfl rfl
  · extract_lets counted chores looping staffed told
    have hlooping : Undisturbed w looping := .of_eq rfl rfl rfl rfl
    have htold : Undisturbed staffed told.beginPass.2 := .of_eq rfl rfl rfl rfl
    exact (hlooping.trans (resize_undisturbed looping)).trans htold

/-- A stop waits for all workers of the run that it ends. -/
theorem stop_undisturbed (w : World) : Undisturbed w w.stop.2 := by
  by_cases hr : w.pool.running = true
  · have hstage (i : WorkerId) : w.stop.2.workerStage i = w.workerStage i := by
      rw [stop, if_pos hr]
      exact workerStage_cancel w w.active i
    have hstops : w.stop.2.stops =
        w.stops.push ⟨w.active ++ w.retired, w.currentLoops, false⟩ := by
      rw [stop, if_pos hr]
    constructor
    · intro i h
      rw [hstage]
    · intro hw i hi
      rw [hstage] at hi
      rw [Employed, hstops]
      rcases hw i hi with ha | hr | ⟨s, hs, hopen, hmem⟩
      · exact .inr (.inr ⟨_, Array.mem_push_self, rfl, List.mem_append_left _ ha⟩)
      · exact .inr (.inr ⟨_, Array.mem_push_self, rfl, List.mem_append_right _ hr⟩)
      · exact .inr (.inr ⟨s, Array.mem_push_of_mem _ hs, hopen, hmem⟩)
  · rw [stop, if_neg hr]
    exact .of_eq rfl rfl rfl rfl

theorem finishStop_undisturbed {i : StopId} (he : w.Enabled (.finishStop i) = true) :
    Undisturbed w (w.finishStop i) := by
  refine ⟨fun _ _ => Iff.rfl, fun hw j hj => ?_⟩
  rcases hw j hj with ha | hr | ⟨s, hs, hopen, hmem⟩
  · exact .inl ha
  · exact .inr (.inl hr)
  · refine .inr (.inr ?_)
    obtain ⟨k, hk, hget⟩ := Array.mem_iff_getElem.mp hs
    -- The stop that the worker is waited for cannot be the one that returns.
    have hne : i ≠ k := by
      rintro rfl
      have hreturn : w.canReturn s = true := by
        simp only [Enabled, Array.getElem?_eq_getElem hk, hget] at he
        simpa [hopen] using he
      rw [canReturn, Bool.and_eq_true, List.all_eq_true] at hreturn
      exact hj (beq_iff_eq.mp (hreturn.1 j hmem))
    refine ⟨s, Array.mem_iff_getElem?.mpr ⟨k, ?_⟩, hopen, hmem⟩
    change (w.stops.modify i _)[k]? = some s
    rw [Array.getElem?_modify, if_neg hne, Array.getElem?_eq_getElem hk, hget]

/-! ### Steps -/

theorem leave_undisturbed {i : WorkerId} (he : w.Enabled (.leave i) = true) :
    Undisturbed w (w.setWorkerStage i .finished) := by
  have hidle : w.workerStage i = .idle := by
    rw [workerStage, beq_iff_eq.mp he]
    rfl
  constructor
  · intro j h
    rw [workerStage_set]
    split_ifs with hij
    · rw [← hij.1, hidle]
      exact ⟨nofun, nofun⟩
    · exact Iff.rfl
  · exact fun hw => hw.set (by rw [hidle]; nofun)

theorem setConcurrency_undisturbed (w : World) (n : Nat) :
    Undisturbed w ((w.setConcurrency n).toOption.getD w) := by
  unfold setConcurrency
  split_ifs
  · exact .of_eq rfl rfl rfl rfl
  · have hasked : Undisturbed w (w.mapPool fun p => { p with concurrency := n }) :=
      .of_eq rfl rfl rfl rfl
    exact hasked.trans (resize_undisturbed _)

theorem tick_undisturbed (w : World) (i : LoopId) : Undisturbed w (w.tick i) := by
  unfold tick
  split
  · exact .of_eq rfl rfl rfl rfl
  · dsimp only
    split
    · exact .of_eq rfl rfl rfl rfl
    · exact .of_eq rfl rfl rfl rfl
    · split
      · exact .of_eq rfl rfl rfl rfl
      · exact .of_eq rfl rfl rfl rfl

theorem perform_undisturbed {a : Action} (he : w.Enabled a = true) (ht : ∀ i, a ≠ .take i)
    (hc : ∀ i o, a ≠ .conclude i o) : Undisturbed w (w.perform a) := by
  cases a with
  | start => exact start_undisturbed w
  | stop => exact stop_undisturbed w
  | finishStop i => exact finishStop_undisturbed he
  | setConcurrency n => exact setConcurrency_undisturbed w n
  | take i => exact absurd rfl (ht i)
  | conclude i o => exact absurd rfl (hc i o)
  | leave i => exact leave_undisturbed he
  | tick i => exact tick_undisturbed w i
  | supplyPass i answer =>
    unfold perform supplyPass
    dsimp only
    split <;> exact .of_eq rfl rfl rfl rfl
  | supplyLoop i answer =>
    unfold perform supplyLoop
    dsimp only
    split <;> exact .of_eq rfl rfl rfl rfl
  | resume i | cancel i =>
    unfold perform endCall
    dsimp only
    split <;> exact .of_eq rfl rfl rfl rfl
  | expire i =>
    unfold perform endCall
    dsimp only
    split
    · split <;> exact .of_eq rfl rfl rfl rfl
    · exact .of_eq rfl rfl rfl rfl
  | abandon i =>
    unfold perform abandon
    dsimp only
    split <;> exact .of_eq rfl rfl rfl rfl
  | _ => exact .of_eq rfl rfl rfl rfl

end ProxyLease.World
