import ProxyLease.Proofs.World.Staff
import ProxyLease.Proofs.World.Standing

/-!
# Runs

A run begins with a start and ends with a stop. Tasks that were not told to end belong to
the current run, so between runs no loop ticks and no worker takes a proxy. All tasks that
began in a run are handed to the stop that ends it, and a task that has ended stays so.
-/

namespace ProxyLease

/-- Whether a step begins tasks, tells them to end, or waits for that. -/
def Action.isDirective : Action → Bool
  | .start | .stop | .finishStop _ | .setConcurrency _ => true
  | _ => false

namespace World

variable {w v u : World} {a : Action} {i : WorkerId} {j : LoopId}

theorem flags_foldl_modify {α : Type} {flag : α → Bool} {raise : α → α}
    (hraise : ∀ x, flag (raise x) = true) (list : List Nat) (xs : Array α) (i : Nat) :
    ((list.foldl (fun ys i => ys.modify i raise) xs)[i]?).map flag =
      (xs[i]?).map fun x => flag x || decide (i ∈ list) := by
  induction list generalizing xs with
  | nil => simp
  | cons k rest ih =>
    rw [List.foldl_cons, ih, Array.getElem?_modify]
    split_ifs with hk
    · subst hk
      cases xs[k]? <;> simp [hraise]
    · have hki : i ≠ k := fun h => hk h.symm
      simp [hki]

theorem unflagged_foldl_modify {α : Type} {flag : α → Bool} {raise : α → α}
    (hraise : ∀ x, flag (raise x) = true) {list : List Nat} {xs : Array α} {i : Nat} :
    ((list.foldl (fun ys i => ys.modify i raise) xs)[i]?).map flag = some false ↔
      (xs[i]?).map flag = some false ∧ i ∉ list := by
  rw [flags_foldl_modify hraise]
  cases xs[i]? <;> simp

theorem size_foldl_modify {α : Type} (raise : α → α) (list : List Nat) (xs : Array α) :
    (list.foldl (fun ys i => ys.modify i raise) xs).size = xs.size := by
  induction list generalizing xs with
  | nil => rfl
  | cons k rest ih => rw [List.foldl_cons, ih, Array.size_modify]

theorem lt_size_of_map {α β : Type} {f : α → β} {xs : Array α} {i : Nat} {y : β}
    (h : (xs[i]?).map f = some y) : i < xs.size := by
  obtain ⟨x, hx, -⟩ := Option.map_eq_some_iff.mp h
  exact (Array.getElem?_eq_some_iff.mp hx).1

/-! ### Turns -/

/-- Tasks take their turns: none begins, none is told to end, and what has ended stays so. -/
structure Turn (w v : World) : Prop where
  active : v.active = w.active
  retired : v.retired = w.retired
  currentLoops : v.currentLoops = w.currentLoops
  stops : v.stops = w.stops
  workersSize : v.workers.size = w.workers.size
  loopsSize : v.loops.size = w.loops.size
  workers : ∀ i : WorkerId, (v.workers[i]?).map (·.cancelled) = (w.workers[i]?).map (·.cancelled)
  loops : ∀ j : LoopId, (v.loops[j]?).map (·.cancelled) = (w.loops[j]?).map (·.cancelled)
  finished : ∀ i, w.workerStage i = .finished → v.workerStage i = .finished
  done : ∀ j, w.isLoopDone j = true → v.isLoopDone j = true

namespace Turn

theorem trans (hwv : Turn w v) (hvu : Turn v u) : Turn w u where
  active := hvu.active.trans hwv.active
  retired := hvu.retired.trans hwv.retired
  currentLoops := hvu.currentLoops.trans hwv.currentLoops
  stops := hvu.stops.trans hwv.stops
  workersSize := hvu.workersSize.trans hwv.workersSize
  loopsSize := hvu.loopsSize.trans hwv.loopsSize
  workers i := (hvu.workers i).trans (hwv.workers i)
  loops j := (hvu.loops j).trans (hwv.loops j)
  finished i hi := hvu.finished i (hwv.finished i hi)
  done j hj := hvu.done j (hwv.done j hj)

theorem of_eq (hworkers : v.workers = w.workers) (hactive : v.active = w.active)
    (hretired : v.retired = w.retired) (hloops : v.loops = w.loops)
    (hcurrent : v.currentLoops = w.currentLoops) (hstops : v.stops = w.stops) : Turn w v where
  active := hactive
  retired := hretired
  currentLoops := hcurrent
  stops := hstops
  workersSize := by rw [hworkers]
  loopsSize := by rw [hloops]
  workers i := by rw [hworkers]
  loops j := by rw [hloops]
  finished i hi := by rwa [workerStage, hworkers]
  done j hj := by rwa [isLoopDone, hloops]

theorem setWorkerStage {stage : WorkerStage} (hi : w.workerStage i ≠ .finished ∨ stage = .finished) :
    Turn w (w.setWorkerStage i stage) where
  active := rfl
  retired := rfl
  currentLoops := rfl
  stops := rfl
  workersSize := Array.size_modify
  loopsSize := rfl
  workers k := by
    simp only [World.setWorkerStage, Array.getElem?_modify]
    split_ifs
    · cases w.workers[k]? <;> rfl
    · rfl
  loops _ := rfl
  finished k hk := by
    rw [workerStage_set]
    split_ifs with hik
    · rcases hi with hi | hi
      · exact absurd (hik.1 ▸ hk) hi
      · exact hi
    · exact hk
  done _ hj := hj

theorem modifyLoop {f : ChoreLoop → ChoreLoop} (hf : ∀ l, (f l).cancelled = l.cancelled)
    (hstage : ∀ l, w.loops[j]? = some l → l.stage = .finished → (f l).stage = .finished) :
    Turn w { w with loops := w.loops.modify j f } where
  active := rfl
  retired := rfl
  currentLoops := rfl
  stops := rfl
  workersSize := rfl
  loopsSize := Array.size_modify
  workers _ := rfl
  loops k := by
    rw [Array.getElem?_modify]
    split_ifs
    · cases w.loops[k]? <;> simp [hf]
    · rfl
  finished _ hi := hi
  done k hk := by
    simp only [isLoopDone, Array.getElem?_modify] at hk ⊢
    split_ifs with hjk
    · subst hjk
      cases hl : w.loops[j]? with
      | none => rfl
      | some l =>
        rw [hl] at hk
        simpa using hstage l hl (by simpa using hk)
    · exact hk

theorem setLoopStage {stage : LoopStage}
    (hj : (∀ l, w.loops[j]? = some l → l.stage ≠ .finished) ∨ stage = .finished) :
    Turn w (w.setLoopStage j stage) := by
  refine modifyLoop (f := fun l => { l with stage }) (fun _ => rfl) ?_
  intro l hl hfinished
  rcases hj with hj | rfl
  · exact absurd hfinished (hj l hl)
  · rfl

end Turn

theorem take_turn (he : w.Enabled (.take i) = true) : Turn w (w.take i) := by
  have hidle : w.workerStage i ≠ .finished := by
    simp only [Enabled, Bool.and_eq_true, beq_iff_eq] at he
    simp [workerStage, he.1]
  unfold take
  split
  · exact .of_eq rfl rfl rfl rfl rfl rfl
  · dsimp only
    have hpool (p : Pool) : Turn w { w with pool := p } := .of_eq rfl rfl rfl rfl rfl rfl
    split
    · exact (hpool _).trans (.setWorkerStage (.inl hidle))
    · exact hpool _

theorem conclude_turn (w : World) (i : WorkerId) (o : Outcome) : Turn w (w.conclude i o) := by
  unfold conclude
  split
  · next cancelled h hi =>
    have hpool : Turn w (w.mapPool (·.endProbe h o)) := .of_eq rfl rfl rfl rfl rfl rfl
    refine hpool.trans (.setWorkerStage (.inl ?_))
    change w.workerStage i ≠ .finished
    simp [workerStage, hi]
  · exact .of_eq rfl rfl rfl rfl rfl rfl

theorem tick_turn (he : w.Enabled (.tick j) = true) : Turn w (w.tick j) := by
  unfold tick
  split
  · exact .of_eq rfl rfl rfl rfl rfl rfl
  · next l hl =>
    have hsleeping : l.stage = .sleeping := by
      simp only [Enabled, hl, Bool.and_eq_true, beq_iff_eq] at he
      exact he.1.2
    dsimp only
    have hticked (next : Instant) (p : Pool) : Turn w { w with
        pool := p
        loops := w.loops.modify j fun l => { l with nextTick := next } } := by
      have hmoved : Turn w { w with loops := w.loops.modify j fun l => { l with nextTick := next } } :=
        .modifyLoop (fun _ => rfl) fun _ _ hl => hl
      exact hmoved.trans (.of_eq rfl rfl rfl rfl rfl rfl)
    split
    · exact hticked _ _
    · exact hticked _ _
    · split
      · refine (hticked _ _).trans (.setLoopStage (.inl ?_))
        intro l' hl'
        rw [Array.getElem?_modify, if_pos rfl, hl] at hl'
        cases hl'
        simp [hsleeping]
      · exact hticked _ _

theorem supplyLoop_turn (w : World) (j : LoopId)
    (answer : Except SourceFailure (List Endpoint)) : Turn w (w.supplyLoop j answer) := by
  unfold supplyLoop
  split
  · next state hj =>
    dsimp only
    have hpool (p : Pool) : Turn w { w with pool := p } := .of_eq rfl rfl rfl rfl rfl rfl
    refine (hpool _).trans (.setLoopStage (.inl ?_))
    intro l hl
    rw [show w.loops[j]? = some l from hl] at hj
    cases hj
    simp
  · exact .of_eq rfl rfl rfl rfl rfl rfl

theorem endCall_turn (w : World) (call : CallId) (cause : WaitEnd) :
    Turn w (w.endCall call cause) := by
  unfold endCall
  split <;> exact .of_eq rfl rfl rfl rfl rfl rfl

/-- Most steps are turns of tasks, or none of their business. -/
theorem perform_turn (he : w.Enabled a = true) (ha : a.isDirective = false) :
    Turn w (w.perform a) := by
  cases a with
  | start | stop | finishStop | setConcurrency => cases ha
  | take i => exact take_turn he
  | conclude i o => exact conclude_turn w i o
  | leave i => exact .setWorkerStage (.inr rfl)
  | tick j => exact tick_turn he
  | quit j => exact .setLoopStage (.inr rfl)
  | supplyPass i answer =>
    unfold perform supplyPass
    dsimp only
    split <;> exact .of_eq rfl rfl rfl rfl rfl rfl
  | supplyLoop j answer => exact supplyLoop_turn w j answer
  | resume i | cancel i => exact endCall_turn w i _
  | expire i =>
    unfold perform
    dsimp only
    split
    · exact endCall_turn w i _
    · exact .of_eq rfl rfl rfl rfl rfl rfl
  | abandon i =>
    unfold perform abandon
    dsimp only
    split <;> exact .of_eq rfl rfl rfl rfl rfl rfl
  | _ => exact .of_eq rfl rfl rfl rfl rfl rfl

/-! ### What belongs to a run -/

/-- A task that was not told to end belongs to the current run, and between runs there is
no such task. -/
structure Tethered (w : World) : Prop where
  workers : ∀ i : WorkerId, (w.workers[i]?).map (·.cancelled) = some false → i ∈ w.active
  loops : ∀ j : LoopId, (w.loops[j]?).map (·.cancelled) = some false → j ∈ w.currentLoops
  ended : w.pool.running = false → w.active = [] ∧ w.retired = [] ∧ w.currentLoops = []

/-- All tasks since there were so many workers and loops belong to the current run; a worker
that was dismissed may have ended. -/
structure Manned (workers loops : Nat) (w : World) : Prop where
  workers : ∀ i, workers ≤ i → i < w.workers.size →
    i ∈ w.active ∨ i ∈ w.retired ∨ w.workerStage i = .finished
  loops : ∀ j, loops ≤ j → j < w.loops.size → j ∈ w.currentLoops

/-- Tasks are added at most, and what has ended stays so. -/
structure Lasting (w v : World) : Prop where
  workersSize : w.workers.size ≤ v.workers.size
  loopsSize : w.loops.size ≤ v.loops.size
  finished : ∀ i < w.workers.size, w.workerStage i = .finished → v.workerStage i = .finished
  done : ∀ j < w.loops.size, w.isLoopDone j = true → v.isLoopDone j = true

variable {workers loops n : Nat}

namespace Turn

theorem tethered (ht : Turn w v) (hrunning : v.pool.running = w.pool.running)
    (hw : w.Tethered) : v.Tethered where
  workers i hi := by
    rw [ht.active]
    exact hw.workers i ((ht.workers i).symm.trans hi)
  loops j hj := by
    rw [ht.currentLoops]
    exact hw.loops j ((ht.loops j).symm.trans hj)
  ended hv := by
    rw [ht.active, ht.retired, ht.currentLoops]
    exact hw.ended (hrunning.symm.trans hv)

theorem manned (ht : Turn w v) (hw : w.Manned workers loops) : v.Manned workers loops where
  workers i hi hlt := by
    rw [ht.active, ht.retired]
    rcases hw.workers i hi (ht.workersSize ▸ hlt) with ha | hr | hf
    · exact .inl ha
    · exact .inr (.inl hr)
    · exact .inr (.inr (ht.finished i hf))
  loops j hj hlt := by
    rw [ht.currentLoops]
    exact hw.loops j hj (ht.loopsSize ▸ hlt)

theorem lasting (ht : Turn w v) : Lasting w v where
  workersSize := Nat.le_of_eq ht.workersSize.symm
  loopsSize := Nat.le_of_eq ht.loopsSize.symm
  finished i _ := ht.finished i
  done j _ := ht.done j

end Turn

theorem Lasting.refl (w : World) : Lasting w w :=
  ⟨Nat.le_refl _, Nat.le_refl _, fun _ _ hi => hi, fun _ _ hj => hj⟩

theorem Lasting.trans (hwv : Lasting w v) (hvu : Lasting v u) : Lasting w u where
  workersSize := Nat.le_trans hwv.workersSize hvu.workersSize
  loopsSize := Nat.le_trans hwv.loopsSize hvu.loopsSize
  finished i hi hf := hvu.finished i (Nat.lt_of_lt_of_le hi hwv.workersSize) (hwv.finished i hi hf)
  done j hj hd := hvu.done j (Nat.lt_of_lt_of_le hj hwv.loopsSize) (hwv.done j hj hd)

/-! ### Hiring and dismissing -/

theorem uncancelled_cancelWorkers (w : World) (list : List WorkerId) (i : WorkerId) :
    ((w.cancelWorkers list).workers[i]?).map (·.cancelled) = some false ↔
      (w.workers[i]?).map (·.cancelled) = some false ∧ i ∉ list :=
  unflagged_foldl_modify fun _ => rfl

theorem size_cancelWorkers (w : World) (list : List WorkerId) :
    (w.cancelWorkers list).workers.size = w.workers.size := size_foldl_modify _ list w.workers

/-- Hiring and dismissing keep every worker in its place of the run. -/
structure Staffing (w v : World) : Prop where
  stops : v.stops = w.stops
  tethered : w.Tethered → v.Tethered
  manned : ∀ workers loops, w.Manned workers loops → v.Manned workers loops
  lasting : Lasting w v

theorem Staffing.trans (hwv : Staffing w v) (hvu : Staffing v u) : Staffing w u where
  stops := hvu.stops.trans hwv.stops
  tethered hw := hvu.tethered (hwv.tethered hw)
  manned workers loops hw := hvu.manned workers loops (hwv.manned workers loops hw)
  lasting := hwv.lasting.trans hvu.lasting

theorem forget_staffing (hruns : w.pool.running = true) :
    Staffing w { w with retired := w.retired.filter (!w.isWorkerDone ·) } where
  stops := rfl
  tethered hw := ⟨hw.workers, hw.loops, fun hn => by rw [hruns] at hn; cases hn⟩
  manned workers loops hw := by
    refine ⟨fun i hi hlt => ?_, hw.loops⟩
    rcases hw.workers i hi hlt with ha | hr | hf
    · exact .inl ha
    · by_cases hdone : w.workerStage i = .finished
      · exact .inr (.inr hdone)
      · refine .inr (.inl (List.mem_filter.mpr ⟨hr, ?_⟩))
        simpa [isWorkerDone] using hdone
    · exact .inr (.inr hf)
  lasting := ⟨Nat.le_refl _, Nat.le_refl _, fun _ _ hi => hi, fun _ _ hj => hj⟩

theorem mem_active_hire (hi : w.workers.size ≤ i) (hlt : i < w.workers.size + n) :
    i ∈ (w.hire n).active := by
  apply List.mem_append_right
  apply List.mem_map.mpr
  exact ⟨i - w.workers.size, List.mem_range.mpr (Nat.sub_lt_left_of_lt_add hi hlt),
    Nat.add_sub_cancel' hi⟩

theorem size_hire (w : World) (n : Nat) : (w.hire n).workers.size = w.workers.size + n := by
  simp [hire]

theorem hire_staffing (hruns : w.pool.running = true) (n : Nat) : Staffing w (w.hire n) where
  stops := rfl
  tethered hw := by
    refine ⟨fun i hi => ?_, hw.loops, fun hn => ?_⟩
    · by_cases hlt : i < w.workers.size
      · apply List.mem_append_left
        apply hw.workers
        rwa [hire, Array.getElem?_append_left hlt] at hi
      · have hsize := lt_size_of_map hi
        rw [size_hire] at hsize
        exact mem_active_hire (Nat.le_of_not_lt hlt) hsize
    · rw [show (w.hire n).pool = w.pool from rfl, hruns] at hn
      cases hn
  manned workers loops hw := by
    refine ⟨fun i hi hlt => ?_, hw.loops⟩
    rw [size_hire] at hlt
    by_cases hold : i < w.workers.size
    · rcases hw.workers i hi hold with ha | hr | hf
      · exact .inl (List.mem_append_left _ ha)
      · exact .inr (.inl hr)
      · right
        right
        rw [workerStage_hire, if_neg fun hh => Nat.not_lt.mpr hh.1 hold]
        exact hf
    · exact .inl (mem_active_hire (Nat.le_of_not_lt hold) hlt)
  lasting := by
    refine ⟨by rw [size_hire]; exact Nat.le_add_right _ _, Nat.le_refl _, fun i hi hf => ?_,
      fun _ _ hj => hj⟩
    rw [workerStage_hire, if_neg fun hh => Nat.not_lt.mpr hh.1 hi]
    exact hf

theorem dismiss_staffing (hruns : w.pool.running = true) (n : Nat) :
    Staffing w (w.dismiss n) where
  stops := rfl
  tethered hw := by
    refine ⟨fun i hi => ?_, hw.loops, fun hn => ?_⟩
    · obtain ⟨huncancelled, hwanted⟩ := (uncancelled_cancelWorkers w _ i).mp hi
      have hactive := hw.workers i huncancelled
      rw [← List.take_append_drop n w.active] at hactive
      apply (List.mem_append.mp hactive).resolve_right
      simpa using hwanted
    · rw [show (w.dismiss n).pool = w.pool from rfl, hruns] at hn
      cases hn
  manned workers loops hw := by
    refine ⟨fun i hi hlt => ?_, hw.loops⟩
    rw [show (w.dismiss n).workers.size = w.workers.size from size_cancelWorkers w _] at hlt
    rcases hw.workers i hi hlt with ha | hr | hf
    · rw [← List.take_append_drop n w.active] at ha
      rcases List.mem_append.mp ha with hkept | hgone
      · exact .inl hkept
      · exact .inr (.inl (List.mem_append_right _ (List.mem_reverse.mpr hgone)))
    · exact .inr (.inl (List.mem_append_left _ hr))
    · exact .inr (.inr ((workerStage_cancel w _ i).trans hf))
  lasting := by
    refine ⟨Nat.le_of_eq (size_cancelWorkers w _).symm, Nat.le_refl _, fun i _ hf => ?_,
      fun _ _ hj => hj⟩
    exact (workerStage_cancel w _ i).trans hf

theorem resize_staffing (w : World) : Staffing w w.resize := by
  unfold resize
  split
  next hruns =>
    refine ((forget_staffing hruns).trans (hire_staffing ?_ _)).trans (dismiss_staffing ?_ _)
    · exact hruns
    · exact hruns
  next => exact ⟨rfl, id, fun _ _ => id, .refl w⟩

/-! ### Start and stop -/

/-- A run begins with three new loops. -/
structure Looping (w u : World) : Prop where
  sources : w.pool.sources ≠ []
  closed : w.pool.running = false
  regime : u.pool.regime = (true, w.pool.concurrency)
  workers : u.workers = w.workers
  active : u.active = w.active
  retired : u.retired = w.retired
  stops : u.stops = w.stops
  loops : ∃ news : List ChoreLoop, news.length = 3 ∧ u.loops = w.loops ++ news.toArray
  currentLoops : u.currentLoops = (List.range 3).map (w.loops.size + ·)

/-- A start that begins a run puts its loops into it, and then hires the workers. -/
theorem start_cases (w : World) :
    w.start.2 = w ∧ (w.pool.sources = [] ∨ w.pool.running = true) ∨
    ∃ u pass, w.start.1 = .fetching pass ∧ Looping w u ∧ Turn u.resize w.start.2 ∧
      w.start.2.workers = u.resize.workers ∧
      w.start.2.pool.regime = u.resize.pool.regime := by
  unfold start
  split_ifs with hsources hruns
  · exact .inl ⟨rfl, .inl hsources⟩
  · exact .inl ⟨rfl, .inr hruns⟩
  · extract_lets counted chores looping staffed told
    have hlooping : Looping w looping :=
      ⟨hsources, Bool.eq_false_iff.mpr hruns, rfl, rfl, rfl, rfl, rfl, ⟨_, rfl, rfl⟩, rfl⟩
    have hbegun := Pool.proceed_changes (c := .acquisition) told.pool .start
    exact .inr ⟨looping, _, rfl, hlooping, .of_eq rfl rfl rfl rfl rfl rfl, rfl,
      hbegun.regime (by decide)⟩

/-- A run ends: its tasks are told to, and a stop waits for them. -/
structure Closing (w v : World) : Prop where
  ran : w.pool.running = true
  regime : v.pool.regime = (false, w.pool.concurrency)
  workers : v.workers = (w.cancelWorkers w.active).workers
  loops : v.loops = w.currentLoops.foldl
    (fun ls j => ls.modify j fun l => { l with cancelled := true }) w.loops
  active : v.active = []
  retired : v.retired = []
  currentLoops : v.currentLoops = []
  stops : v.stops = w.stops.push ⟨w.active ++ w.retired, w.currentLoops, false⟩

theorem stop_cases (w : World) :
    w.stop.2 = w ∧ w.pool.running = false ∨ Closing w w.stop.2 := by
  unfold stop
  split
  next hruns =>
    exact .inr ⟨hruns, (Pool.hangUpAll_frame _).1, rfl, rfl, rfl, rfl, rfl, rfl⟩
  next hruns => exact .inl ⟨rfl, Bool.eq_false_iff.mpr hruns⟩

theorem mem_newLoops {j size : Nat} (hge : size ≤ j) (hlt : j < size + 3) :
    j ∈ (List.range 3).map (size + ·) := by
  apply List.mem_map.mpr
  exact ⟨j - size, List.mem_range.mpr (by omega), by omega⟩

theorem start_tethered (hw : w.Tethered) : w.start.2.Tethered := by
  rcases start_cases w with ⟨hsame, -⟩ | ⟨u, pass, -, hu, hturn, -, hregime⟩
  · rw [hsame]
    exact hw
  · apply hturn.tethered (Pool.running_of_regime hregime)
    apply (resize_staffing u).tethered
    refine ⟨fun i hi => ?_, fun j hj => ?_, fun hn => ?_⟩
    · rw [hu.active]
      apply hw.workers
      rwa [← hu.workers]
    · obtain ⟨news, hnews, hloops⟩ := hu.loops
      rw [hu.currentLoops]
      have hsize : j < w.loops.size + 3 := by simpa [hloops, hnews] using lt_size_of_map hj
      by_cases hlt : j < w.loops.size
      · rw [hloops, Array.getElem?_append_left hlt] at hj
        have hold := hw.loops j hj
        rw [(hw.ended hu.closed).2.2] at hold
        cases hold
      · exact mem_newLoops (Nat.le_of_not_lt hlt) hsize
    · rw [show u.pool.running = true from congrArg Prod.fst hu.regime] at hn
      cases hn

theorem stop_tethered (hw : w.Tethered) : w.stop.2.Tethered := by
  rcases stop_cases w with ⟨hsame, -⟩ | hc
  · rw [hsame]
    exact hw
  · refine ⟨fun i hi => ?_, fun j hj => ?_, fun _ => ⟨hc.active, hc.retired, hc.currentLoops⟩⟩
    · rw [hc.workers] at hi
      obtain ⟨hfree, hunwanted⟩ := (uncancelled_cancelWorkers w _ i).mp hi
      exact absurd (hw.workers i hfree) hunwanted
    · rw [hc.loops] at hj
      obtain ⟨hfree, hforeign⟩ := (unflagged_foldl_modify fun _ => rfl).mp hj
      exact absurd (hw.loops j hfree) hforeign

theorem start_lasting (w : World) : Lasting w w.start.2 := by
  rcases start_cases w with ⟨hsame, -⟩ | ⟨u, pass, -, hu, hturn, -⟩
  · rw [hsame]
    exact .refl w
  · obtain ⟨news, -, hloops⟩ := hu.loops
    have hbegun : Lasting w u := by
      refine ⟨by rw [hu.workers], by simp [hloops], fun i _ hi => ?_, fun j hlt hj => ?_⟩
      · rwa [workerStage, hu.workers]
      · rwa [isLoopDone, hloops, Array.getElem?_append_left hlt]
    exact (hbegun.trans (resize_staffing u).lasting).trans hturn.lasting

theorem stop_lasting (w : World) : Lasting w w.stop.2 := by
  rcases stop_cases w with ⟨hsame, -⟩ | hc
  · rw [hsame]
    exact .refl w
  · refine ⟨?_, ?_, fun i _ hi => ?_, fun j _ hj => ?_⟩
    · rw [hc.workers, size_cancelWorkers]
    · rw [hc.loops, size_foldl_modify]
    · rw [workerStage, hc.workers]
      exact (workerStage_cancel w _ i).trans hi
    · rw [isLoopDone, hc.loops, map_foldl_modify]
      · exact hj
      · intro l
        rfl

theorem start_manned (w : World) : w.start.2.Manned w.workers.size w.loops.size := by
  rcases start_cases w with ⟨hsame, -⟩ | ⟨u, pass, -, hu, hturn, -⟩
  · rw [hsame]
    exact ⟨fun i hi hlt => absurd hlt (Nat.not_lt.mpr hi),
      fun j hj hlt => absurd hlt (Nat.not_lt.mpr hj)⟩
  · apply hturn.manned
    apply (resize_staffing u).manned
    refine ⟨fun i hi hlt => ?_, fun j hj hlt => ?_⟩
    · rw [hu.workers] at hlt
      exact absurd hlt (Nat.not_lt.mpr hi)
    · obtain ⟨news, hnews, hloops⟩ := hu.loops
      rw [hu.currentLoops]
      exact mem_newLoops hj (by simpa [hloops, hnews] using hlt)

/-! ### Steps and runs -/

theorem perform_tethered (he : w.Enabled a = true) (hw : w.Tethered) : (w.perform a).Tethered := by
  by_cases ha : a.isDirective = false
  · apply (perform_turn he ha).tethered _ hw
    apply running_perform
    · rintro rfl
      cases ha
    · rintro rfl
      cases ha
  · cases a with
    | start => exact start_tethered hw
    | stop => exact stop_tethered hw
    | finishStop i => exact ⟨hw.workers, hw.loops, hw.ended⟩
    | setConcurrency n =>
      rw [perform, setConcurrency]
      split_ifs
      · exact hw
      · exact (resize_staffing _).tethered ⟨hw.workers, hw.loops, hw.ended⟩
    | _ => exact absurd rfl ha

theorem perform_lasting (he : w.Enabled a = true) : Lasting w (w.perform a) := by
  by_cases ha : a.isDirective = false
  · exact (perform_turn he ha).lasting
  · cases a with
    | start => exact start_lasting w
    | stop => exact stop_lasting w
    | finishStop i => exact ⟨Nat.le_refl _, Nat.le_refl _, fun _ _ hi => hi, fun _ _ hj => hj⟩
    | setConcurrency n =>
      rw [perform, setConcurrency]
      split_ifs
      · exact .refl w
      · obtain ⟨hworkers, hloops, hfinished, hdone⟩ :=
          (resize_staffing (w.mapPool fun p => { p with concurrency := n })).lasting
        exact ⟨hworkers, hloops, hfinished, hdone⟩
    | _ => exact absurd rfl ha

theorem perform_running (hstop : a ≠ .stop) (hruns : w.pool.running = true) :
    (w.perform a).pool.running = true := by
  by_cases hstart : a = .start
  · subst hstart
    rcases start_cases w with ⟨hsame, -⟩ | ⟨u, pass, -, hu, -⟩
    · rw [perform, hsame]
      exact hruns
    · exact absurd hu.closed (by simp [hruns])
  · exact (running_perform w hstart hstop).trans hruns

/-- Until the pool is stopped, no task leaves the run before it has ended. -/
theorem perform_manned (he : w.Enabled a = true) (hstop : a ≠ .stop)
    (hruns : w.pool.running = true) (hw : w.Manned workers loops) :
    (w.perform a).Manned workers loops := by
  by_cases ha : a.isDirective = false
  · exact (perform_turn he ha).manned hw
  · cases a with
    | start =>
      rcases start_cases w with ⟨hsame, -⟩ | ⟨u, pass, -, hu, -⟩
      · rw [perform, hsame]
        exact hw
      · exact absurd hu.closed (by simp [hruns])
    | stop => exact absurd rfl hstop
    | finishStop i => exact ⟨hw.workers, hw.loops⟩
    | setConcurrency n =>
      rw [perform, setConcurrency]
      split_ifs
      · exact hw
      · exact (resize_staffing _).manned workers loops ⟨hw.workers, hw.loops⟩
    | _ => exact absurd rfl ha

theorem perform_stops (he : w.Enabled a = true) {k : StopId} {s : StopCall}
    (hs : w.stops[k]? = some s) :
    (w.perform a).stops[k]? = some s ∨
      w.canReturn s = true ∧ (w.perform a).stops[k]? = some { s with returned := true } := by
  have hsize : k < w.stops.size := (Array.getElem?_eq_some_iff.mp hs).1
  by_cases ha : a.isDirective = false
  · rw [(perform_turn he ha).stops]
    exact .inl hs
  · cases a with
    | start =>
      left
      rcases start_cases w with ⟨hsame, -⟩ | ⟨u, pass, -, hu, hturn, -⟩
      · rw [perform, hsame]
        exact hs
      · rw [perform, hturn.stops, (resize_staffing u).stops, hu.stops]
        exact hs
    | stop =>
      left
      rcases stop_cases w with ⟨hsame, -⟩ | hc
      · rw [perform, hsame]
        exact hs
      · rw [perform, hc.stops, Array.getElem?_push_lt hsize, ← Array.getElem?_eq_getElem hsize]
        exact hs
    | finishStop i =>
      have hmodified : (w.perform (.finishStop i)).stops[k]? =
          if i = k then some { s with returned := true } else some s := by
        change (w.stops.modify i fun s => { s with returned := true })[k]? = _
        rw [Array.getElem?_modify, hs]
        rfl
      by_cases hik : i = k
      · subst hik
        have hends : (!s.returned && w.canReturn s) = true := by simpa [Enabled, hs] using he
        exact .inr ⟨(Bool.and_eq_true_iff.mp hends).2, hmodified.trans (if_pos rfl)⟩
      · exact .inl (hmodified.trans (if_neg hik))
    | setConcurrency n =>
      left
      rw [perform, setConcurrency]
      split_ifs
      · exact hs
      · exact (congrArg (·[k]?) (resize_staffing _).stops).trans hs
    | _ => exact absurd rfl ha

end World
end ProxyLease
