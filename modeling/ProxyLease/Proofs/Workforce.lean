import ProxyLease.Proofs.Stop

/-!
# The workforce

How many workers a pool wants, whether it runs, which workers are active, which were
dismissed and which were told to end are kept apart and change at different times. They
always agree: a pool that runs has as many workers that were not told to end as was last
asked for, a dismissal tells the latest of them to end, and no worker is forgotten before it
has ended.
-/

namespace ProxyLease

/-- The number of workers that is wanted after a step, if it was some number before. -/
def Action.accepted (n : Nat) : Action → Nat
  | .setConcurrency k => if k = 0 then n else k
  | _ => n

/-- The last number of workers that was asked for and not refused. -/
def lastAccepted (settings : Settings) (actions : List Action) : Nat :=
  actions.foldl Action.accepted (Nat.max settings.validationConcurrency 1)

theorem filter_not_mem_drop {l : List Nat} (hl : l.Nodup) (n : Nat) :
    (l.filter fun x => decide (x ∉ l.drop n)) = l.take n := by
  have hdisjoint : ∀ x ∈ l.take n, x ∉ l.drop n := by
    intro x htake hdrop
    exact List.disjoint_take_drop hl (Nat.le_refl n) htake hdrop
  calc l.filter (fun x => decide (x ∉ l.drop n))
      = (l.take n).filter (fun x => decide (x ∉ l.drop n)) ++
          (l.drop n).filter (fun x => decide (x ∉ l.drop n)) := by
        rw [← List.filter_append, List.take_append_drop]
    _ = l.take n ++ [] := by
        congr 1
        · rw [List.filter_eq_self]
          intro x hx
          exact decide_eq_true (hdisjoint x hx)
        · rw [List.filter_eq_nil_iff]
          intro x hx
          simpa using hx
    _ = l.take n := List.append_nil _

namespace World

variable {w v u : World} {a : Action} {i : WorkerId} {n : Nat}

/-! ### Workers that were not told to end -/

/-- The workers that were not told to end, in the order of their creation. -/
def wanted (w : World) : List WorkerId :=
  (List.range w.workers.size).filter fun i => (w.workers[i]?).map (·.cancelled) == some false

theorem mem_wanted : i ∈ w.wanted ↔ (w.workers[i]?).map (·.cancelled) = some false := by
  rw [wanted, List.mem_filter, beq_iff_eq, List.mem_range]
  exact ⟨fun hi => hi.2, fun hi => ⟨lt_size_of_map hi, hi⟩⟩

theorem nodup_wanted (w : World) : w.wanted.Nodup := List.nodup_range.filter _

theorem wanted_congr (hsize : v.workers.size = w.workers.size)
    (hflags : ∀ i : WorkerId, (v.workers[i]?).map (·.cancelled) = (w.workers[i]?).map (·.cancelled)) :
    v.wanted = w.wanted := by
  rw [wanted, wanted, hsize]
  congr 1
  funext i
  rw [hflags]

theorem wanted_of_workers (hworkers : v.workers = w.workers) : v.wanted = w.wanted := by
  rw [wanted, wanted, hworkers]

theorem wanted_hire (w : World) (n : Nat) :
    (w.hire n).wanted = w.wanted ++ (List.range n).map (w.workers.size + ·) := by
  rw [wanted, size_hire, List.range_add, List.filter_append, wanted]
  congr 1
  · apply List.filter_congr
    intro i hi
    rw [hire, Array.getElem?_append_left (List.mem_range.mp hi)]
  · rw [List.filter_eq_self]
    intro i hi
    obtain ⟨k, hk, rfl⟩ := List.mem_map.mp hi
    have hnew : (w.hire n).workers[w.workers.size + k]? = some ⟨false, .idle⟩ := by
      rw [hire, Array.getElem?_append_right (Nat.le_add_right _ _), Nat.add_sub_cancel_left,
        Array.getElem?_replicate, if_pos (List.mem_range.mp hk)]
    rw [hnew]
    rfl

theorem flags_cancelWorkers (w : World) (list : List WorkerId) (i : WorkerId) :
    ((w.cancelWorkers list).workers[i]?).map (·.cancelled) =
      (w.workers[i]?).map fun v => v.cancelled || decide (i ∈ list) :=
  flags_foldl_modify (fun _ => rfl) list w.workers i

theorem wanted_cancelWorkers (w : World) (list : List WorkerId) :
    (w.cancelWorkers list).wanted = w.wanted.filter fun i => decide (i ∉ list) := by
  rw [wanted, size_cancelWorkers, wanted, List.filter_filter]
  congr 1
  funext i
  rw [Bool.eq_iff_iff, beq_iff_eq, uncancelled_cancelWorkers]
  simp [and_comm]

/-! ### The roster -/

/-- The active workers are those that were not told to end, and none of them has ended; the
dismissed ones were told to. -/
structure Rostered (w : World) : Prop where
  active : w.active = w.wanted
  alive : ∀ i ∈ w.wanted, w.workerStage i ≠ .finished
  retired : ∀ i ∈ w.retired, (w.workers[i]?).map (·.cancelled) = some true

namespace Rostered

theorem forget (hw : w.Rostered) :
    ({ w with retired := w.retired.filter (!w.isWorkerDone ·) } : World).Rostered where
  active := hw.active
  alive := hw.alive
  retired i hi := hw.retired i (List.mem_of_mem_filter hi)

theorem hire (hw : w.Rostered) (n : Nat) : (w.hire n).Rostered where
  active := by
    rw [wanted_hire, ← hw.active]
    rfl
  alive i hi := by
    rw [workerStage_hire]
    split_ifs with hnew
    · simp
    · rw [wanted_hire, List.mem_append] at hi
      apply hw.alive
      apply hi.resolve_right
      intro hmem
      obtain ⟨k, hk, rfl⟩ := List.mem_map.mp hmem
      rw [List.mem_range] at hk
      exact hnew ⟨Nat.le_add_right _ _, Nat.add_lt_add_left hk _⟩
  retired i hi := by
    have hold := hw.retired i hi
    rwa [World.hire, Array.getElem?_append_left (lt_size_of_map hold)]

theorem wanted_dismiss (hw : w.Rostered) (n : Nat) : (w.dismiss n).wanted = w.wanted.take n := by
  have hcancelled : (w.dismiss n).wanted = (w.cancelWorkers (w.active.drop n).reverse).wanted := rfl
  rw [hcancelled, wanted_cancelWorkers, hw.active]
  simp only [List.mem_reverse]
  exact filter_not_mem_drop w.nodup_wanted n

theorem dismiss (hw : w.Rostered) (n : Nat) : (w.dismiss n).Rostered where
  active := by
    rw [hw.wanted_dismiss, ← hw.active]
    rfl
  alive i hi := by
    rw [hw.wanted_dismiss] at hi
    have hstage : (w.dismiss n).workerStage i = w.workerStage i := workerStage_cancel w _ i
    rw [hstage]
    exact hw.alive i (List.mem_of_mem_take hi)
  retired i hi := by
    have hflag : ((w.dismiss n).workers[i]?).map (·.cancelled) =
        (w.workers[i]?).map fun v => v.cancelled || decide (i ∈ (w.active.drop n).reverse) :=
      flags_cancelWorkers w _ i
    rw [hflag]
    rcases List.mem_append.mp hi with hold | hgone
    · obtain ⟨v, hv, hcancelled⟩ := Option.map_eq_some_iff.mp (hw.retired i hold)
      rw [hv]
      simp [hcancelled]
    · have hactive : i ∈ w.wanted := by
        rw [← hw.active]
        exact List.mem_of_mem_drop (List.mem_reverse.mp hgone)
      obtain ⟨v, hv, -⟩ := Option.map_eq_some_iff.mp (mem_wanted.mp hactive)
      rw [hv]
      simp [List.mem_reverse.mp hgone]

/-- Bringing the workers to the wanted number keeps the earliest and adds new ones after them,
as many as it takes. -/
theorem resize (hw : w.Rostered) (hruns : w.pool.running = true) :
    w.resize.Rostered ∧
    w.resize.wanted = w.wanted.take w.pool.concurrency ++
      (List.range (w.pool.concurrency - w.wanted.length)).map (w.workers.size + ·) ∧
    w.resize.workers.size = w.workers.size + (w.pool.concurrency - w.wanted.length) := by
  have hresize : w.resize = (({ w with retired := w.retired.filter (!w.isWorkerDone ·) } : World).hire
      (w.pool.concurrency - w.active.length)).dismiss w.pool.concurrency := by
    rw [World.resize, if_pos hruns]
  have hhired := hw.forget.hire (w.pool.concurrency - w.active.length)
  rw [hresize, ← hw.active]
  refine ⟨hhired.dismiss _, ?_, ?_⟩
  · rw [hhired.wanted_dismiss, wanted_hire, List.take_append]
    congr 1
    · exact congrArg (List.take _) hw.active.symm
    · apply List.take_of_length_le
      have hlength : ({ w with retired := w.retired.filter (!w.isWorkerDone ·) } : World).wanted =
        w.active := hw.active.symm
      rw [hlength, List.length_map, List.length_range]
  · exact (size_cancelWorkers _ _).trans (size_hire _ _)

theorem length_resize (hw : w.Rostered) (hruns : w.pool.running = true) :
    w.resize.wanted.length = w.pool.concurrency := by
  rw [(hw.resize hruns).2.1, List.length_append, List.length_take, List.length_map,
    List.length_range]
  omega

theorem turn (hw : w.Rostered) (ht : Turn w v)
    (halive : ∀ i, v.workerStage i = .finished → w.workerStage i = .finished ∨ i ∉ w.wanted) :
    v.Rostered where
  active := by
    rw [ht.active, hw.active, wanted_congr ht.workersSize ht.workers]
  alive i hi hfinished := by
    rw [wanted_congr ht.workersSize ht.workers] at hi
    rcases halive i hfinished with hended | hunwanted
    · exact hw.alive i hi hended
    · exact hunwanted hi
  retired i hi := by
    rw [ht.retired] at hi
    exact (ht.workers i).trans (hw.retired i hi)

end Rostered

theorem finished_set {j : WorkerId} {stage : WorkerStage}
    (hi : (w.setWorkerStage j stage).workerStage i = .finished) :
    j = i ∧ stage = .finished ∨ w.workerStage i = .finished := by
  rw [workerStage_set] at hi
  split_ifs at hi with hij
  · exact .inl ⟨hij.1, hi⟩
  · exact .inr hi

theorem unwanted_of_ended (he : w.Enabled a = true) (ha : a.isDirective = false)
    (hi : (w.perform a).workerStage i = .finished) :
    w.workerStage i = .finished ∨ i ∉ w.wanted := by
  have hsame (v : World) (hworkers : v.workers = w.workers) (hi : v.workerStage i = .finished) :
      w.workerStage i = .finished := by rwa [workerStage, ← hworkers]
  cases a with
  | start | stop | finishStop | setConcurrency => cases ha
  | take j =>
    left
    rw [perform, take] at hi
    split at hi
    · exact hi
    · dsimp only at hi
      split at hi
      · rcases finished_set hi with ⟨-, hprobing⟩ | hi
        · cases hprobing
        · exact hsame _ rfl hi
      · exact hsame _ rfl hi
  | conclude j o =>
    rw [perform, conclude] at hi
    split at hi
    · next cancelled h hj =>
      rcases finished_set hi with ⟨rfl, hstage⟩ | hi
      · right
        rw [mem_wanted, hj]
        cases cancelled
        · cases hstage
        · simp
      · exact .inl (hsame _ rfl hi)
    · exact .inl hi
  | leave j =>
    rcases finished_set hi with ⟨rfl, -⟩ | hi
    · right
      rw [mem_wanted, show w.workers[j]? = some ⟨true, .idle⟩ from beq_iff_eq.mp he]
      simp
    · exact .inl hi
  | tick j =>
    left
    rw [perform, tick] at hi
    split at hi
    · exact hi
    · dsimp only at hi
      split at hi
      · exact hsame _ rfl hi
      · exact hsame _ rfl hi
      · split at hi <;> exact hsame _ rfl hi
  | supplyPass j answer =>
    left
    rw [perform, supplyPass] at hi
    split at hi <;> exact hsame _ rfl hi
  | supplyLoop j answer =>
    left
    rw [perform, supplyLoop] at hi
    split at hi <;> exact hsame _ rfl hi
  | resume j | cancel j =>
    left
    rw [perform, endCall] at hi
    split at hi <;> exact hsame _ rfl hi
  | expire j =>
    left
    rw [perform] at hi
    split at hi
    · rw [endCall] at hi
      split at hi <;> exact hsame _ rfl hi
    · exact hi
  | abandon j =>
    left
    rw [perform, abandon] at hi
    split at hi <;> exact hsame _ rfl hi
  | _ => exact .inl (hsame _ rfl hi)

/-! ### Start, stop and resizing -/

theorem Rostered.mapPool (hw : w.Rostered) (f : Pool → Pool) : (w.mapPool f).Rostered :=
  ⟨hw.active, hw.alive, hw.retired⟩

theorem start_workers (hw : w.Rostered) (hclosed : w.pool.running = false)
    (hidle : w.wanted = []) (hsources : w.pool.sources ≠ []) :
    ∃ pass, w.start.1 = .fetching pass ∧ w.start.2.Rostered ∧
      w.start.2.pool.regime = (true, w.pool.concurrency) ∧
      w.start.2.wanted = (List.range w.pool.concurrency).map (w.workers.size + ·) ∧
      w.start.2.workers.size = w.workers.size + w.pool.concurrency := by
  rcases start_cases w with ⟨-, hnone | hruns⟩ | ⟨u, pass, hpass, hu, hturn, hworkers, hregime⟩
  · exact absurd hnone hsources
  · rw [hclosed] at hruns
    cases hruns
  · have huw : u.wanted = [] := (wanted_of_workers hu.workers).trans hidle
    have hrostered : u.Rostered := by
      constructor
      · rw [hu.active, hw.active, huw, hidle]
      · rw [huw]
        simp
      · rw [hu.retired, hu.workers]
        exact hw.retired
    have hconcurrency : u.pool.concurrency = w.pool.concurrency := congrArg Prod.snd hu.regime
    obtain ⟨hresized, hwanted, hsize⟩ := hrostered.resize (congrArg Prod.fst hu.regime)
    have hstage (i : WorkerId) : w.start.2.workerStage i = u.resize.workerStage i := by
      rw [workerStage, hworkers, workerStage]
    refine ⟨pass, hpass, ?_, ?_, ?_, ?_⟩
    · apply hresized.turn hturn
      intro i hi
      rw [hstage] at hi
      exact .inl hi
    · rw [hregime, show u.resize.pool = u.pool from congrArg Desk.pool (desk_resize u), hu.regime]
    · rw [wanted_of_workers hworkers, hwanted, huw, hconcurrency, hu.workers, List.take_nil]
      rfl
    · rw [hworkers, hsize, huw, hconcurrency, hu.workers]
      rfl

theorem stop_workers (hw : w.Rostered) (hruns : w.pool.running = true) :
    w.stop.2.Rostered ∧ w.stop.2.wanted = [] ∧ w.stop.2.pool.running = false := by
  rcases stop_cases w with ⟨-, hclosed⟩ | hc
  · rw [hruns] at hclosed
    cases hclosed
  · have hcancelled : w.stop.2.wanted = (w.cancelWorkers w.active).wanted :=
      wanted_of_workers hc.workers
    have hidle : w.stop.2.wanted = [] := by
      rw [hcancelled, wanted_cancelWorkers, hw.active, List.filter_eq_nil_iff]
      intro i hi
      simpa using hi
    refine ⟨⟨?_, ?_, ?_⟩, hidle, congrArg Prod.fst hc.regime⟩
    · rw [hc.active, hidle]
    · rw [hidle]
      simp
    · rw [hc.retired]
      simp

theorem setConcurrency_closed (hclosed : w.pool.running = false) (hn : n ≠ 0) :
    w.setConcurrency n = .ok (w.mapPool fun p => { p with concurrency := n }) := by
  rw [setConcurrency, if_neg hn, resize, if_neg]
  rw [show (w.mapPool fun p => { p with concurrency := n }).pool.running = false from hclosed]
  simp

theorem setConcurrency_running (hw : w.Rostered) (hruns : w.pool.running = true) (hn : n ≠ 0) :
    ∃ v, w.setConcurrency n = .ok v ∧ v.Rostered ∧
      v.pool = { w.pool with concurrency := n } ∧ v.wanted.length = n ∧
      v.wanted = w.wanted.take n ++
        (List.range (n - w.wanted.length)).map (w.workers.size + ·) ∧
      v.workers.size = w.workers.size + (n - w.wanted.length) := by
  have hasked : (w.mapPool fun p => { p with concurrency := n }).Rostered := hw.mapPool _
  obtain ⟨hresized, hwanted, hsize⟩ := hasked.resize hruns
  refine ⟨_, by rw [setConcurrency, if_neg hn], hresized, ?_, hasked.length_resize hruns, hwanted,
    hsize⟩
  exact congrArg Desk.pool (desk_resize _)

/-! ### Steps and runs -/

/-- The roster is in order, and a pool that runs has as many workers as it wants. -/
structure Crewed (w : World) : Prop extends Rostered w where
  number : w.pool.running = true → w.wanted.length = w.pool.concurrency
  closed : w.pool.running = false → w.wanted = []

theorem perform_crewed (he : w.Enabled a = true) (hw : w.Crewed) : (w.perform a).Crewed := by
  by_cases ha : a.isDirective = false
  · have hturn := perform_turn he ha
    have hregime : (w.perform a).pool.regime = w.pool.regime := by
      apply regime_perform
      all_goals
        intros
        rintro rfl
        cases ha
    have hrunning := Pool.running_of_regime hregime
    have hnumber := Pool.concurrency_of_regime hregime
    have hwanted := wanted_congr hturn.workersSize hturn.workers
    refine ⟨hw.turn hturn fun i => unwanted_of_ended he ha, fun hruns => ?_, fun hclosed => ?_⟩
    · rw [hwanted, hnumber]
      exact hw.number (hrunning.symm.trans hruns)
    · rw [hwanted]
      exact hw.closed (hrunning.symm.trans hclosed)
  · cases a with
    | start =>
      rcases start_cases w with ⟨hsame, -⟩ | ⟨u, pass, -, hu, -⟩
      · rw [perform, hsame]
        exact hw
      · obtain ⟨_, -, hrostered, hregime, hwanted, -⟩ :=
          start_workers hw.toRostered hu.closed (hw.closed hu.closed) hu.sources
        refine ⟨hrostered, fun _ => ?_, fun hn => ?_⟩
        · rw [perform, hwanted, List.length_map, List.length_range]
          exact (congrArg Prod.snd hregime).symm
        · rw [perform, show w.start.2.pool.running = true from congrArg Prod.fst hregime] at hn
          cases hn
    | stop =>
      by_cases hruns : w.pool.running = true
      · obtain ⟨hrostered, hidle, hclosed⟩ := stop_workers hw.toRostered hruns
        refine ⟨hrostered, fun hn => ?_, fun _ => hidle⟩
        rw [perform, hclosed] at hn
        cases hn
      · rw [perform, stop, if_neg hruns]
        exact hw
    | finishStop k => exact ⟨⟨hw.active, hw.alive, hw.retired⟩, hw.number, hw.closed⟩
    | setConcurrency n =>
      by_cases hn : n = 0
      · subst hn
        exact hw
      rw [perform]
      by_cases hruns : w.pool.running = true
      · obtain ⟨v, hv, hrostered, hpool, hnumber, -⟩ :=
          setConcurrency_running hw.toRostered hruns hn
        rw [hv]
        refine ⟨hrostered, fun _ => ?_, fun hclosed => ?_⟩
        · change v.wanted.length = v.pool.concurrency
          rw [hpool]
          exact hnumber
        · change v.pool.running = false at hclosed
          rw [hpool, show w.pool.running = true from hruns] at hclosed
          cases hclosed
      · have hclosed := Bool.eq_false_iff.mpr hruns
        rw [setConcurrency_closed hclosed hn]
        refine ⟨?_, fun hn => absurd hn hruns, fun _ => hw.closed hclosed⟩
        exact hw.mapPool fun p => { p with concurrency := n }
    | _ => exact absurd rfl ha

variable {settings : Settings} {sources : List String} {chooser : Chooser} {now : Instant}
  {content : List (Record Float)}

theorem crewed_of_reaches (hw : (opening settings sources chooser now content).Reaches w) :
    w.Crewed := by
  apply hw.keep (P := Crewed) fun _ _ he => perform_crewed he
  refine ⟨⟨rfl, ?_, ?_⟩, ?_, fun _ => rfl⟩
  · intro i hi
    cases hi
  · intro i hi
    cases hi
  · intro hruns
    cases hruns

theorem concurrency_perform (w : World) (a : Action) :
    (w.perform a).pool.concurrency = a.accepted w.pool.concurrency := by
  cases a with
  | start =>
    rcases start_cases w with ⟨hsame, -⟩ | ⟨u, pass, -, hu, -, -, hregime⟩
    · rw [perform, hsame]
      rfl
    · have hresized : u.resize.pool = u.pool := congrArg Desk.pool (desk_resize u)
      rw [hresized, hu.regime] at hregime
      exact congrArg Prod.snd hregime
  | stop =>
    rcases stop_cases w with ⟨hsame, -⟩ | hc
    · rw [perform, hsame]
      rfl
    · exact congrArg Prod.snd hc.regime
  | setConcurrency n =>
    rw [perform, setConcurrency, Action.accepted]
    split_ifs
    · rfl
    · exact congrArg (·.pool.concurrency) (desk_resize _)
  | _ => exact Pool.concurrency_of_regime (regime_perform w (by simp) (by simp) (by simp))

theorem concurrency_of_run {actions : List Action} (hrun : u.run? actions = some w) :
    w.pool.concurrency = actions.foldl Action.accepted u.pool.concurrency := by
  induction actions generalizing u with
  | nil =>
    cases hrun
    rfl
  | cons a rest ih =>
    rw [run?] at hrun
    split_ifs at hrun
    rw [ih hrun, concurrency_perform, List.foldl_cons]

/-- A worker that has not ended is active, or was dismissed, or a stop waits for it. -/
theorem Crewed.cases (hw : w.Crewed) (hs : w.Staffed) (i : WorkerId) :
    (i ∈ w.active ∧ i ∈ w.wanted) ∨ (i ∈ w.retired ∧ i ∉ w.wanted) ∨
      w.workerStage i = .finished ∨ ∃ s ∈ w.stops, s.returned = false ∧ i ∈ s.workers := by
  by_cases hended : w.workerStage i = .finished
  · exact .inr (.inr (.inl hended))
  · rcases hs i hended with hactive | hretired | hstop
    · exact .inl ⟨hactive, hw.active ▸ hactive⟩
    · refine .inr (.inl ⟨hretired, fun hi => ?_⟩)
      have hfree := mem_wanted.mp hi
      rw [hw.retired i hretired] at hfree
      cases hfree
    · exact .inr (.inr (.inr hstop))

theorem Crewed.activeWorkers (hw : w.Crewed) :
    w.activeWorkers = w.wanted.length + (w.retired.filter (!w.isWorkerDone ·)).length := by
  have halive : w.active.filter (!w.isWorkerDone ·) = w.active := by
    rw [List.filter_eq_self]
    intro i hi
    have hstage := hw.alive i (hw.active ▸ hi)
    simpa [isWorkerDone] using hstage
  rw [World.activeWorkers, List.filter_append, halive, List.length_append, hw.active]

end World

/-- Whatever happens and in whatever order, a pool that runs has as many workers that were not
told to end as was last asked for, and a pool that does not run has none. Zero is refused.
Between runs only the number is noted, and the next start hires exactly so many. In a run the
latest workers are dismissed if there are too many, and new ones follow if there are too few.
Every worker ever hired is active, or was dismissed, or has ended, or a stop waits for it. -/
theorem workers_follow_the_last_request {settings : Settings} {sources : List String}
    {chooser : Chooser} {now : Instant} {content : List (Record Float)} {actions : List Action}
    {w : World}
    (hrun : (World.opening settings sources chooser now content).run? actions = some w) :
    w.pool.concurrency = lastAccepted settings actions ∧
    (w.pool.running = true → w.wanted.length = lastAccepted settings actions) ∧
    (w.pool.running = false → w.wanted = []) ∧
    (w.setConcurrency 0 = .error (.invalidConcurrency 0) ∧ w.perform (.setConcurrency 0) = w) ∧
    (∀ n, n ≠ 0 → w.pool.running = false →
      w.setConcurrency n = .ok (w.mapPool fun p => { p with concurrency := n })) ∧
    (∀ n, n ≠ 0 → w.pool.running = true → ∃ v, w.setConcurrency n = .ok v ∧
      v.pool = { w.pool with concurrency := n } ∧ v.wanted.length = n ∧
      v.wanted = w.wanted.take n ++
        (List.range (n - w.wanted.length)).map (w.workers.size + ·) ∧
      v.workers.size = w.workers.size + (n - w.wanted.length)) ∧
    (w.pool.running = false → w.pool.sources ≠ [] → ∃ pass, w.start.1 = .fetching pass ∧
      w.start.2.wanted = (List.range (lastAccepted settings actions)).map (w.workers.size + ·) ∧
      w.start.2.workers.size = w.workers.size + lastAccepted settings actions) ∧
    w.activeWorkers = w.wanted.length + (w.retired.filter (!w.isWorkerDone ·)).length ∧
    ∀ i < w.workers.size, (i ∈ w.active ∧ i ∈ w.wanted) ∨ (i ∈ w.retired ∧ i ∉ w.wanted) ∨
      w.workerStage i = .finished ∨ ∃ s ∈ w.stops, s.returned = false ∧ i ∈ s.workers := by
  have hcrewed := World.crewed_of_reaches ⟨actions, hrun⟩
  have hgoverned := World.governed_of_reaches ⟨actions, hrun⟩
  have hnumber : w.pool.concurrency = lastAccepted settings actions :=
    World.concurrency_of_run hrun
  refine ⟨hnumber, fun hruns => hnumber ▸ hcrewed.number hruns, hcrewed.closed, ⟨rfl, rfl⟩,
    fun n hn hclosed => World.setConcurrency_closed hclosed hn, fun n hn hruns => ?_,
    fun hclosed hsources => ?_, hcrewed.activeWorkers, fun i _ => ?_⟩
  · obtain ⟨v, hv, -, hresized⟩ := World.setConcurrency_running hcrewed.toRostered hruns hn
    exact ⟨v, hv, hresized⟩
  · obtain ⟨pass, hpass, -, -, hhired⟩ := World.start_workers hcrewed.toRostered hclosed
      (hcrewed.closed hclosed) hsources
    exact ⟨pass, hpass, hnumber ▸ hhired⟩
  · exact hcrewed.cases hgoverned.staffed i

/-- A pool over no workers has one; it grows, a request for none is refused, and it shrinks; the
number that is asked for between runs is the number of the next run. -/
theorem workers_follow_the_last_request_after_restart :
    ∃ w, (World.opening { Settings.standard with validationConcurrency := 0 } ["s"]
        (.roundRobin 0) 0 []).run? [.start, .setConcurrency 4, .setConcurrency 0,
          .setConcurrency 2, .stop, .setConcurrency 3, .start, .leave 0] = some w ∧
      w.pool.concurrency = 3 ∧ w.wanted = [4, 5, 6] ∧ w.wanted.length = 3 ∧
      (∃ v, w.setConcurrency 2 = .ok v ∧ v.wanted = [4, 5]) ∧
      (w.workerStage 0 = .finished ∧ ∃ s ∈ w.stops, s.returned = false ∧ 1 ∈ s.workers) := by
  let actions : List Action := [.start, .setConcurrency 4, .setConcurrency 0,
    .setConcurrency 2, .stop, .setConcurrency 3, .start, .leave 0]
  have hrun : ((World.opening { Settings.standard with validationConcurrency := 0 } ["s"]
      (.roundRobin 0) 0 []).run? actions).map (fun w => decide (w.pool.running = true ∧
        w.wanted = [4, 5, 6] ∧ w.workers.size = 7 ∧ w.active = [4, 5, 6] ∧ w.retired = [] ∧
        w.workerStage 0 = .finished ∧ w.workerStage 1 = .idle)) = some true := by
    decide +kernel
  obtain ⟨w, hw, hfacts⟩ := Option.map_eq_some_iff.mp hrun
  obtain ⟨hruns, hwanted, hsize, hactive, hretired, hended, hidle⟩ := of_decide_eq_true hfacts
  obtain ⟨hconcurrency, hnumber, -, -, -, hresize, -, -, haccount⟩ :=
    workers_follow_the_last_request hw
  obtain ⟨v, hv, -, -, hkept, -⟩ := hresize 2 (by decide) hruns
  refine ⟨w, hw, hconcurrency, hwanted, hnumber hruns, ⟨v, hv, ?_⟩, hended, ?_⟩
  · rw [hkept, hwanted]
    rfl
  · rcases haccount 1 (by rw [hsize]; decide) with ⟨hmem, -⟩ | ⟨hmem, -⟩ | hfinished | hstop
    · rw [hactive] at hmem
      exact absurd hmem (by decide)
    · rw [hretired] at hmem
      cases hmem
    · rw [hidle] at hfinished
      cases hfinished
    · exact hstop

end ProxyLease
