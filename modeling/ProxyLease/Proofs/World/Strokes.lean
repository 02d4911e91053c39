import ProxyLease.Proofs.World.Stretch

/-!
# Laws of strokes

Registry, census and states change in a few strokes only: a proxy is transferred, handed
out or registered, or the registered ones are counted anew. A law that each of these keeps,
and that asks about nothing else, is kept by every step.
-/

namespace ProxyLease

namespace Pool

variable {c : Concern} {P : Pool → Prop} {p q : Pool} {h : Handle} {s : Lifecycle}

/-- What it takes for a law to be kept by all strokes in stretches about some concern. -/
structure StrokeLaw (c : Concern) (P : Pool → Prop) : Prop where
  /-- The law asks about nothing else. -/
  still : ∀ {p q : Pool}, q.settings = p.settings → q.registry = p.registry →
    (∀ k, q.id? k = p.id? k) → (∀ k, q.state? k = p.state? k) →
    q.census.counts = p.census.counts → q.census.total = p.census.total → P p → P q
  /-- Only a proxy that was not handed out for good is transferred, and none that expired or
  was disabled. -/
  transfer : ∀ {p : Pool} {h : Handle} {s t : Lifecycle}, p.state? h = some s → s ≠ t →
    s ≠ .expired → s ≠ .disabled → (s = .inUse → p.settings.removeAfterGet = false) → P p →
    P (p.transfer h s t)
  handOut : ∀ {p : Pool} {h : Handle}, p.state? h = some .available → P p → P (p.handOut h)
  register : c = .acquisition → ∀ {p q : Pool} {e : Endpoint}, p.admit? e = some q → P p → P q
  recount : ∀ {p : Pool}, P p → P p.recount

namespace StrokeLaw

theorem trivially (hP : StrokeLaw c P) (hp : P p) (hsettings : q.settings = p.settings)
    (hregistry : q.registry = p.registry) (hrecords : q.records = p.records)
    (hcounts : q.census.counts = p.census.counts) (htotal : q.census.total = p.census.total) :
    P q := by
  have hrecord (k : Handle) : q.record? k = p.record? k := by rw [record?, record?, hrecords]
  refine hP.still hsettings hregistry (fun k => ?_) (fun k => ?_) hcounts htotal hp
  · rw [id?, id?, hrecord]
  · rw [state?, state?, hrecord]

theorem beginProbe (hP : StrokeLaw c P) (hp : P p) (h : Handle) : P (p.beginProbe h).2 := by
  have hmoved (hs : p.state? h = some .pending) : P (p.transfer h .pending .validating) :=
    hP.transfer hs nofun nofun nofun nofun hp
  rcases beginProbe_cases p h with ⟨_, he⟩ | ⟨hs, _, he⟩ | ⟨hs, _, he⟩
  · rw [he]
    exact hp
  · have hv : (p.transfer h .pending .validating).state? h = some .validating := by
      rw [state?_transfer hs (by decide), if_pos rfl]
    rw [he]
    exact hP.transfer hv nofun nofun nofun nofun (hmoved hs)
  · rw [he]
    exact hP.trivially (hmoved hs) rfl rfl rfl rfl rfl

theorem change (hP : StrokeLaw c P) (hc : Change c p q) (hp : P p) : P q := by
  cases hc with
  | remark | ask | choose | trim | elapse | staff => exact hP.trivially hp rfl rfl rfl rfl rfl
  | restat h f =>
    exact hP.still (p := p) rfl rfl (fun _ => id?_restat f) (fun _ => state?_restat f) rfl rfl hp
  | tally census hcounts htotal => exact hP.trivially hp rfl rfl rfl hcounts htotal
  | requeue h hs hr =>
    have hmoved := hP.transfer hs hr.ne hr.source_ne_expired hr.source_ne_disabled
      (fun hu => absurd hu hr.source_ne_inUse) hp
    rw [requeue_eq hs hr.ne]
    exact hP.trivially hmoved rfl rfl rfl rfl rfl
  | @begin h rest =>
    have hd : P { p with queue := rest } := hP.trivially hp rfl rfl rfl rfl rfl
    exact hP.beginProbe hd h
  | fail h hs hr => exact hP.transfer hs hr.ne nofun nofun nofun hp
  | register e ha hc => exact hP.register hc ha hp
  | launch =>
    have hd : P { p with running := true } := hP.trivially hp rfl rfl rfl rfl rfl
    exact hP.recount hd
  | close =>
    obtain ⟨inboxes, he, _, _⟩ := hangUp_fold p.line { p with running := false, line := [] }
    rw [hangUpAll, he]
    exact hP.trivially hp rfl rfl rfl rfl rfl

theorem changes (hP : StrokeLaw c P) (hc : Changes c p q) (hp : P p) : P q :=
  hc.keep hP.change hp

theorem deliver (hP : StrokeLaw c P) {t : Ticket} {others : List Ticket}
    (hs : p.state? h = some .available) (hp : P p) : P (p.deliver t others h) := by
  have hsent : P ({ p with line := others }.setInbox t (.delivered h)) :=
    hP.trivially hp rfl rfl rfl rfl rfl
  exact hP.handOut hs hsent

theorem services (hP : StrokeLaw c P) (hc : Services c p q) (hp : P p) : P q := by
  refine hc.keep (fun hs hp => ?_) hp
  cases hs with
  | change hc => exact hP.change hc hp
  | deliver h hl hs => exact hP.deliver hs hp

theorem free (hP : StrokeLaw c P) (hs : p.state? h = some s) (hne : s ≠ .available)
    (hlive : s ≠ .expired) (hactive : s ≠ .disabled)
    (hkept : s = .inUse → p.settings.removeAfterGet = false) (hp : P p) : P (p.free h s) := by
  have hmoved : P (p.transfer h s .available) := hP.transfer hs hne hlive hactive hkept hp
  rcases free_cases hs hne with ⟨_, he⟩ | ⟨t, others, _, ha, he⟩
  · rw [he]
    exact hP.trivially hmoved rfl rfl rfl rfl rfl
  · rw [he]
    exact hP.deliver ha hmoved

theorem reported (hP : StrokeLaw (.use h) P) (hr : Reported h p q) (hp : P p) : P q := by
  obtain ⟨r, hc, _, ⟨_, hreturn⟩ | ⟨_, rfl⟩⟩ := hr
  · have hnoted := hP.changes hc hp
    cases hreturn with
    | free hm hs => exact hP.free hs nofun nofun nofun (fun _ => hm) hnoted
    | punish ht hm hs =>
      refine hP.transfer hs ?_ nofun nofun (fun _ => hm) hnoted
      rcases ht with rfl | rfl <;> decide
  · exact hP.changes hc hp

theorem leaveLine (hP : StrokeLaw c P) (hp : P p) (t : Ticket) : P (p.leaveLine t) := by
  rw [leaveLine_eq]
  exact hP.trivially hp rfl rfl rfl rfl rfl

theorem act (hP : StrokeLaw c P) {d e : Desk} (ha : Act c d e) (hd : P d.pool) : P e.pool := by
  cases ha with
  | rest | turnAway => exact hd
  | free h hs => exact hP.free hs nofun nofun nofun nofun hd
  | take h hs => exact hP.handOut hs hd
  | join wait deadline hq hc => exact hP.services hq (hP.trivially hd rfl rfl rfl rfl rfl)
  | settle => exact hP.leaveLine hd _

theorem perform {w : World} {a : Action} (hP : StrokeLaw (w.concern a) P) (hw : P w.pool) :
    P (w.perform a).pool := by
  rcases World.perform_cases w a with ⟨p, hc, hact⟩ | ⟨h, hconcern, hr, _⟩ | ⟨i, t, _, _, _, hd⟩
  · exact hP.act hact (hP.changes hc hw)
  · rw [hconcern] at hP
    exact hP.reported hr hw
  · rw [show (w.perform a).pool = w.pool.leaveLine t from congrArg Desk.pool hd]
    exact hP.leaveLine hw t

end StrokeLaw
end Pool
end ProxyLease
