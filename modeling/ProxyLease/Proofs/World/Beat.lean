import ProxyLease.Proofs.Pool.Beat
import ProxyLease.Proofs.World.Opening
import ProxyLease.Proofs.World.Stretch

/-!
# Steps as beats

Every step of a world is a sequence of beats of its pool, and what the step is about
limits which beats these are. In particular no step ever takes back what the trace
tells, and the counts of the pool always add up.
-/

namespace ProxyLease

theorem Act.beaten {c : Concern} {d e : Desk} (ha : Act c d e) (he : d.pool.census.AddsUp) :
    Pool.Beaten c d.pool e.pool := by
  cases ha with
  | rest | turnAway => exact ⟨.refl _, he⟩
  | free h hs hc => exact Pool.free_beaten he hs (by decide) fun _ => hc
  | take h hs => exact Pool.handOut_beaten he hs
  | join wait deadline hq hc =>
    have hjoined : Pool.Beaten c d.pool d.pool.joinLine.2 :=
      Pool.beaten_still he rfl rfl rfl rfl rfl
    exact hjoined.trans hq.beaten
  | settle => exact Pool.leaveLine_beaten he _

theorem Stretch.beaten {c : Concern} {d e : Desk} (hs : Stretch c d e)
    (he : d.pool.census.AddsUp) : Pool.Beaten c d.pool e.pool := by
  obtain ⟨p, hc, ha⟩ := hs
  exact (hc.beaten he).trans ha.beaten

namespace World

variable {w v : World}

theorem perform_beaten (w : World) (a : Action) (he : w.pool.census.AddsUp) :
    Pool.Beaten (w.concern a) w.pool (w.perform a).pool := by
  rcases perform_cases w a with hs | ⟨h, hconcern, hr, _⟩ | ⟨i, t, _, _, _, hd⟩
  · exact hs.beaten he
  · rw [hconcern]
    exact hr.beaten he
  · rw [show (w.perform a).pool = w.pool.leaveLine t from congrArg Desk.pool hd]
    exact Pool.leaveLine_beaten he t

theorem exists_take_of_concern {a : Action} {h : Handle} (hc : w.concern a = .probe h) :
    ∃ i rest, a = .take i ∧ w.pool.queue = h :: rest := by
  cases a with
  | take i =>
    cases hq : w.pool.queue with
    | nil => simp [concern, hq] at hc
    | cons k rest =>
      simp only [concern, hq, Concern.probe.injEq] at hc
      exact ⟨i, rest, rfl, by rw [hc]⟩
  | conclude i o =>
    simp only [concern] at hc
    split at hc <;> cases hc
  | _ => cases hc

theorem exists_conclude_of_concern {a : Action} {h : Handle} (hc : w.concern a = .verdict h) :
    ∃ i o, a = .conclude i o := by
  cases a with
  | take i =>
    simp only [concern] at hc
    split at hc <;> cases hc
  | conclude i o => exact ⟨i, o, rfl⟩
  | _ => cases hc

theorem isReport_of_concern {a : Action} {h : Handle} (hc : w.concern a = .use h) :
    a.isReport = true := by
  cases a with
  | take i =>
    simp only [concern] at hc
    split at hc <;> cases hc
  | conclude i o =>
    simp only [concern] at hc
    split at hc <;> cases hc
  | reportSuccess | reportFailure => rfl
  | _ => cases hc

theorem take_begun {h : Handle} {rest : List Handle} (he : w.pool.census.AddsUp)
    (hq : w.pool.queue = h :: rest) (i : WorkerId) : ∃ q sent, Pool.Begun h w.pool q sent ∧
      w.take i = if sent then { w with pool := q }.setWorkerStage i (.probing h)
        else { w with pool := q } := by
  refine ⟨_, _, (Pool.beginProbe_begun he hq).1, ?_⟩
  simp only [take, hq]

theorem take_begun_pool {h : Handle} {rest : List Handle} (he : w.pool.census.AddsUp)
    (hq : w.pool.queue = h :: rest) (i : WorkerId) :
    ∃ sent, Pool.Begun h w.pool (w.take i).pool sent := by
  obtain ⟨q, sent, hb, ht⟩ := take_begun he hq i
  refine ⟨sent, ?_⟩
  rw [ht]
  split <;> exact hb

theorem perform_addsUp (w : World) (a : Action) (he : w.pool.census.AddsUp) :
    (w.perform a).pool.census.AddsUp :=
  (perform_beaten w a he).2

theorem perform_news (w : World) (a : Action) (he : w.pool.census.AddsUp) : ∃ news,
    (w.perform a).pool.trace.toList = w.pool.trace.toList ++ news ∧
    ∀ h, .check h ∈ news →
      ∃ r, w.pool.record? h = some r ∧ r.age w.now < w.pool.settings.proxyTtl := by
  by_cases hc : ∃ h, w.concern a = .probe h
  · obtain ⟨h, hc⟩ := hc
    obtain ⟨i, rest, rfl, hq⟩ := exists_take_of_concern hc
    obtain ⟨sent, hb⟩ := take_begun_pool he hq i
    obtain ⟨news, hnews, hchecks⟩ := hb.news
    refine ⟨news, hnews, fun k hk => ?_⟩
    rw [(hchecks k hk).1]
    exact (hchecks k hk).2
  · obtain ⟨news, hnews, hchecks⟩ := (perform_beaten w a he).1.news
    exact ⟨news, hnews, fun k hk => absurd ⟨k, hchecks k hk⟩ hc⟩

/-- What every beat keeps is kept by every run of a pool whose counts add up. -/
theorem Reaches.keep_beats {P : Pool → Prop} (hr : w.Reaches v) (he : w.pool.census.AddsUp)
    (step : ∀ {c : Concern} {p q : Pool}, Pool.Beat c p q → P p → P q) (hp : P w.pool) :
    P v.pool := by
  have hkept : v.pool.census.AddsUp ∧ P v.pool := by
    refine hr.keep (P := fun w => w.pool.census.AddsUp ∧ P w.pool) ?_ ⟨he, hp⟩
    rintro w a _ ⟨he, hp⟩
    obtain ⟨hbeats, he'⟩ := perform_beaten w a he
    exact ⟨he', hbeats.keep step hp⟩
  exact hkept.2

variable {settings : Settings} {sources : List String} {chooser : Chooser} {now : Instant}
  {content : List (Record Float)}

theorem addsUp_of_reaches (hw : (opening settings sources chooser now content).Reaches w) :
    w.pool.census.AddsUp :=
  hw.keep (P := fun w => w.pool.census.AddsUp) (fun w a _ => perform_addsUp w a) rfl

theorem settings_of_reaches (hw : (opening settings sources chooser now content).Reaches w) :
    w.pool.settings = settings :=
  hw.keep (P := fun w => w.pool.settings = settings)
    (fun w a _ hs => (settings_perform w a).trans hs) rfl

end World
end ProxyLease
