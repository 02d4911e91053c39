import Mathlib.Data.List.DropRight
import ProxyLease.Proofs.Choice
import ProxyLease.Proofs.Pool.Inbox
import ProxyLease.Proofs.Registry

/-!
# Calm

The changes a pool makes of its own are calm for its consumers: nobody gets a proxy or
loses one, nothing becomes available, and the line keeps its order. Who waits may at
most be hung up on, together with everybody else in line.
-/

namespace ProxyLease.Pool

variable {p q r : Pool} {h k : Handle} {t u : Ticket}

/-- What the changes of a pool leave as it is, as far as consumers can tell. -/
structure Calm (p q : Pool) : Prop where
  settings : q.settings = p.settings
  standard : q.chooser.isStandard = p.chooser.isStandard
  inUse : ∀ h, q.state? h = some .inUse ↔ p.state? h = some .inUse
  offered : ∀ h ∈ q.proxiesIn .available, h ∈ p.proxiesIn .available
  size : q.inboxes.size = p.inboxes.size
  inbox : ∀ t, q.inbox t = p.inbox t ∨ p.inbox t = .waiting ∧ q.inbox t = .hungUp
  line : q.line.Sublist p.line
  first : q.first? = p.first? ∨ q.line = []

namespace Calm

theorem refl (p : Pool) : Calm p p where
  settings := rfl
  standard := rfl
  inUse _ := Iff.rfl
  offered _ := id
  size := rfl
  inbox _ := .inl rfl
  line := .refl _
  first := .inl rfl

theorem trans (hpq : Calm p q) (hqr : Calm q r) : Calm p r where
  settings := hqr.settings.trans hpq.settings
  standard := hqr.standard.trans hpq.standard
  inUse h := (hqr.inUse h).trans (hpq.inUse h)
  offered h hr := hpq.offered h (hqr.offered h hr)
  size := hqr.size.trans hpq.size
  inbox t := by
    rcases hpq.inbox t with hp | ⟨hp, hq⟩
    · rw [← hp]
      exact hqr.inbox t
    · rcases hqr.inbox t with hr | ⟨hr, _⟩
      · exact .inr ⟨hp, hr.trans hq⟩
      · rw [hq] at hr
        cases hr
  line := hqr.line.trans hpq.line
  first := by
    rcases hqr.first with hr | hr
    · rcases hpq.first with hp | hp
      · exact .inl (hr.trans hp)
      · right
        have hs := hqr.line
        rw [hp] at hs
        exact List.sublist_nil.mp hs
    · exact .inr hr

theorem isWaiting (hc : Calm p q) (ht : q.isWaiting t = true) : p.isWaiting t = true := by
  rw [isWaiting_iff] at ht ⊢
  rcases hc.inbox t with hp | ⟨hp, _⟩
  · rw [← hp, ht]
  · exact hp

theorem delivered (hc : Calm p q) : q.inbox t = .delivered h ↔ p.inbox t = .delivered h := by
  rcases hc.inbox t with hp | ⟨hp, hq⟩
  · rw [hp]
  · rw [hp, hq]
    exact ⟨nofun, nofun⟩

theorem of_eq (hsettings : q.settings = p.settings)
    (hchooser : q.chooser.isStandard = p.chooser.isStandard)
    (hstate : ∀ k, q.state? k = p.state? k) (hregistry : q.registry = p.registry)
    (hinboxes : q.inboxes = p.inboxes) (hline : q.line = p.line) : Calm p q where
  settings := hsettings
  standard := hchooser
  inUse h := by rw [hstate]
  offered h := by rw [mem_proxiesIn, mem_proxiesIn, hstate, hregistry]; exact id
  size := by rw [hinboxes]
  inbox t := .inl (by rw [Pool.inbox, Pool.inbox, hinboxes])
  line := by rw [hline]
  first := .inl (by rw [first?, first?, hline, isWaiting_congr hinboxes])

end Calm

theorem offered_transfer {s t : Lifecycle} (hs : p.state? h = some s) (hst : s ≠ t)
    (hk : k ∈ (p.transfer h s t).proxiesIn .available) :
    k = h ∧ t = .available ∨ k ∈ p.proxiesIn .available := by
  obtain ⟨id, hid⟩ := exists_id_of_state hs
  rw [mem_proxiesIn, state?_transfer hs hst] at hk
  obtain ⟨hhandles, hstate⟩ := hk
  split_ifs at hstate with hkh
  · exact .inl ⟨hkh, Option.some.inj hstate⟩
  · refine .inr (mem_proxiesIn.mpr ⟨?_, hstate⟩)
    rw [transfer_eq hs hid hst] at hhandles
    dsimp only at hhandles
    split_ifs at hhandles
    · exact Registry.mem_handles_remove hhandles
    · exact (Registry.mem_handles_update hhandles).resolve_right hkh

theorem offered_handOut (hs : p.state? h = some .available)
    (hk : k ∈ (p.handOut h).proxiesIn .available) : k ≠ h ∧ k ∈ p.proxiesIn .available := by
  obtain ⟨id, hid⟩ := exists_id_of_state hs
  rw [mem_proxiesIn, state?_handOut hs] at hk
  obtain ⟨hhandles, hstate⟩ := hk
  split_ifs at hstate with hkh
  · cases hstate
  · refine ⟨hkh, mem_proxiesIn.mpr ⟨?_, hstate⟩⟩
    rw [handOut_eq hs hid] at hhandles
    dsimp only at hhandles
    split_ifs at hhandles
    · exact Registry.mem_handles_remove hhandles
    · exact (Registry.mem_handles_update hhandles).resolve_right hkh

theorem calm_transfer {s t : Lifecycle} (hs : p.state? h = some s) (hr : Route s t) :
    Calm p (p.transfer h s t) := by
  have hstate (k : Handle) := state?_transfer (k := k) hs hr.ne
  have hoffered (k : Handle) (hk : k ∈ (p.transfer h s t).proxiesIn .available) :
      k ∈ p.proxiesIn .available :=
    (offered_transfer hs hr.ne hk).resolve_left fun hh => hr.target_ne_available hh.2
  obtain ⟨records, registry, census, trace, he⟩ := transfer_frame p h s t
  refine ⟨by rw [he], by rw [he], ?_, hoffered, by rw [he], fun t => .inl (by rw [he]; rfl),
    by rw [he], .inl (by rw [he]; rfl)⟩
  intro k
  rw [hstate]
  split_ifs with hkh
  · rw [hkh, hs]
    simp [hr.target_ne_inUse, hr.source_ne_inUse]
  · exact Iff.rfl

theorem calm_trimmed (p : Pool) : Calm p p.trimmed where
  settings := rfl
  standard := rfl
  inUse _ := Iff.rfl
  offered _ := id
  size := rfl
  inbox _ := .inl rfl
  line := List.dropWhile_sublist _
  first := .inl (by
    rw [first?_eq_head?, first?_eq_head?]
    exact congrArg List.head? (List.dropWhile_idempotent _ _))

theorem calm_register {e : Endpoint} (ha : p.admit? e = some q) : Calm p q := by
  have hstate (k : Handle) := state?_register (h := k) ha
  have hsame {s : Lifecycle} (hs : s ≠ .pending) (k : Handle) :
      q.state? k = some s ↔ p.state? k = some s := by
    rw [hstate]
    split_ifs with hk
    · rw [hk, state?_size]
      simp [hs.symm]
    · exact Iff.rfl
  obtain ⟨registry, queue, hadd, rfl⟩ := admit?_eq_some ha
  refine ⟨rfl, rfl, fun k => hsame (by decide) k, ?_, rfl, fun _ => .inl rfl, .refl _, .inl rfl⟩
  intro k hk
  rw [mem_proxiesIn] at hk ⊢
  have hp := (hsame (by decide) k).mp hk.2
  refine ⟨((Registry.mem_handles_add hadd).mp hk.1).resolve_left ?_, hp⟩
  rintro rfl
  rw [state?_size] at hp
  cases hp

theorem calm_close (p : Pool) : Calm p { p with running := false }.hangUpAll := by
  obtain ⟨inboxes, he, hs, hi⟩ := hangUp_fold p.line { p with running := false, line := [] }
  rw [hangUpAll, he]
  exact ⟨rfl, rfl, fun _ => Iff.rfl, fun _ => id, hs, hi, List.nil_sublist _, .inr rfl⟩

theorem calm_enqueue (p : Pool) (h : Handle) : Calm p (p.enqueue h) :=
  .of_eq rfl rfl (fun _ => rfl) rfl rfl rfl

theorem calm_requeue {s : Lifecycle} (hs : p.state? h = some s) (hr : Route s .pending) :
    Calm p (p.requeue h s) := by
  rw [requeue_eq hs hr.ne]
  exact (calm_transfer hs hr).trans (calm_enqueue _ h)

theorem calm_beginProbe (p : Pool) (h : Handle) : Calm p (p.beginProbe h).2 := by
  rcases beginProbe_cases p h with ⟨_, he⟩ | ⟨hs, _, he⟩ | ⟨hs, _, he⟩
  · rw [he]
    exact .refl p
  · have hv : (p.transfer h .pending .validating).state? h = some .validating := by
      rw [state?_transfer hs (by decide), if_pos rfl]
    rw [he]
    exact (calm_transfer hs .probe).trans (calm_transfer hv .expire)
  · rw [he]
    exact (calm_transfer hs .probe).trans (.of_eq rfl rfl (fun _ => rfl) rfl rfl rfl)

theorem Change.calm {c : Concern} (hc : Change c p q) : Calm p q := by
  cases hc with
  | remark e he => exact .of_eq rfl rfl (fun _ => rfl) rfl rfl rfl
  | restat h f => exact .of_eq rfl rfl (fun _ => state?_restat f) rfl rfl rfl
  | tally | ask => exact .of_eq rfl rfl (fun _ => rfl) rfl rfl rfl
  | requeue h hs hr => exact calm_requeue hs hr
  | @begin h rest hq =>
    have hd : Calm p { p with queue := rest } := .of_eq rfl rfl (fun _ => rfl) rfl rfl rfl
    exact hd.trans (calm_beginProbe _ h)
  | fail h hs hr => exact calm_transfer hs hr
  | choose => exact .of_eq rfl (isStandard_choose p) (fun _ => rfl) rfl rfl rfl
  | trim => exact calm_trimmed p
  | register e ha => exact calm_register ha
  | elapse d => exact .of_eq rfl rfl (fun _ => rfl) rfl rfl rfl
  | staff n => exact .of_eq rfl rfl (fun _ => rfl) rfl rfl rfl
  | launch => exact .of_eq rfl rfl (fun _ => rfl) rfl rfl rfl
  | close => exact calm_close p

theorem Changes.calm {c : Concern} (hc : Changes c p q) : Calm p q := by
  induction hc with
  | refl => exact .refl p
  | tail _ hc ih => exact ih.trans hc.calm

end ProxyLease.Pool
