import ProxyLease.Proofs.World.Opening
import ProxyLease.Proofs.World.Stretch

/-!
# The line

Tickets stand in the line in the order in which they were drawn. With a standard
chooser nobody in line waits while a registered proxy is available, and a proxy that
becomes available goes to the first consumer in line who still waits.
-/

namespace ProxyLease

namespace Pool

variable {p q : Pool} {h k : Handle} {t u : Ticket}

/-- Tickets stand in line in the order in which they were drawn, and whoever was served
came before everybody who still waits in line. -/
structure Sorted (p : Pool) : Prop where
  ascending : p.line.Pairwise (· < ·)
  known : ∀ t ∈ p.line, t < p.inboxes.size
  fair : ∀ t h u, p.inbox t = .delivered h → u ∈ p.line → p.isWaiting u = true → t < u

/-- A sorted line in which nobody waits while a registered proxy is available. -/
structure Orderly (p : Pool) : Prop extends Sorted p where
  standard : p.chooser.isStandard = true
  prompt : ∀ t ∈ p.line, p.isWaiting t = true → p.proxiesIn .available = []

namespace Sorted

theorem congr (hs : p.Sorted) (hi : q.inboxes = p.inboxes) (hl : q.line.Sublist p.line) :
    q.Sorted where
  ascending := hs.ascending.sublist hl
  known t ht := by rw [hi]; exact hs.known t (hl.subset ht)
  fair t h u ht hu hw := by
    rw [inbox, hi] at ht
    rw [isWaiting_congr hi] at hw
    exact hs.fair t h u ht (hl.subset hu) hw

theorem calm (hs : p.Sorted) (hc : Calm p q) : q.Sorted where
  ascending := hs.ascending.sublist hc.line
  known t ht := by rw [hc.size]; exact hs.known t (hc.line.subset ht)
  fair t h u ht hu hw :=
    hs.fair t h u (hc.delivered.mp ht) (hc.line.subset hu) (hc.isWaiting hw)

theorem deliver (hs : p.Sorted) {others : List Ticket}
    (hl : p.line.dropWhile (!p.isWaiting ·) = t :: others) : (p.deliver t others h).Sorted := by
  have ht := waiting_of_dropWhile hl
  have hline : (t :: others).Sublist p.line := hl ▸ List.dropWhile_sublist _
  have hascending := List.pairwise_cons.mp (hs.ascending.sublist hline)
  have hinbox := inbox_deliver ht others h
  obtain ⟨records, registry, census, trace, he⟩ := deliver_frame p t others h
  have hqueue : (p.deliver t others h).line = others := by rw [he]
  refine ⟨?_, ?_, ?_⟩
  · rw [hqueue]
    exact hascending.2
  · intro u hu
    rw [hqueue] at hu
    have hsize : (p.deliver t others h).inboxes.size = p.inboxes.size := by rw [he]; simp
    rw [hsize]
    exact hs.known u (hline.subset (List.mem_cons_of_mem t hu))
  · intro u k v hu hv hw
    rw [hqueue] at hv
    rw [isWaiting_iff, hinbox] at hw
    split_ifs at hw
    rw [hinbox] at hu
    split_ifs at hu with hut
    · rw [hut]
      exact hascending.1 v hv
    · exact hs.fair u k v hu (hline.subset (List.mem_cons_of_mem t hv)) (isWaiting_iff.mpr hw)

theorem join (hs : p.Sorted) : p.joinLine.2.Sorted := by
  have hline : p.joinLine.2.line = p.line.filter p.isWaiting ++ [p.inboxes.size] := rfl
  have hfiltered : ∀ u ∈ p.line.filter p.isWaiting, u < p.inboxes.size :=
    fun u hu => hs.known u (List.mem_of_mem_filter hu)
  refine ⟨?_, ?_, ?_⟩
  · rw [hline, List.pairwise_append]
    exact ⟨hs.ascending.sublist List.filter_sublist, List.pairwise_singleton _ _,
      fun u hu v hv => List.mem_singleton.mp hv ▸ hfiltered u hu⟩
  · intro u hu
    have hsize : p.joinLine.2.inboxes.size = p.inboxes.size + 1 := Array.size_push _
    rw [hline, List.mem_append, List.mem_singleton] at hu
    rcases hu with hu | rfl
    · exact hsize ▸ Nat.lt_succ_of_lt (hfiltered u hu)
    · exact hsize ▸ Nat.lt_succ_self _
  · intro u k v hu hv hw
    rw [inbox_joinLine] at hu
    split_ifs at hu
    rw [hline, List.mem_append, List.mem_singleton] at hv
    rcases hv with hv | rfl
    · obtain ⟨hv, hw⟩ := List.mem_filter.mp hv
      exact hs.fair u k v hu hv hw
    · exact lt_size_of_inbox (by rw [hu]; exact nofun)

theorem leave (hs : p.Sorted) (t : Ticket) : (p.leaveLine t).Sorted := by
  have hline : (p.leaveLine t).line = p.line := by rw [leaveLine_eq]
  refine ⟨hline ▸ hs.ascending, ?_, ?_⟩
  · intro u hu
    rw [hline] at hu
    exact size_leaveLine p t ▸ hs.known u hu
  · intro u k v hu hv hw
    rw [delivered_leaveLine] at hu
    rw [isWaiting_iff, waiting_leaveLine] at hw
    exact hs.fair u k v hu (hline ▸ hv) (isWaiting_iff.mpr hw.1)

end Sorted

namespace Orderly

theorem calm (ho : p.Orderly) (hc : Calm p q) : q.Orderly where
  toSorted := ho.toSorted.calm hc
  standard := hc.standard.trans ho.standard
  prompt t ht hw := List.eq_nil_iff_forall_not_mem.mpr fun k hk => by
    have hnone := ho.prompt t (hc.line.subset ht) (hc.isWaiting hw)
    exact List.eq_nil_iff_forall_not_mem.mp hnone k (hc.offered k hk)

theorem shrink (ho : p.Orderly) (hi : q.inboxes = p.inboxes) (hl : q.line = p.line)
    (hc : q.chooser = p.chooser)
    (hoffered : ∀ k ∈ q.proxiesIn .available, k ∈ p.proxiesIn .available) : q.Orderly where
  toSorted := ho.toSorted.congr hi (hl ▸ .refl _)
  standard := hc ▸ ho.standard
  prompt t ht hw := List.eq_nil_iff_forall_not_mem.mpr fun k hk => by
    rw [isWaiting_congr hi] at hw
    exact List.eq_nil_iff_forall_not_mem.mp (ho.prompt t (hl ▸ ht) hw) k (hoffered k hk)

theorem handOut (ho : p.Orderly) (hs : p.state? h = some .available) :
    (p.handOut h).Orderly := by
  obtain ⟨records, registry, census, trace, he⟩ := handOut_frame p h
  exact ho.shrink (by rw [he]) (by rw [he]) (by rw [he]) fun k hk => (offered_handOut hs hk).2

theorem transfer (ho : p.Orderly) {s t : Lifecycle} (hs : p.state? h = some s) (hst : s ≠ t)
    (ht : t ≠ .available) : (p.transfer h s t).Orderly := by
  obtain ⟨records, registry, census, trace, he⟩ := transfer_frame p h s t
  exact ho.shrink (by rw [he]) (by rw [he]) (by rw [he]) fun k hk =>
    (offered_transfer hs hst hk).resolve_left fun hk => ht hk.2

/-- A proxy that becomes available does not stay so if anybody waits. -/
theorem free (ho : p.Orderly) {s : Lifecycle} (hs : p.state? h = some s) (hne : s ≠ .available) :
    (p.free h s).Orderly := by
  obtain ⟨records, registry, census, trace, he⟩ := transfer_frame p h s .available
  have hinboxes : (p.transfer h s .available).inboxes = p.inboxes := by rw [he]
  have hline : (p.transfer h s .available).line = p.line := by rw [he]
  have hchooser : (p.transfer h s .available).chooser = p.chooser := by rw [he]
  have hsorted := ho.toSorted.congr hinboxes (hline ▸ .refl _)
  rcases free_cases hs hne with ⟨hl, hf⟩ | ⟨t, others, hl, ha, hf⟩
  · rw [hf]
    refine ⟨hsorted.calm (calm_trimmed _), hchooser ▸ ho.standard, ?_⟩
    intro t ht
    rw [trimmed, hl] at ht
    cases ht
  · rw [hf]
    have hfirst := first?_of_dropWhile hl
    have hw := isWaiting_of_first hfirst
    have ht := mem_line_of_first hfirst
    rw [isWaiting_congr hinboxes] at hw
    rw [hline] at ht
    have hnone := ho.prompt t ht hw
    refine ⟨hsorted.deliver hl, ?_, fun u _ _ => List.eq_nil_iff_forall_not_mem.mpr ?_⟩
    · obtain ⟨_, _, _, _, hd⟩ := deliver_frame (p.transfer h s .available) t others h
      rw [hd]
      exact hchooser ▸ ho.standard
    · intro k hk
      have hsent : (({ p.transfer h s .available with line := others } : Pool).setInbox t
          (.delivered h)).state? h = some .available := ha
      obtain ⟨hkh, hk⟩ := offered_handOut hsent hk
      rcases offered_transfer hs hne hk with ⟨hkh', _⟩ | hk
      · exact hkh hkh'
      · exact List.eq_nil_iff_forall_not_mem.mp hnone k hk

theorem leave (ho : p.Orderly) (t : Ticket) : (p.leaveLine t).Orderly := by
  refine ⟨ho.toSorted.leave t, ?_, ?_⟩
  · rw [leaveLine_eq]
    exact ho.standard
  · intro u hu hw
    rw [isWaiting_iff, waiting_leaveLine] at hw
    rw [leaveLine_eq] at hu ⊢
    exact ho.prompt u hu (isWaiting_iff.mpr hw.1)

theorem returned (ho : p.Orderly) (hr : Return h p q) : q.Orderly := by
  cases hr with
  | free hm hs => exact ho.free hs nofun
  | punish ht hm hs => rcases ht with rfl | rfl <;> exact ho.transfer hs nofun nofun

theorem reported (ho : p.Orderly) (hr : Reported h p q) : q.Orderly := by
  obtain ⟨r, hc, _, ⟨_, hreturn⟩ | ⟨_, rfl⟩⟩ := hr
  · exact (ho.calm hc.calm).returned hreturn
  · exact ho.calm hc.calm

end Orderly

/-! ### Whom a proxy is sent to -/

/-- A consumer who was sent a proxy meanwhile was the first in line who still waited. -/
def SendsToFirst (p q : Pool) : Prop :=
  ∀ t h, q.inbox t = .delivered h → p.inbox t = .delivered h ∨ p.first? = some t

theorem sendsToFirst_of_inbox (hi : ∀ t h, q.inbox t = .delivered h → p.inbox t = .delivered h) :
    SendsToFirst p q := fun t h ht => .inl (hi t h ht)

theorem free_sendsToFirst {s : Lifecycle} (hs : p.state? h = some s) (hne : s ≠ .available) :
    SendsToFirst p (p.free h s) := by
  obtain ⟨records, registry, census, trace, he⟩ := transfer_frame p h s .available
  rcases free_cases hs hne with ⟨_, hf⟩ | ⟨t, others, hl, _, hf⟩
  · rw [hf, he]
    exact sendsToFirst_of_inbox fun _ _ => id
  · intro u k hu
    have hfirst := first?_of_dropWhile hl
    rw [hf, inbox_deliver (waiting_of_dropWhile hl)] at hu
    rw [he] at hu hfirst
    split_ifs at hu with hut
    · exact .inr (hut ▸ hfirst)
    · exact .inl hu

theorem leaveLine_sendsToFirst (p : Pool) (t : Ticket) : SendsToFirst p (p.leaveLine t) :=
  sendsToFirst_of_inbox fun _ _ => (delivered_leaveLine p t _).mp

theorem SendsToFirst.after (hs : SendsToFirst q r) (hc : Calm p q) : SendsToFirst p r := by
  intro t h ht
  rcases hs t h ht with hq | hq
  · exact .inl (hc.delivered.mp hq)
  · rcases hc.first with hf | hl
    · exact .inr (hf ▸ hq)
    · rw [first?, hl] at hq
      cases hq

theorem Reported.sendsToFirst (hr : Reported h p q) : SendsToFirst p q := by
  obtain ⟨r, hc, _, ⟨_, hreturn⟩ | ⟨_, rfl⟩⟩ := hr
  · refine SendsToFirst.after ?_ hc.calm
    cases hreturn with
    | free hm hs => exact free_sendsToFirst hs nofun
    | punish ht hm hs =>
      obtain ⟨records, registry, census, trace, he⟩ := transfer_frame r h .inUse _
      rw [he]
      exact sendsToFirst_of_inbox fun _ _ => id
  · exact sendsToFirst_of_inbox fun _ _ => hc.calm.delivered.mp

end Pool

namespace Act

variable {c : Concern} {d e : Desk}

theorem orderly (ha : Act c d e) (ho : d.pool.Orderly) : e.pool.Orderly := by
  cases ha with
  | rest | turnAway => exact ho
  | free h hs => exact ho.free hs nofun
  | take h hs => exact ho.handOut hs
  | join wait deadline hq hc =>
    obtain ⟨hnone, hcalm⟩ := hc ho.standard
    have hjoined : d.pool.joinLine.2.Orderly := ⟨ho.toSorted.join, ho.standard, fun _ _ _ => hnone⟩
    exact hjoined.calm hcalm.calm
  | settle => exact ho.leave _

theorem sendsToFirst (ha : Act c d e) (ho : d.pool.Orderly) :
    Pool.SendsToFirst d.pool e.pool := by
  cases ha with
  | rest | turnAway => exact Pool.sendsToFirst_of_inbox fun _ _ => id
  | free h hs => exact Pool.free_sendsToFirst hs nofun
  | take h hs =>
    obtain ⟨records, registry, census, trace, he⟩ := Pool.handOut_frame d.pool h
    rw [he]
    exact Pool.sendsToFirst_of_inbox fun _ _ => id
  | join wait deadline hq hc =>
    refine Pool.sendsToFirst_of_inbox fun t h ht => ?_
    rw [(hc ho.standard).2.calm.delivered, Pool.inbox_joinLine] at ht
    split_ifs at ht
    exact ht
  | settle => exact Pool.leaveLine_sendsToFirst _ _

end Act

namespace World

variable {w v : World}

theorem perform_orderly (w : World) (a : Action) (ho : w.pool.Orderly) :
    (w.perform a).pool.Orderly := by
  rcases perform_cases w a with ⟨p, hc, hact⟩ | ⟨h, _, hr, _⟩ | ⟨i, t, wait, deadline, _, hd⟩
  · exact hact.orderly (ho.calm hc.calm)
  · exact ho.reported hr
  · rw [show (w.perform a).pool = w.pool.leaveLine t from congrArg Desk.pool hd]
    exact ho.leave t

theorem perform_sendsToFirst (w : World) (a : Action) (ho : w.pool.Orderly) :
    Pool.SendsToFirst w.pool (w.perform a).pool := by
  rcases perform_cases w a with ⟨p, hc, hact⟩ | ⟨h, _, hr, _⟩ | ⟨i, t, wait, deadline, _, hd⟩
  · exact (hact.sendsToFirst (ho.calm hc.calm)).after hc.calm
  · exact hr.sendsToFirst
  · rw [show (w.perform a).pool = w.pool.leaveLine t from congrArg Desk.pool hd]
    exact Pool.leaveLine_sendsToFirst _ _

end World

/-- With a standard chooser nobody in line waits while a registered proxy is available, and
every step that sends somebody a proxy sends it to the first in line who still waits. -/
theorem line_served_in_order (settings : Settings) (sources : List String) {chooser : Chooser}
    (now : Instant) (content : List (Record Float)) (hc : chooser.isStandard = true) {w : World}
    (hw : (World.opening settings sources chooser now content).Reaches w) :
    w.pool.line.Pairwise (· < ·) ∧
    (∀ t ∈ w.pool.line, w.pool.isWaiting t = true → w.pool.proxiesIn .available = []) ∧
    ∀ a, w.Enabled a = true → ∀ t h, (w.perform a).pool.inbox t = .delivered h →
      w.pool.inbox t ≠ .delivered h →
        w.pool.line.find? w.pool.isWaiting = some t ∧
        ∀ u ∈ (w.perform a).pool.line, (w.perform a).pool.isWaiting u = true → t < u := by
  have hopen : (World.opening settings sources chooser now content).pool.Orderly :=
    ⟨⟨List.Pairwise.nil, nofun, nofun⟩, hc, nofun⟩
  have ho : w.pool.Orderly :=
    hw.keep (P := fun w => w.pool.Orderly) (fun w a _ => World.perform_orderly w a) hopen
  refine ⟨ho.ascending, ho.prompt, fun a _ t h ht hn => ⟨?_, ?_⟩⟩
  · exact (World.perform_sendsToFirst w a ho t h ht).resolve_left hn
  · exact fun u hu hwait => (World.perform_orderly w a ho).fair t h u ht hu hwait

/-- Two consumers wait for one proxy, and its probe ends well. -/
theorem line_served_in_order_after_probe :
    ∃ w, (World.opening .standard ["s"] (.roundRobin 0) 0 []).run?
        [.start, .supplyPass 0 (.ok [.plain "a" 1 .http]), .get none, .get none, .take 0] = some w ∧
      w.pool.line = [0, 1] ∧ w.pool.proxiesIn .available = [] ∧
      (w.perform (.conclude 0 (.success 0 .zero 200))).pool.inbox 0 = .delivered 0 ∧
      w.pool.line.find? w.pool.isWaiting = some 0 := by
  let actions : List Action :=
    [.start, .supplyPass 0 (.ok [.plain "a" 1 .http]), .get none, .get none, .take 0]
  let conclude : Action := .conclude 0 (.success 0 .zero 200)
  have hrun : ((World.opening .standard ["s"] (.roundRobin 0) 0 []).run? actions).map
      (fun w => decide (w.pool.line = [0, 1] ∧ w.pool.isWaiting 0 = true ∧
        w.Enabled conclude = true ∧ (w.perform conclude).pool.inbox 0 = .delivered 0 ∧
        w.pool.inbox 0 ≠ .delivered 0)) = some true := by decide +kernel
  obtain ⟨w, hw, hfacts⟩ := Option.map_eq_some_iff.mp hrun
  obtain ⟨hline, hwaits, henabled, hsent, hunsent⟩ := of_decide_eq_true hfacts
  obtain ⟨_, hprompt, hserved⟩ := line_served_in_order .standard ["s"] 0 [] rfl ⟨actions, hw⟩
  exact ⟨w, hw, hline, hprompt 0 (by rw [hline]; decide) hwaits, hsent,
    (hserved conclude henabled 0 0 hsent hunsent).1⟩

end ProxyLease
