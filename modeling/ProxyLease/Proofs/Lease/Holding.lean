import ProxyLease.Proofs.Lease.Delivery

/-!
# Who holds a proxy

A proxy in use is held by the call it was returned to, as long as that call has not
reported, or by the channel of a consumer to whom it was sent and whose call has not
picked it up. Every proxy in use is held by exactly one of them, and nobody holds a
proxy that is not in use.
-/

namespace ProxyLease

inductive Party where
  | consumer (call : CallId)
  | channel (ticket : Ticket)
  deriving DecidableEq

/-! ### Exclusive holding -/

/-- What is in use is what somebody holds, and nothing is held by two. -/
structure Exclusive (holds : Party → Handle → Prop) (inUse : Handle → Prop) : Prop where
  inUse_iff : ∀ h, inUse h ↔ ∃ a, holds a h
  unique : ∀ a b h, holds a h → holds b h → a = b

namespace Exclusive

variable {holds holds' : Party → Handle → Prop} {inUse inUse' : Handle → Prop}
  {a giver : Party} {h : Handle}

theorem congr (he : Exclusive holds inUse) (hholds : ∀ a k, holds' a k ↔ holds a k)
    (hinUse : ∀ k, inUse' k ↔ inUse k) : Exclusive holds' inUse' where
  inUse_iff k := by simp only [hinUse, hholds, he.inUse_iff]
  unique a b k ha hb := he.unique a b k ((hholds a k).mp ha) ((hholds b k).mp hb)

theorem grant (he : Exclusive holds inUse) (hfree : ¬inUse h)
    (hholds : ∀ b k, holds' b k ↔ holds b k ∨ b = a ∧ k = h)
    (hinUse : ∀ k, inUse' k ↔ inUse k ∨ k = h) : Exclusive holds' inUse' where
  inUse_iff k := by
    rw [hinUse, he.inUse_iff]
    constructor
    · rintro (⟨b, hb⟩ | hk)
      · exact ⟨b, (hholds b k).mpr (.inl hb)⟩
      · exact ⟨a, (hholds a k).mpr (.inr ⟨rfl, hk⟩)⟩
    · rintro ⟨b, hb⟩
      exact ((hholds b k).mp hb).imp (fun hb => ⟨b, hb⟩) And.right
  unique b c k hb hc := by
    have hnone (b : Party) (hb : holds b h) : False := hfree ((he.inUse_iff h).mpr ⟨b, hb⟩)
    rcases (hholds b k).mp hb with hb | ⟨rfl, rfl⟩ <;> rcases (hholds c k).mp hc with hc | ⟨rfl, hk⟩
    · exact he.unique b c k hb hc
    · exact (hnone b (hk ▸ hb)).elim
    · exact (hnone c hc).elim
    · rfl

/-- One party passes what it holds on to another. -/
theorem pass (he : Exclusive holds inUse) (taker : Party) (hgiver : holds giver h)
    (hholds : ∀ b k, holds' b k ↔ holds b k ∧ b ≠ giver ∨ b = taker ∧ k = h)
    (honly : ∀ k, holds giver k → k = h) : Exclusive holds' inUse where
  inUse_iff k := by
    rw [he.inUse_iff]
    constructor
    · rintro ⟨b, hb⟩
      by_cases hbg : b = giver
      · exact ⟨taker, (hholds taker k).mpr (.inr ⟨rfl, honly k (hbg ▸ hb)⟩)⟩
      · exact ⟨b, (hholds b k).mpr (.inl ⟨hb, hbg⟩)⟩
    · rintro ⟨b, hb⟩
      rcases (hholds b k).mp hb with ⟨hb, _⟩ | ⟨_, rfl⟩
      · exact ⟨b, hb⟩
      · exact ⟨giver, hgiver⟩
  unique b c k hb hc := by
    rcases (hholds b k).mp hb with ⟨hb, hbg⟩ | ⟨rfl, rfl⟩ <;>
      rcases (hholds c k).mp hc with ⟨hc, hcg⟩ | ⟨rfl, hk⟩
    · exact he.unique b c k hb hc
    · exact absurd (he.unique b giver k hb (hk ▸ hgiver)) hbg
    · exact absurd (he.unique c giver _ hc hgiver) hcg
    · rfl

theorem release (he : Exclusive holds inUse) (hholds : ∀ b k, holds' b k ↔ holds b k ∧ k ≠ h)
    (hinUse : ∀ k, inUse' k ↔ inUse k ∧ k ≠ h) : Exclusive holds' inUse' where
  inUse_iff k := by
    rw [hinUse, he.inUse_iff]
    exact ⟨fun ⟨⟨b, hb⟩, hk⟩ => ⟨b, (hholds b k).mpr ⟨hb, hk⟩⟩,
      fun ⟨b, hb⟩ => ⟨⟨b, ((hholds b k).mp hb).1⟩, ((hholds b k).mp hb).2⟩⟩
  unique b c k hb hc := he.unique b c k ((hholds b k).mp hb).1 ((hholds c k).mp hc).1

end Exclusive

/-! ### Seats -/

/-- The ticket of a call that waits, or went away while it waited. -/
def Call.ticket? : Call → Option Ticket
  | .waiting t _ _ | .abandoned t => some t
  | _ => none

namespace Desk

variable {d e : Desk} {q : Pool} {i : CallId} {t : Ticket} {wait : Duration} {deadline : Instant}

def seat? (d : Desk) (i : CallId) : Option Ticket := (d.calls[i]?).bind Call.ticket?

theorem seat?_eq_some : d.seat? i = some t ↔
    (∃ wait deadline, d.calls[i]? = some (.waiting t wait deadline)) ∨
      d.calls[i]? = some (.abandoned t) := by
  rw [seat?]
  cases hi : d.calls[i]? with
  | none => simp
  | some c => cases c <;> simp [Call.ticket?]

theorem seat?_size (d : Desk) : d.seat? d.calls.size = none := by
  rw [seat?, Array.getElem?_size]
  rfl

theorem seat?_push (d : Desk) (q : Pool) (c : Call) (i : CallId) :
    (⟨q, d.calls.push c⟩ : Desk).seat? i = if i = d.calls.size then c.ticket? else d.seat? i := by
  rw [seat?, Array.getElem?_push, seat?]
  split_ifs <;> rfl

theorem seat?_push_of_none (d : Desk) (q : Pool) {c : Call} (hc : c.ticket? = none) (i : CallId) :
    (⟨q, d.calls.push c⟩ : Desk).seat? i = d.seat? i := by
  rw [seat?_push]
  split_ifs with hi
  · rw [hi, hc, seat?_size]
  · rfl

theorem seat?_of_waiting (hi : d.calls[i]? = some (.waiting t wait deadline)) :
    d.seat? i = some t := by
  rw [seat?, hi]
  rfl

theorem seat?_set {c c' : Call} (hi : d.calls[i]? = some c) (hc : c'.ticket? = none) (q : Pool)
    (j : CallId) : (⟨q, d.calls.setIfInBounds i c'⟩ : Desk).seat? j =
      if j = i then none else d.seat? j := by
  rw [seat?, getElem?_set_call hi, seat?]
  split_ifs
  · exact hc
  · rfl

theorem seat?_abandon (hi : d.calls[i]? = some (.waiting t wait deadline)) (q : Pool)
    (j : CallId) : (⟨q, d.calls.setIfInBounds i (.abandoned t)⟩ : Desk).seat? j = d.seat? j := by
  rw [seat?, seat?, getElem?_set_call hi]
  split_ifs with hj
  · rw [hj, hi]
    rfl
  · rfl

/-- Every ticket belongs to one call, as long as something may still be sent to it. -/
structure Seated (d : Desk) : Prop where
  known : ∀ i t, d.seat? i = some t → t < d.pool.inboxes.size
  single : ∀ i j t, d.seat? i = some t → d.seat? j = some t → i = j
  expected : ∀ t, d.pool.inbox t = .waiting → ∃ i, d.seat? i = some t

namespace Seated

/-- A desk at which the same calls have the same tickets and nobody new waits is seated. -/
theorem congr (hs : d.Seated) (hsize : e.pool.inboxes.size = d.pool.inboxes.size)
    (hwaiting : ∀ t, e.pool.inbox t = .waiting → d.pool.inbox t = .waiting)
    (hseat : ∀ i, e.seat? i = d.seat? i) : e.Seated where
  known i t hi := by
    rw [hsize]
    exact hs.known i t (hseat i ▸ hi)
  single i j t hi hj := hs.single i j t (hseat i ▸ hi) (hseat j ▸ hj)
  expected t ht := by
    simp only [hseat]
    exact hs.expected t (hwaiting t ht)

theorem calm (hs : d.Seated) (hc : Pool.Calm d.pool q) : (⟨q, d.calls⟩ : Desk).Seated :=
  hs.congr hc.size
    (fun _ ht => Pool.isWaiting_iff.mp (hc.isWaiting (Pool.isWaiting_iff.mpr ht))) fun _ => rfl

theorem of_inboxes (hs : d.Seated) (hi : q.inboxes = d.pool.inboxes) :
    (⟨q, d.calls⟩ : Desk).Seated :=
  hs.congr (congrArg Array.size hi) (fun t ht => by rwa [Pool.inbox, ← hi]) fun _ => rfl

theorem deliver (hs : d.Seated) (ht : d.pool.inbox t = .waiting) (others : List Ticket)
    (h : Handle) : (⟨d.pool.deliver t others h, d.calls⟩ : Desk).Seated := by
  have hsize : (d.pool.deliver t others h).inboxes.size = d.pool.inboxes.size := by
    obtain ⟨_, _, _, _, he⟩ := Pool.deliver_frame d.pool t others h
    rw [he]
    exact Array.size_setIfInBounds
  refine hs.congr hsize (fun u hu => ?_) fun _ => rfl
  rw [Pool.inbox_deliver ht] at hu
  split_ifs at hu
  exact hu

theorem push (hs : d.Seated) {c : Call} (hc : c.ticket? = none)
    (hi : q.inboxes = d.pool.inboxes) : (⟨q, d.calls.push c⟩ : Desk).Seated :=
  hs.congr (congrArg Array.size hi) (fun t ht => by rwa [Pool.inbox, ← hi])
    (seat?_push_of_none d q hc)

theorem join (hs : d.Seated) (wait : Duration) (deadline : Instant) :
    (⟨d.pool.joinLine.2, d.calls.push (.waiting d.pool.inboxes.size wait deadline)⟩ :
      Desk).Seated := by
  have hseat (i : CallId) := seat?_push d d.pool.joinLine.2
    (.waiting d.pool.inboxes.size wait deadline) i
  have hsize : d.pool.joinLine.2.inboxes.size = d.pool.inboxes.size + 1 := Array.size_push _
  have hnew {i : CallId} (hi : d.seat? i = some d.pool.inboxes.size) : False :=
    Nat.lt_irrefl _ (hs.known i _ hi)
  refine ⟨?_, ?_, ?_⟩
  · intro i u hi
    rw [hseat] at hi
    rw [hsize]
    split_ifs at hi
    · cases hi
      exact Nat.lt_succ_self _
    · exact Nat.lt_succ_of_lt (hs.known i u hi)
  · intro i j u hi hj
    rw [hseat] at hi hj
    split_ifs at hi hj with hin hjn hjn
    · rw [hin, hjn]
    · cases hi
      exact (hnew hj).elim
    · cases hj
      exact (hnew hi).elim
    · exact hs.single i j u hi hj
  · intro u hu
    rw [Pool.inbox_joinLine] at hu
    split_ifs at hu with hun
    · refine ⟨d.calls.size, ?_⟩
      rw [hseat, if_pos rfl, hun]
      rfl
    · obtain ⟨i, hi⟩ := hs.expected u hu
      refine ⟨i, ?_⟩
      rw [hseat, if_neg ?_]
      · exact hi
      · rintro rfl
        rw [seat?_size] at hi
        cases hi

theorem settle (hs : d.Seated) {c' : Call}
    (hi : d.calls[i]? = some (.waiting t wait deadline)) (hc : c'.ticket? = none) :
    (⟨d.pool.leaveLine t, d.calls.setIfInBounds i c'⟩ : Desk).Seated := by
  have hseat (j : CallId) := seat?_set hi hc (d.pool.leaveLine t) j
  refine ⟨?_, ?_, ?_⟩
  · intro j u hj
    rw [hseat] at hj
    split_ifs at hj
    rw [Pool.size_leaveLine]
    exact hs.known j u hj
  · intro j k u hj hk
    rw [hseat] at hj hk
    split_ifs at hj hk
    exact hs.single j k u hj hk
  · intro u hu
    obtain ⟨hu, hut⟩ := (Pool.waiting_leaveLine _ _ _).mp hu
    obtain ⟨j, hj⟩ := hs.expected u hu
    refine ⟨j, ?_⟩
    rw [hseat, if_neg]
    · exact hj
    · rintro rfl
      exact hut (Option.some.inj (hj.symm.trans (seat?_of_waiting hi)))

/-- Who goes away keeps the ticket. -/
theorem abandon (hs : d.Seated) (hi : d.calls[i]? = some (.waiting t wait deadline)) :
    (⟨d.pool.leaveLine t, d.calls.setIfInBounds i (.abandoned t)⟩ : Desk).Seated :=
  hs.congr (Pool.size_leaveLine _ _) (fun _ hu => ((Pool.waiting_leaveLine _ _ _).mp hu).1)
    (seat?_abandon hi _)

end Seated

/-- Who holds what, when some calls have reported. -/
def Holds (d : Desk) (reported : CallId → Prop) : Party → Handle → Prop
  | .consumer i, h => d.calls[i]? = some (.returned h) ∧ ¬reported i
  | .channel t, h => d.pool.inbox t = .delivered h ∧ ∃ i, d.seat? i = some t

/-- Every proxy in use is held by exactly one party, and only returned proxies are
reported on. -/
structure Leased (reported : CallId → Prop) (d : Desk) : Prop where
  seated : d.Seated
  given : ∀ i, reported i → ∃ h, d.calls[i]? = some (.returned h)
  exclusive : Exclusive (d.Holds reported) fun h => d.pool.state? h = some .inUse

namespace Leased

variable {reported : CallId → Prop} {h : Handle}

/-- What consumers cannot tell from before leaves the leases as they are. -/
theorem congr (hl : Leased reported d) (hsize : e.pool.inboxes.size = d.pool.inboxes.size)
    (hdelivered : ∀ t h, e.pool.inbox t = .delivered h ↔ d.pool.inbox t = .delivered h)
    (hwaiting : ∀ t, e.pool.inbox t = .waiting → d.pool.inbox t = .waiting)
    (hinUse : ∀ h, e.pool.state? h = some .inUse ↔ d.pool.state? h = some .inUse)
    (hseat : ∀ i, e.seat? i = d.seat? i)
    (hreturned : ∀ (i : CallId) (h : Handle),
      e.calls[i]? = some (Call.returned h) ↔ d.calls[i]? = some (Call.returned h)) :
    Leased reported e where
  seated := hl.seated.congr hsize hwaiting hseat
  given i hi := by
    simp only [hreturned]
    exact hl.given i hi
  exclusive := by
    refine hl.exclusive.congr (fun a k => ?_) hinUse
    cases a with
    | consumer i => simp only [Holds, hreturned]
    | channel t => simp only [Holds, hdelivered, hseat]

theorem calm (hl : Leased reported d) (hc : Pool.Calm d.pool q) : Leased reported ⟨q, d.calls⟩ :=
  hl.congr hc.size (fun _ _ => hc.delivered)
    (fun _ ht => Pool.isWaiting_iff.mp (hc.isWaiting (Pool.isWaiting_iff.mpr ht))) hc.inUse
    (fun _ => rfl) fun _ _ => Iff.rfl

theorem transfer (hl : Leased reported d) {s s' : Lifecycle} (hs : d.pool.state? h = some s)
    (hss : s ≠ s') (hsource : s ≠ .inUse) (htarget : s' ≠ .inUse) :
    Leased reported ⟨d.pool.transfer h s s', d.calls⟩ := by
  have hstate (k : Handle) := Pool.state?_transfer (k := k) hs hss
  obtain ⟨records, registry, census, trace, he⟩ := Pool.transfer_frame d.pool h s s'
  refine hl.congr (by rw [he]) (fun _ _ => by rw [he]; exact Iff.rfl)
    (fun _ => by rw [he]; exact id) (fun k => ?_) (fun _ => rfl) fun _ _ => Iff.rfl
  rw [hstate]
  split_ifs with hkh
  · rw [hkh, hs]
    simp [hsource, htarget]
  · exact Iff.rfl

theorem inUse_ite (h k : Handle) (s : Option Lifecycle) :
    (if k = h then some .inUse else s) = some .inUse ↔ s = some .inUse ∨ k = h := by
  by_cases hk : k = h
  · simp [hk]
  · simp [hk]

theorem deliver (hl : Leased reported d) {others : List Ticket} (ht : d.pool.inbox t = .waiting)
    (hs : d.pool.state? h = some .available) :
    Leased reported ⟨d.pool.deliver t others h, d.calls⟩ := by
  have hinbox := Pool.inbox_deliver ht others h
  have hstate (k : Handle) : (d.pool.deliver t others h).state? k =
      if k = h then some .inUse else d.pool.state? k := Pool.state?_handOut hs
  refine ⟨hl.seated.deliver ht others h, hl.given, ?_⟩
  refine hl.exclusive.grant (a := .channel t) (h := h) (by rw [hs]; exact nofun)
    (fun b k => ?_) fun k => ?_
  · cases b with
    | consumer i => simp [Holds]
    | channel u =>
      obtain ⟨i, hi⟩ := hl.seated.expected t ht
      simp only [Holds, hinbox, Party.channel.injEq]
      by_cases hut : u = t
      · subst hut
        simp only [if_pos, Inbox.delivered.injEq, ht, true_and]
        refine ⟨fun ⟨hk, _⟩ => .inr hk.symm, ?_⟩
        rintro (⟨hk, _⟩ | rfl)
        · cases hk
        · exact ⟨rfl, i, hi⟩
      · simp only [hut, if_false, false_and, or_false]
        exact Iff.rfl
  · rw [hstate]
    exact inUse_ite h k _

theorem not_reported_size (hl : Leased reported d) : ¬reported d.calls.size := fun hr => by
  obtain ⟨h, hh⟩ := hl.given _ hr
  rw [Array.getElem?_size] at hh
  cases hh

theorem given_push (hl : Leased reported d) (c : Call) (hi : reported i) :
    ∃ h, (d.calls.push c)[i]? = some (.returned h) := by
  obtain ⟨h, hh⟩ := hl.given i hi
  refine ⟨h, ?_⟩
  rw [Array.getElem?_push, if_neg]
  · exact hh
  · rintro rfl
    exact hl.not_reported_size hi

theorem take (hl : Leased reported d) (hs : d.pool.state? h = some .available) :
    Leased reported ⟨d.pool.handOut h, d.calls.push (.returned h)⟩ := by
  have hseat := seat?_push_of_none d (d.pool.handOut h) (c := .returned h) rfl
  have hstate (k : Handle) := Pool.state?_handOut (k := k) hs
  have hcall (i : CallId) : (d.calls.push (.returned h))[i]? =
      if i = d.calls.size then some (.returned h) else d.calls[i]? := Array.getElem?_push
  obtain ⟨records, registry, census, trace, he⟩ := Pool.handOut_frame d.pool h
  have hinbox (u : Ticket) : (d.pool.handOut h).inbox u = d.pool.inbox u := by
    rw [he]
    rfl
  refine ⟨hl.seated.push rfl (by rw [he]), ?_, ?_⟩
  · intro i hi
    exact hl.given_push _ hi
  · refine hl.exclusive.grant (a := .consumer d.calls.size) (h := h) (by rw [hs]; exact nofun)
      (fun b k => ?_) fun k => ?_
    · cases b with
      | consumer i =>
        simp only [Holds, hcall, Party.consumer.injEq]
        by_cases hi : i = d.calls.size
        · simp [hi, hl.not_reported_size, eq_comm]
        · simp [hi]
      | channel u => simp [Holds, hinbox, hseat]
    · rw [hstate]
      exact inUse_ite h k _

theorem turnAway (hl : Leased reported d) {c : Call}
    (hc : c = .empty ∨ ∃ failure, c = .refused failure) :
    Leased reported ⟨d.pool, d.calls.push c⟩ := by
  have hticket : c.ticket? = none := by rcases hc with rfl | ⟨failure, rfl⟩ <;> rfl
  refine hl.congr rfl (fun _ _ => Iff.rfl) (fun _ => id) (fun _ => Iff.rfl)
    (seat?_push_of_none d _ hticket) fun i k => ?_
  rw [Array.getElem?_push]
  split_ifs with hi
  · rw [hi, Array.getElem?_size]
    rcases hc with rfl | ⟨failure, rfl⟩ <;> simp
  · exact Iff.rfl

theorem join (hl : Leased reported d) (wait : Duration) (deadline : Instant) :
    Leased reported
      ⟨d.pool.joinLine.2, d.calls.push (.waiting d.pool.inboxes.size wait deadline)⟩ := by
  have hseat (i : CallId) := seat?_push d d.pool.joinLine.2
    (.waiting d.pool.inboxes.size wait deadline) i
  have hinbox (u : Ticket) := Pool.inbox_joinLine d.pool u
  have hcall (i : CallId) : (d.calls.push (.waiting d.pool.inboxes.size wait deadline))[i]? =
      if i = d.calls.size then some (.waiting d.pool.inboxes.size wait deadline)
      else d.calls[i]? := Array.getElem?_push
  have hnew {i : CallId} (hi : d.seat? i = some d.pool.inboxes.size) : False :=
    Nat.lt_irrefl _ (hl.seated.known i _ hi)
  refine ⟨hl.seated.join wait deadline, ?_, ?_⟩
  · intro i hi
    exact hl.given_push _ hi
  · refine hl.exclusive.congr (fun b k => ?_) fun _ => Iff.rfl
    cases b with
    | consumer i =>
      simp only [Holds, hcall]
      by_cases hi : i = d.calls.size
      · simp [hi]
      · simp [hi]
    | channel u =>
      simp only [Holds, hinbox, hseat]
      by_cases hun : u = d.pool.inboxes.size
      · simp only [hun, if_true]
        exact ⟨fun hu => (nomatch hu.1), fun ⟨_, i, hi⟩ => (hnew hi).elim⟩
      · rw [if_neg hun]
        refine and_congr_right fun _ => exists_congr fun i => ?_
        split_ifs with hi
        · rw [hi, seat?_size]
          simp [Call.ticket?, Ne.symm hun]
        · exact Iff.rfl

/-- Who goes away leaves the inbox behind, with whatever is in it. -/
theorem abandon (hl : Leased reported d)
    (hi : d.calls[i]? = some (.waiting t wait deadline)) :
    Leased reported ⟨d.pool.leaveLine t, d.calls.setIfInBounds i (.abandoned t)⟩ := by
  have hcall (j : CallId) := getElem?_set_call hi (.abandoned t) j
  refine hl.congr (Pool.size_leaveLine _ _) (fun _ _ => Pool.delivered_leaveLine _ _ _)
    (fun _ hu => ((Pool.waiting_leaveLine _ _ _).mp hu).1) (fun k => ?_) (seat?_abandon hi _)
    fun j k => ?_
  · rw [Pool.leaveLine_eq]
    exact Iff.rfl
  · rw [hcall]
    split_ifs with hj
    · rw [hj, hi]
      simp
    · exact Iff.rfl

theorem not_reported (hl : Leased reported d)
    (hi : d.calls[i]? = some (.waiting t wait deadline)) : ¬reported i := fun hr => by
  obtain ⟨h, hh⟩ := hl.given i hr
  rw [hi] at hh
  cases hh

/-- Of the channels only that of the call itself is affected when a call stops waiting. -/
theorem channel_settle (hl : Leased reported d) {c' : Call}
    (hi : d.calls[i]? = some (.waiting t wait deadline)) (hc : c'.ticket? = none) (u : Ticket)
    (k : Handle) :
    (⟨d.pool.leaveLine t, d.calls.setIfInBounds i c'⟩ : Desk).Holds reported (.channel u) k ↔
      d.Holds reported (.channel u) k ∧ u ≠ t := by
  have hmine := seat?_of_waiting hi
  simp only [Holds, Pool.delivered_leaveLine, seat?_set hi hc]
  refine ⟨?_, fun ⟨⟨hu, j, hj⟩, hut⟩ => ⟨hu, j, ?_⟩⟩
  · rintro ⟨hu, j, hj⟩
    split_ifs at hj with hji
    refine ⟨⟨hu, j, hj⟩, ?_⟩
    rintro rfl
    exact hji (hl.seated.single j i u hj hmine)
  · rw [if_neg]
    · exact hj
    · rintro rfl
      exact hut (Option.some.inj (hj.symm.trans hmine))

theorem settle (hl : Leased reported d)
    (hi : d.calls[i]? = some (.waiting t wait deadline)) (cause : WaitEnd) :
    Leased reported ⟨d.pool.leaveLine t,
      d.calls.setIfInBounds i (World.Call.ofResult (Pool.waitResult (d.pool.inbox t) cause))⟩ := by
  have hc : (World.Call.ofResult (Pool.waitResult (d.pool.inbox t) cause)).ticket? = none := by
    cases Pool.waitResult (d.pool.inbox t) cause <;> rfl
  have hreported := hl.not_reported hi
  have hinUse (k : Handle) :
      (d.pool.leaveLine t).state? k = some .inUse ↔ d.pool.state? k = some .inUse := by
    rw [Pool.leaveLine_eq]
    exact Iff.rfl
  refine ⟨hl.seated.settle hi hc, ?_, ?_⟩
  · intro j hj
    obtain ⟨k, hk⟩ := hl.given j hj
    refine ⟨k, ?_⟩
    rw [getElem?_set_call hi, if_neg fun hji : j = i => hreported (hji ▸ hj)]
    exact hk
  · by_cases hsent : ∃ k, d.pool.inbox t = .delivered k
    · obtain ⟨h, hh⟩ := hsent
      have hheld : d.Holds reported (.channel t) h := ⟨hh, i, seat?_of_waiting hi⟩
      have honly (k : Handle) (hk : d.Holds reported (.channel t) k) : k = h :=
        Inbox.delivered.inj (hk.1.symm.trans hh)
      refine (hl.exclusive.pass (.consumer i) hheld (fun b k => ?_) honly).congr
        (fun _ _ => Iff.rfl) hinUse
      cases b with
      | consumer j =>
        simp only [Holds, getElem?_set_call hi, hh, Pool.waitResult_delivered]
        by_cases hji : j = i
        · simp [hji, hi, hreported, World.Call.ofResult, eq_comm]
        · simp [hji]
      | channel u => simp [hl.channel_settle hi hc]
    · have hn (k : Handle) (hk : d.pool.inbox t = .delivered k) : False := hsent ⟨k, hk⟩
      obtain ⟨failure, hfailure⟩ := Pool.waitResult_eq_error hn cause
      refine hl.exclusive.congr (fun b k => ?_) hinUse
      cases b with
      | consumer j =>
        simp only [Holds, getElem?_set_call hi, hfailure]
        by_cases hji : j = i
        · simp [hji, hi, World.Call.ofResult]
        · simp [hji]
      | channel u =>
        rw [hl.channel_settle hi hc]
        exact and_iff_left_of_imp fun ⟨hu, _⟩ hut => hn k (hut ▸ hu)

/-! ### Acts -/

theorem offered (hl : Leased reported d) (hs : d.pool.state? h = some .available) :
    Leased reported ⟨(d.pool.offer h).2, d.calls⟩ := by
  rcases Pool.offer_cases d.pool h with ⟨_, ho⟩ | ⟨hn, _⟩ | ⟨t, others, hl', _, ho⟩
  · rw [ho]
    exact hl.calm (Pool.calm_trimmed _)
  · exact absurd hs hn
  · rw [ho]
    exact hl.deliver (Pool.waiting_of_dropWhile hl') hs

theorem free (hl : Leased reported d) (hs : d.pool.state? h = some .validating) :
    Leased reported ⟨d.pool.free h .validating, d.calls⟩ := by
  have hmoved := hl.transfer hs (show Lifecycle.validating ≠ .available by decide)
    (by decide) (by decide)
  have havailable : (d.pool.transfer h .validating .available).state? h = some .available := by
    rw [Pool.state?_transfer hs (by decide), if_pos rfl]
  exact hmoved.offered havailable

theorem services {c : Concern} (hl : Leased reported d) (hq : Pool.Services c d.pool q) :
    Leased reported ⟨q, d.calls⟩ := by
  refine hq.keep (P := fun p => Leased reported ⟨p, d.calls⟩) (fun hstep hp => ?_) hl
  cases hstep with
  | change hc => exact hp.calm hc.calm
  | deliver h hl' hs => exact hp.deliver (Pool.waiting_of_dropWhile hl') hs

theorem act {c : Concern} (hl : Leased reported d) (ha : Act c d e) : Leased reported e := by
  cases ha with
  | rest => exact hl
  | free h hs => exact hl.free hs
  | take h hs => exact hl.take hs
  | turnAway hc => exact hl.turnAway hc
  | join wait deadline hq hc => exact (hl.join wait deadline).services hq
  | settle hi cause => exact hl.settle hi cause

theorem stretch {c : Concern} (hl : Leased reported d) (hs : Stretch c d e) : Leased reported e := by
  obtain ⟨p, hc, ha⟩ := hs
  exact (hl.calm hc.calm).act ha

/-! ### Reports -/

theorem giveBack (hl : Leased reported d) {s : Lifecycle} (hi : d.Holds reported (.consumer i) h)
    (hs : s ≠ .inUse) :
    Leased (fun j => reported j ∨ j = i) ⟨d.pool.transfer h .inUse s, d.calls⟩ := by
  have hinUse : d.pool.state? h = some .inUse := (hl.exclusive.inUse_iff h).mpr ⟨_, hi⟩
  have hstate (k : Handle) := Pool.state?_transfer (k := k) hinUse hs.symm
  obtain ⟨records, registry, census, trace, he⟩ := Pool.transfer_frame d.pool h .inUse s
  have hinbox (u : Ticket) : (d.pool.transfer h .inUse s).inbox u = d.pool.inbox u := by
    rw [he]
    rfl
  refine ⟨hl.seated.of_inboxes (by rw [he]), ?_, ?_⟩
  · intro j hj
    rcases hj with hj | rfl
    · exact hl.given j hj
    · exact ⟨h, hi.1⟩
  · refine hl.exclusive.release (h := h) (fun b k => ?_) fun k => ?_
    · have hunique (hb : d.Holds reported b h) : b = .consumer i :=
        hl.exclusive.unique b (.consumer i) h hb hi
      cases b with
      | consumer j =>
        constructor
        · rintro ⟨hj, hn⟩
          have hnot : ¬reported j := fun hr => hn (.inl hr)
          refine ⟨⟨hj, hnot⟩, ?_⟩
          rintro rfl
          exact hn (.inr (Party.consumer.inj (hunique ⟨hj, hnot⟩)))
        · rintro ⟨⟨hj, hn⟩, hk⟩
          refine ⟨hj, ?_⟩
          rintro (hr | rfl)
          · exact hn hr
          · exact hk (Call.returned.inj (Option.some.inj (hj.symm.trans hi.1)))
      | channel u =>
        simp only [Holds, hinbox]
        refine ⟨fun hu => ⟨hu, ?_⟩, And.left⟩
        rintro rfl
        cases hunique hu
    · rw [hstate]
      split_ifs with hkh
      · simp [hkh, hs]
      · simp [hkh]

theorem returned (hl : Leased reported d) (hi : d.Holds reported (.consumer i) h)
    (hr : Pool.Return h d.pool q) : Leased (fun j => reported j ∨ j = i) ⟨q, d.calls⟩ := by
  cases hr with
  | free hm hs =>
    have hback := hl.giveBack hi (show Lifecycle.available ≠ .inUse by decide)
    have havailable : (d.pool.transfer h .inUse .available).state? h = some .available := by
      rw [Pool.state?_transfer hs (by decide), if_pos rfl]
    exact hback.offered havailable
  | punish ht hm hs => exact hl.giveBack hi (by rcases ht with rfl | rfl <;> decide)

end Leased
end Desk
end ProxyLease
