import ProxyLease.Proofs.World.Stretch

/-!
# Deliveries

What was sent to a consumer stays in the inbox, whatever the pool does, and it is what
the call returns that waits for it. Only a caller who goes away leaves it behind.
-/

namespace ProxyLease

namespace Pool

variable {p q : Pool} {h : Handle} {t : Ticket}

/-- What was sent to an inbox is still in it. -/
def Kept (p q : Pool) : Prop := ∀ t h, p.inbox t = .delivered h → q.inbox t = .delivered h

theorem Calm.kept (hc : Calm p q) : Kept p q := fun _ _ => hc.delivered.mpr

theorem kept_transfer (p : Pool) (h : Handle) (s s' : Lifecycle) : Kept p (p.transfer h s s') := by
  obtain ⟨records, registry, census, trace, he⟩ := transfer_frame p h s s'
  rw [he]
  exact fun _ _ => id

theorem kept_handOut (p : Pool) (h : Handle) : Kept p (p.handOut h) := by
  obtain ⟨records, registry, census, trace, he⟩ := handOut_frame p h
  rw [he]
  exact fun _ _ => id

theorem kept_deliver {others : List Ticket} (ht : p.inbox t = .waiting) (h : Handle) :
    Kept p (p.deliver t others h) := by
  intro u k hu
  rw [inbox_deliver ht, if_neg]
  · exact hu
  · rintro rfl
    rw [ht] at hu
    cases hu

theorem kept_offer (p : Pool) (h : Handle) : Kept p (p.offer h).2 := by
  rcases offer_cases p h with ⟨_, ho⟩ | ⟨_, ho⟩ | ⟨t, others, hl, _, ho⟩
  · rw [ho]
    exact (calm_trimmed p).kept
  · rw [ho]
    exact (calm_trimmed p).kept
  · rw [ho]
    exact kept_deliver (waiting_of_dropWhile hl) h

theorem kept_free (p : Pool) (h : Handle) (s : Lifecycle) : Kept p (p.free h s) :=
  fun t k ht => kept_offer _ h t k (kept_transfer p h s .available t k ht)

theorem Services.kept {c : Concern} (hs : Services c p q) : Kept p q := by
  refine hs.keep (P := Kept p) (fun hstep hq => ?_) fun _ _ => id
  cases hstep with
  | change hc => exact fun t h ht => hc.calm.kept t h (hq t h ht)
  | deliver k hl hs => exact fun u h hu => kept_deliver (waiting_of_dropWhile hl) k u h (hq u h hu)

theorem Reported.kept (hr : Reported h p q) : Kept p q := by
  obtain ⟨r, hc, _, ⟨_, hreturn⟩ | ⟨_, rfl⟩⟩ := hr
  · intro t k ht
    have hk := hc.calm.kept t k ht
    cases hreturn with
    | free => exact kept_free r h .inUse t k hk
    | punish => exact kept_transfer r h .inUse _ t k hk
  · exact hc.calm.kept

theorem kept_joinLine (p : Pool) : Kept p p.joinLine.2 := by
  intro u k hu
  rw [inbox_joinLine, if_neg]
  · exact hu
  · exact (lt_size_of_inbox (by rw [hu]; exact nofun)).ne

theorem kept_leaveLine (p : Pool) (t : Ticket) : Kept p (p.leaveLine t) :=
  fun u _ => (delivered_leaveLine p t u).mpr

theorem waitResult_delivered (h : Handle) (cause : WaitEnd) :
    waitResult (.delivered h) cause = .ok h := by
  cases cause <;> rfl

theorem waitResult_eq_error {inbox : Inbox} (hn : ∀ h, inbox ≠ .delivered h) (cause : WaitEnd) :
    ∃ failure, waitResult inbox cause = .error failure := by
  cases inbox with
  | delivered h => exact absurd rfl (hn h)
  | waiting | hungUp | closed => cases cause <;> exact ⟨_, rfl⟩

end Pool

/-! ### Calls -/

variable {c : Concern} {d e : Desk} {h : Handle} {i : CallId} {t : Ticket} {wait : Duration}
  {deadline : Instant}

theorem getElem?_set_call {calls : Array Call} {c : Call} (hi : calls[i]? = some c) (c' : Call)
    (j : CallId) : (calls.setIfInBounds i c')[j]? = if j = i then some c' else calls[j]? := by
  obtain ⟨hlt, _⟩ := Array.getElem?_eq_some_iff.mp hi
  by_cases hj : j = i
  · rw [hj, if_pos rfl, Array.getElem?_setIfInBounds_self_of_lt hlt]
  · rw [if_neg hj, Array.getElem?_setIfInBounds_ne (Ne.symm hj)]

theorem endCall_of_delivered {w : World} (hi : w.calls[i]? = some (.waiting t wait deadline))
    (ht : w.pool.inbox t = .delivered h) (cause : WaitEnd) :
    (w.endCall i cause).calls[i]? = some (.returned h) := by
  unfold World.endCall
  rw [hi]
  dsimp only [Pool.endGet]
  rw [getElem?_set_call hi, if_pos rfl, ht, Pool.waitResult_delivered]
  rfl

namespace Act

theorem kept (ha : Act c d e) : Pool.Kept d.pool e.pool := by
  cases ha with
  | rest | turnAway => exact fun _ _ => id
  | free h hs => exact Pool.kept_free d.pool h .validating
  | take h hs => exact Pool.kept_handOut d.pool h
  | join wait deadline hq hc =>
    exact fun t h ht => hq.kept t h (Pool.kept_joinLine d.pool t h ht)
  | settle => exact Pool.kept_leaveLine d.pool _

theorem abandoned (ha : Act c d e) (hi : e.calls[i]? = some (.abandoned t)) :
    d.calls[i]? = some (.abandoned t) := by
  cases ha with
  | rest | free => exact hi
  | take | join =>
    rw [Array.getElem?_push] at hi
    split_ifs at hi
    · cases hi
    · exact hi
  | turnAway hc =>
    rw [Array.getElem?_push] at hi
    split_ifs at hi
    · rcases hc with rfl | ⟨failure, rfl⟩ <;> cases hi
    · exact hi
  | settle hj cause =>
    rw [getElem?_set_call hj] at hi
    split_ifs at hi
    · cases hresult : Pool.waitResult (d.pool.inbox _) cause <;> rw [hresult] at hi <;> cases hi
    · exact hi

theorem gone (ha : Act c d e) (hi : d.calls[i]? = some (.abandoned t)) :
    e.calls[i]? = some (.abandoned t) := by
  have hlt : i < d.calls.size := (Array.getElem?_eq_some_iff.mp hi).1
  cases ha with
  | rest | free => exact hi
  | take | join | turnAway =>
    rw [Array.getElem?_push_lt hlt, ← Array.getElem?_eq_getElem hlt]
    exact hi
  | settle hj cause =>
    rw [getElem?_set_call hj, if_neg]
    · exact hi
    · rintro rfl
      cases hj.symm.trans hi

theorem promised (ha : Act c d e) (ht : d.pool.inbox t = .delivered h)
    (hi : d.calls[i]? = some (.waiting t wait deadline) ∨ d.calls[i]? = some (.returned h)) :
    e.calls[i]? = some (.waiting t wait deadline) ∨ e.calls[i]? = some (.returned h) := by
  have hlt : i < d.calls.size := by
    rcases hi with hi | hi <;> exact (Array.getElem?_eq_some_iff.mp hi).1
  cases ha with
  | rest | free => exact hi
  | take | join | turnAway =>
    rw [Array.getElem?_push_lt hlt, ← Array.getElem?_eq_getElem hlt]
    exact hi
  | settle hj cause =>
    rw [getElem?_set_call hj]
    split_ifs with hij
    · subst hij
      rcases hi with hi | hi
      · cases hj.symm.trans hi
        rw [ht, Pool.waitResult_delivered]
        exact .inr rfl
      · cases hj.symm.trans hi
    · exact hi

end Act
end ProxyLease
