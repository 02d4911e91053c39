import ProxyLease.Proofs.Pool.Inbox
import ProxyLease.Proofs.Pool.Service

/-!
# Reported uses

The trace tells of every use that a consumer reports. A report adds one, and handing
proxies out adds none.
-/

namespace ProxyLease

/-- The use of a proxy that an event tells of, and whether it went well. -/
def Event.use? : Event → Option (Handle × Bool)
  | .used h success _ => some (h, success)
  | _ => none

namespace Pool

variable {p q : Pool} {h : Handle} {move : Move}

def uses (p : Pool) : List (Handle × Bool) := p.trace.toList.filterMap Event.use?

theorem uses_congr (htrace : q.trace = p.trace) : q.uses = p.uses := by
  rw [uses, uses, htrace]

theorem uses_emit (p : Pool) (e : Event) : (p.emit e).uses = p.uses ++ e.use?.toList := by
  cases he : e.use? <;> simp [uses, emit, he]

theorem uses_publish (p : Pool) (move : Move) : (p.publish move).uses = p.uses := by
  unfold publish
  split
  · rfl
  · rw [uses_emit, uses_emit]
    simp only [Event.use?, Option.toList_none, List.append_nil]
    exact uses_congr rfl

theorem trace_claim (hc : p.claim? h = some (q, move)) : q.trace = p.trace := by
  unfold claim? at hc
  split_ifs at hc
  cases hc
  rfl

theorem trace_shiftFrom {s t : Lifecycle} (hs : p.shiftFrom? h s t = some (q, move)) :
    q.trace = p.trace := by
  unfold shiftFrom? shift? at hs
  split_ifs at hs
  split at hs
  · cases hs
  · split_ifs at hs
    cases hs
    rfl

theorem uses_takeWithin (tries : Nat) (p : Pool) : (p.takeWithin tries).2.uses = p.uses := by
  induction tries generalizing p with
  | zero => rfl
  | succ tries ih =>
    have hchosen : p.choose.2.uses = p.uses := uses_congr rfl
    unfold takeWithin
    split
    · next heq => rwa [heq] at hchosen
    · next h q heq =>
      rw [heq] at hchosen
      split
      · next claimed move hclaim =>
        have hclaimed : claimed.uses = q.uses := uses_congr (trace_claim hclaim)
        rw [uses_publish, ← hchosen, ← hclaimed]
        exact uses_congr rfl
      · rw [ih, hchosen]

theorem uses_offer (p : Pool) (h : Handle) : (p.offer h).2.uses = p.uses := by
  unfold offer
  split
  · exact uses_congr rfl
  · split
    · exact uses_congr rfl
    · next claimed move hclaim =>
      have hclaimed : claimed.uses = p.uses := uses_congr (trace_claim hclaim)
      rw [uses_publish, ← hclaimed]
      exact uses_congr rfl

theorem uses_dispatchWithin (tries : Nat) (p : Pool) : (p.dispatchWithin tries).uses = p.uses := by
  induction tries generalizing p with
  | zero => rfl
  | succ tries ih =>
    have hchosen : p.choose.2.uses = p.uses := uses_congr rfl
    unfold dispatchWithin
    split_ifs
    · split
      · next heq => rwa [heq] at hchosen
      · next h q heq =>
        rw [heq] at hchosen
        have hoffered := (uses_offer q h).trans hchosen
        split
        · next ho => rwa [ho] at hoffered
        · next ho =>
          rw [ho] at hoffered
          rw [ih, hoffered]
    · rfl

theorem uses_beginGet (p : Pool) (timeout : Option Duration) :
    (p.beginGet timeout).2.uses = p.uses := by
  have htaken : p.requested.takeAvailable.2.uses = p.uses := uses_takeWithin _ _
  unfold beginGet
  split
  · next heq => rwa [heq] at htaken
  · next heq =>
    rw [heq] at htaken
    dsimp only
    split_ifs
    · exact htaken
    · exact (uses_dispatchWithin _ _).trans htaken
    · exact htaken

theorem uses_leaveLine (p : Pool) (t : Ticket) : (p.leaveLine t).uses = p.uses := by
  rw [leaveLine_eq]
  exact uses_congr rfl

theorem uses_reportSuccess (p : Pool) (h : Handle) (elapsed : Duration) :
    (p.reportSuccess h elapsed).uses = p.uses ++ [(h, true)] := by
  have hnoted : (p.usedWell h elapsed).uses = p.uses ++ [(h, true)] :=
    (uses_congr rfl).trans (uses_emit p (.used h true (some elapsed)))
  rw [reportSuccess_eq, onShift]
  split_ifs
  · exact hnoted
  · split
    · exact hnoted
    · next moved move hshift =>
      rw [uses_offer, uses_publish, uses_congr (trace_shiftFrom hshift), hnoted]

theorem uses_warned (p : Pool) (w : Prop) [Decidable w] (text : String) :
    (p.warned w text).uses = p.uses := by
  unfold warned
  split
  · exact (uses_emit p (.log .warn text)).trans (List.append_nil _)
  · rfl

theorem uses_reportFailure (p : Pool) (h : Handle) (verdict : Verdict) :
    (p.reportFailure h verdict).uses = p.uses ++ [(h, false)] := by
  have hnoted : (p.usedBadly h verdict).uses = p.uses ++ [(h, false)] :=
    (uses_congr rfl).trans (uses_emit p (.used h false none))
  obtain ⟨t, _, text, he⟩ := reportFailure_eq p h verdict
  rw [he, onShift]
  split_ifs
  · exact hnoted
  · split
    · exact hnoted
    · next moved move hshift =>
      rw [uses_publish, uses_warned, uses_congr (trace_shiftFrom hshift), hnoted]

end Pool
end ProxyLease
