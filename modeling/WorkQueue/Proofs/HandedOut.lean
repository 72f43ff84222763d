import WorkQueue.Proofs.Dealings
import WorkQueue.Proofs.Sources

/-!
# Jobs that are handed out

A job that an event leaves ready, and that is reserved after the event, has been handed out : it is
the answer to a request (`Broker.Reachable.handed_out`). The request was made before or by the
event, it watches the tube of the job, and the tube was not paused.
-/

namespace WorkQueue

namespace Broker

open Engine

variable {b : Broker} {event : Event} {job x y : Job} {id : JobId} {c : ClientId}

/-- A reply renews a job for which the command has a change that leaves it reserved. -/
theorem changes_of_reply (hc : b.isConnected c = true) {command : Command} {body : Option Bytes}
    (hr : command.renews id (b.perform c command body).1 = true) :
    ∃ job, b.engine.find? id = some job ∧
      (∃ y, (Event.command c command body).Changes b.engine.now job y) ∧
        ∀ y, (Event.command c command body).Changes b.engine.now job y → y.state ≠ .ready := by
  cases command with
  | reserveJob n =>
    rcases reserveJob_hands hc n body with heq | ⟨⟨bytes, hreply⟩, hh⟩
    · rw [heq] at hr
      cases hr
    · rw [hreply] at hr
      obtain rfl : n.toNat = id := of_decide_eq_true hr
      obtain ⟨hf, hopen, -⟩ := hh
      have hid := (find?_eq_some hf).2.1
      refine ⟨_, hf, ⟨_, .take hid hopen⟩, fun y hy => ?_⟩
      obtain ⟨-, -, rfl⟩ := Event.changes_reserveJob.1 hy
      exact nofun
  | touch n =>
    rcases touch_hands b c n body with heq | ⟨hreply, hh⟩
    · rw [heq] at hr
      cases hr
    · rw [hreply] at hr
      obtain rfl : n.toNat = id := of_decide_eq_true hr
      obtain ⟨hf, hheld, -⟩ := hh
      have hid := (find?_eq_some hf).2.1
      refine ⟨_, hf, ⟨_, .touch hid hheld⟩, fun y hy => ?_⟩
      obtain ⟨-, -, rfl⟩ := Event.changes_touch.1 hy
      exact nofun
  | _ => cases hr

/-- A job that is left ready has been reserved no more often than before. -/
theorem reserves_of_treats {s : Engine} (ht : s.Treats event job y) (hst : y.state = .ready) :
    y.counts.reserves = job.counts.reserves := by
  cases ht with
  | spared => rfl
  | changed _ h =>
    cases h with
    | release => rw [(Job.placed_frame _ _ _).2.2.1]; rfl
    | take => cases hst
    | _ => rfl

/-- A reply that renews a job comes with a change that leaves it reserved. -/
theorem not_ready_of_reply (hs : Sound none none b.engine) {command : Command}
    {body : Option Bytes} (hc : b.isConnected c = true)
    (hr : command.renews job.id (b.dispatch c command body).1 = true) (hj : job ∈ b.engine.jobs)
    (ht : b.engine.Treats (.command c command body) job y) : y.state ≠ .ready := by
  have hc' : (b.record command.verb).isConnected c = true := by
    rwa [Broker.isConnected, engine_record]
  obtain ⟨found, hf, hchange, hnot⟩ := changes_of_reply hc' hr
  rw [engine_record] at hf hchange hnot
  obtain ⟨hmem, hid, -⟩ := hs.find?_eq_some_iff.1 hf
  obtain rfl := hs.listed.job_ext hmem hj hid
  cases ht with
  | changed _ h => exact hnot y h
  | spared h =>
    refine absurd ⟨hc, ?_, hchange⟩ h
    cases command <;> first | rfl | cases hr

/-- A ready job that is reserved after an event is the answer to a request. -/
theorem Reachable.handed_out (h : Reachable b) (hj : job ∈ b.engine.jobs)
    (ht : b.engine.Treats event job y) (hgoes : y.Goes b.engine.now none x)
    (hx : x ∈ (b.step event).engine.jobs) :
    ∃ d ∈ (b.step event).engine.deliveries.drop b.engine.deliveries.length, ∃ q,
      d.outcome = .reserved x.id ∧ Engine.Answer b.engine (b.step event).engine d q ∧
        Granted b.engine (b.step event).engine d q x ∧ b.engine.isPaused x.tube = false := by
  have hs' := (h.step event).sound
  obtain ⟨hready, c, -, hxy⟩ := hgoes
  have hheld : x.IsHeld := ⟨c, _, by rw [hxy]; rfl⟩
  have hreserves : x.counts.reserves = job.counts.reserves + 1 := by
    rw [← reserves_of_treats ht hready, hxy]
    rfl
  have hid : x.id = job.id := by
    have hgoes : y.Goes b.engine.now none x := ⟨hready, c, nofun, hxy⟩
    exact Becomes.id ⟨y, ht, Or.inr hgoes⟩
  obtain ⟨d, hd, hout⟩ : ∃ d ∈ (b.step event).engine.deliveries.drop b.engine.deliveries.length,
      d.outcome = .reserved x.id := by
    obtain ⟨fresh, hfresh, hnew⟩ := (step_spares h.sound event).answers
    rw [hfresh, List.drop_left]
    rcases hnew x hx hheld with hold | hanswer | hrenews
    · obtain rfl := h.sound.listed.job_ext hold hj hid
      exact absurd hreserves (Nat.ne_of_lt (Nat.lt_succ_self _))
    · exact hanswer
    · rcases renews_iff.1 hrenews with hanswer | ⟨d, command, body, rfl, hc, hreply⟩
      · rwa [hfresh, List.drop_left] at hanswer
      · exact absurd hready (not_ready_of_reply h.sound hc (hid ▸ hreply) hj ht)
  obtain ⟨fresh, hfresh, hanswers⟩ := (h.progress event).answers
  obtain ⟨fresh', hfresh', hfrom⟩ := h.withholds event
  obtain rfl : fresh = fresh' := List.append_cancel_left (hfresh.symm.trans hfresh')
  have hmem : d ∈ fresh := by rwa [hfresh, List.drop_left] at hd
  obtain ⟨q, ha⟩ := hanswers d hmem
  obtain ⟨job', hid', hg, -⟩ := ha.granted x.id hout
  obtain rfl := hs'.listed.job_ext hg.listed hx hid'
  obtain ⟨free, hfree, hid'', hsource⟩ := hfrom d hmem job'.id hout
  obtain rfl := hs'.listed.job_ext hfree hx hid''
  exact ⟨d, hd, q, hout, ha, hg, hsource⟩

end Broker

end WorkQueue
