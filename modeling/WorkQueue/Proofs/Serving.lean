import WorkQueue.Proofs.Listing
import WorkQueue.Proofs.Requests

/-!
# Giving a job to a request

`Engine.Match` is a request that is open and the job that a tube hands out next. The request gets
the job, its task is closed and the answer is recorded, and with that the engine stays `Coherent`.
-/

namespace WorkQueue

namespace Engine

variable {s t : Engine} {name : TubeName} {q : Request} {id : JobId}

/-- The lists tell the states, and the requests are tracked. -/
structure Coherent (s : Engine) : Prop where
  listed : s.Listed
  tracked : s.Tracked

/-- An answer without a job. -/
theorem Coherent.answer (h : s.Coherent) (hq : q ∈ s.requests) (ho : s.isOpen q = true)
    {outcome : Outcome} (hadm : q.Admits outcome) (time : Instant) :
    ((s.finish q).deliver q.id outcome time).Coherent := by
  have hl : (s.finish q).Listed :=
    h.listed.adjustClient q.client (fun _ => ⟨rfl, rfl⟩) fun _ _ _ _ _ => rfl
  exact ⟨hl.of_eq rfl rfl rfl, (h.tracked.of_fewer (fewer_finish s q) rfl).deliver hq
    (not_isOpen_finish_self s q) (h.tracked.unanswered q hq ho) hadm time⟩

/-- An open request, and the job that a tube hands out next. -/
structure Match (s : Engine) (name : TubeName) (q : Request) (id : JobId) : Prop where
  mem : q ∈ s.requests
  isOpen : s.isOpen q = true
  next : s.next? name = some id

theorem next?_eq_some_iff : s.next? name = some id ↔ ∃ tube, s.tube? name = some tube ∧
    tube.isPaused s.now = false ∧ ∃ slot, tube.ready.head? = some slot ∧ slot.job = id := by
  simp only [next?, Option.bind_eq_some_iff, Tube.next?]
  refine exists_congr fun tube => and_congr_right fun _ => ?_
  cases tube.isPaused s.now <;> simp

/-- A tube without a pause that hands out nothing has no ready job. -/
theorem ready_eq_nil_of_next? {tube : Tube} (ht : s.tube? name = some tube)
    (hpause : tube.pausedUntil = none) (hn : s.next? name = none) : tube.ready = [] := by
  refine List.head?_eq_none_iff.1 ?_
  simpa [next?, ht, Tube.next?, Tube.isPaused, hpause] using hn

theorem Listed.ready_of_next? (h : s.Listed) (hn : s.next? name = some id) :
    ∃ job, s.job? id = some job ∧ job.id = id ∧ job.tube = name ∧ job.state = .ready := by
  obtain ⟨tube, ht, -, slot, hhead, rfl⟩ := next?_eq_some_iff.1 hn
  obtain ⟨hmem, rfl⟩ := (tube?_eq_some_iff h.tubes).1 ht
  have hp : Place.ready slot ∈ tube.places := by simpa using List.mem_of_mem_head? hhead
  obtain ⟨job, hj, htube, hplace⟩ := h.job_of_place hmem hp
  refine ⟨job, hj, ((job?_eq_some_iff h.jobs).1 hj).2, htube, ?_⟩
  unfold Job.place? at hplace
  split at hplace <;> first | assumption | cases hplace

/-! ## Granting a job -/

/-- The engine before the answer of a match is recorded. -/
def served (s : Engine) (q : Request) (id : JobId) : Engine :=
  ((s.finish q).move id (·.makeReserved s.now q.client)).watchDeadlines q.client

theorem served_frame (s : Engine) (q : Request) (id : JobId) :
    (s.served q id).now = s.now ∧ (s.served q id).requests = s.requests ∧
      (s.served q id).deliveries = s.deliveries := by
  rw [served, watchDeadlines_eq]
  exact move_frame (s.finish q) id _

theorem grant_eq (h : s.isConnected q.client = true) (id : JobId) :
    s.grant q id = (s.served q id).deliver q.id (.reserved id) s.now := by
  have hcon := ((fewer_finish s q).isConnected q.client).trans h
  simp only [grant, hcon, if_true, served]
  rfl

theorem keys_grant (h : s.isConnected q.client = true) (id : JobId) :
    (s.grant q id).tubes.keys = s.tubes.keys := by
  rw [grant_eq h, served, watchDeadlines_eq]
  exact keys_move (s.finish q) id _

/-- Apart from closing the task of the request, a match leaves the desks alone. -/
theorem sameDesk_served (h : s.Listed) (hn : s.next? name = some id) :
    SameDesk (s.finish q) (s.served q id) := by
  obtain ⟨job, hj, -⟩ := h.ready_of_next? hn
  rw [served, watchDeadlines_eq]
  exact (sameDesk_move (s := s.finish q) hj rfl).trans (.of_eq rfl rfl)

namespace Match

theorem connected (m : s.Match name q id) (h : s.Tracked) : s.isConnected q.client = true :=
  h.isConnected_of_isOpen m.isOpen

theorem grant_eq (m : s.Match name q id) (h : s.Tracked) :
    s.grant q id = (s.served q id).deliver q.id (.reserved id) s.now :=
  Engine.grant_eq (m.connected h) id

/-- A match moves the job and closes the task. -/
theorem grant_tables (m : s.Match name q id) (h : s.Tracked) :
    (s.grant q id).tubes = ((s.finish q).move id (·.makeReserved s.now q.client)).tubes ∧
      (s.grant q id).jobs = ((s.finish q).move id (·.makeReserved s.now q.client)).jobs ∧
      (s.grant q id).clients = ((s.finish q).move id (·.makeReserved s.now q.client)).clients := by
  rw [m.grant_eq h, served, watchDeadlines_eq]
  exact ⟨rfl, rfl, rfl⟩

theorem fewer (m : s.Match name q id) (h : s.Coherent) : Fewer s (s.grant q id) := by
  rw [m.grant_eq h.tracked]
  exact (fewer_finish s q).trans (.of_sameDesk ((sameDesk_served h.listed m.next).trans
    (.of_eq rfl rfl)))

theorem isOpen_grant (m : s.Match name q id) (h : s.Coherent) (p : Request) :
    (s.grant q id).isOpen p =
      (s.isOpen p && decide (¬(p.client = q.client ∧ p.task = q.task))) := by
  rw [← isOpen_finish, m.grant_eq h.tracked]
  exact (sameDesk_served h.listed m.next).isOpen p

theorem listed (m : s.Match name q id) (h : s.Coherent) : (s.grant q id).Listed := by
  obtain ⟨job, hj, rfl, -, -⟩ := h.listed.ready_of_next? m.next
  have hf : (s.finish q).Listed :=
    h.listed.adjustClient q.client (fun _ => ⟨rfl, rfl⟩) fun _ _ _ _ _ => rfl
  have hm := hf.move (f := (·.makeReserved s.now q.client)) hj rfl rfl fun c due hst => by
    rw [(fewer_finish s q).isConnected]
    cases hst
    exact m.connected h.tracked
  rw [m.grant_eq h.tracked, served, watchDeadlines_eq]
  exact hm.of_eq rfl rfl rfl

theorem coherent (m : s.Match name q id) (h : s.Coherent) : (s.grant q id).Coherent := by
  refine ⟨m.listed h, ?_⟩
  have hd := sameDesk_served (q := q) h.listed m.next
  have hdel := (served_frame s q id).2.2
  have ht : (s.served q id).Tracked :=
    h.tracked.of_fewer ((fewer_finish s q).trans (.of_sameDesk hd)) hdel
  have hclosed : (s.served q id).isOpen q = false := by
    rw [hd.isOpen, not_isOpen_finish_self]
  have hadm : q.Admits (.reserved id) := trivial
  rw [m.grant_eq h.tracked]
  refine ht.deliver (hd.requests ▸ m.mem) hclosed ?_ hadm s.now
  rw [answered, hdel]
  exact h.tracked.unanswered q m.mem m.isOpen

theorem attended (m : s.Match name q id) (h : s.Coherent) {leaving : Option ClientId}
    (ha : Attended leaving s) : Attended leaving (s.grant q id) := by
  rw [m.grant_eq h.tracked]
  exact ha.answer h.tracked m.mem (sameDesk_served h.listed m.next) (served_frame s q id).2.2 _ _

end Match

end Engine

end WorkQueue
