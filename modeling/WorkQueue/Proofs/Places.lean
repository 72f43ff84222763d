import WorkQueue.Client
import WorkQueue.Proofs.Agenda
import WorkQueue.Tube

/-!
# Places

A tube lists jobs at places : a ready job under its priority, a delayed one under its due instant, a
buried or reserved one under its number. `Job.place?` is the place that the state of a job names,
and `enlist` and `withdraw` add and take exactly that one (`Tube.mem_places_enlist`,
`Tube.mem_places_withdraw`). On the side of the clients, `Client.rehold` is what moving a job does
to the jobs a client holds.
-/

namespace WorkQueue

/-- An entry on a list of a tube. -/
inductive Place
  | ready (slot : Slot)
  | delayed (slot : Slot)
  | buried (job : JobId)
  | reserved (job : JobId)
  deriving DecidableEq, Repr

/-- The job that an entry is of. -/
def Place.job : Place → JobId
  | ready slot | delayed slot => slot.job
  | buried job | reserved job => job

/-- The entry that the state and the fields of a job name. -/
def Job.place? (job : Job) : Option Place :=
  match job.state with
  | .ready => some (.ready ⟨job.pri, job.id⟩)
  | .delayed due => some (.delayed ⟨due, job.id⟩)
  | .buried => some (.buried job.id)
  | .reserved .. => some (.reserved job.id)
  | .new | .deleted => none

theorem Job.job_of_place? {job : Job} {p : Place} (h : job.place? = some p) : p.job = job.id := by
  unfold place? at h
  split at h <;> cases h <;> rfl

namespace Tube

/-- All entries of a tube. -/
def places (tube : Tube) : List Place :=
  tube.ready.map .ready ++ tube.delayed.map .delayed ++ tube.buried.map .buried ++
    tube.reserved.map .reserved

@[simp] theorem ready_mem_places {tube : Tube} {slot : Slot} :
    .ready slot ∈ tube.places ↔ slot ∈ tube.ready := by
  simp [places]

@[simp] theorem delayed_mem_places {tube : Tube} {slot : Slot} :
    .delayed slot ∈ tube.places ↔ slot ∈ tube.delayed := by
  simp [places]

@[simp] theorem buried_mem_places {tube : Tube} {id : JobId} :
    .buried id ∈ tube.places ↔ id ∈ tube.buried := by
  simp [places]

@[simp] theorem reserved_mem_places {tube : Tube} {id : JobId} :
    .reserved id ∈ tube.places ↔ id ∈ tube.reserved := by
  simp [places]

@[simp] theorem name_enlist (tube : Tube) (job : Job) : (tube.enlist job).name = tube.name := by
  unfold enlist
  split <;> rfl

@[simp] theorem name_withdraw (tube : Tube) (job : Job) : (tube.withdraw job).name = tube.name := by
  unfold withdraw
  split <;> rfl

/-- Listing leaves the queue and the pause of a tube alone. -/
theorem frame_enlist (tube : Tube) (job : Job) :
    (tube.enlist job).waiters = tube.waiters ∧
      (tube.enlist job).pausedUntil = tube.pausedUntil := by
  unfold enlist
  split <;> exact ⟨rfl, rfl⟩

theorem frame_withdraw (tube : Tube) (job : Job) :
    (tube.withdraw job).waiters = tube.waiters ∧
      (tube.withdraw job).pausedUntil = tube.pausedUntil := by
  unfold withdraw
  split <;> exact ⟨rfl, rfl⟩

/-- Only a ready job is put on the ready list. -/
theorem ready_enlist_of_ne (tube : Tube) {job : Job} (h : job.state ≠ .ready) :
    (tube.enlist job).ready = tube.ready := by
  unfold enlist
  split <;> first | contradiction | rfl

theorem ready_withdraw_of_nil {tube : Tube} (job : Job) (h : tube.ready = []) :
    (tube.withdraw job).ready = [] := by
  unfold withdraw
  split <;> simp [h, Agenda.remove]

/-- Enlisting a job adds the place that its state names. -/
theorem mem_places_enlist {tube : Tube} {job : Job} {p : Place} :
    p ∈ (tube.enlist job).places ↔ job.place? = some p ∨ p ∈ tube.places := by
  rcases hs : job.state with _ | _ | due | ⟨c, due⟩ | _ | _ <;> cases p <;>
    simp [enlist, Job.place?, Job.slot, hs, Agenda.mem_insert] <;> grind

/-- Withdrawing a job takes the place that its state names. -/
theorem mem_places_withdraw {tube : Tube} {job : Job} {p : Place} :
    p ∈ (tube.withdraw job).places ↔ job.place? ≠ some p ∧ p ∈ tube.places := by
  rcases hs : job.state with _ | _ | due | ⟨c, due⟩ | _ | _ <;> cases p <;>
    simp [withdraw, Job.place?, Job.slot, hs, Agenda.mem_remove] <;> grind

/-- Two states of a tube with the same jobs on the same lists. -/
structure SameLists (a b : Tube) : Prop where
  name : b.name = a.name
  ready : b.ready = a.ready
  delayed : b.delayed = a.delayed
  buried : b.buried = a.buried
  reserved : b.reserved = a.reserved

theorem SameLists.refl (tube : Tube) : SameLists tube tube :=
  ⟨rfl, rfl, rfl, rfl, rfl⟩

theorem SameLists.places {a b : Tube} (h : SameLists a b) : b.places = a.places := by
  simp only [Tube.places, h.ready, h.delayed, h.buried, h.reserved]

/-- The agendas are in order, and no job is buried or reserved twice. -/
structure Ordered (tube : Tube) : Prop where
  ready : Agenda.Sorted tube.ready
  delayed : Agenda.Sorted tube.delayed
  buried : tube.buried.Nodup
  reserved : tube.reserved.Nodup

theorem Ordered.withdraw {tube : Tube} (h : tube.Ordered) (job : Job) :
    (tube.withdraw job).Ordered := by
  unfold Tube.withdraw
  split
  · exact { h with ready := h.ready.remove _ }
  · exact { h with delayed := h.delayed.remove _ }
  · exact { h with reserved := h.reserved.filter _ }
  · exact { h with buried := h.buried.filter _ }
  · exact h
  · exact h

/-- A job that is not on the list of its state is enlisted in order. -/
theorem Ordered.enlist {tube : Tube} (h : tube.Ordered) {job : Job}
    (hnew : ∀ p, job.place? = some p → p ∉ tube.places) : (tube.enlist job).Ordered := by
  unfold Tube.enlist
  split
  · exact { h with ready := h.ready.insert _ }
  · exact { h with delayed := h.delayed.insert _ }
  · next hs =>
    have hid : job.id ∉ tube.reserved := by
      simpa using hnew (.reserved job.id) (by simp [Job.place?, hs])
    exact { h with reserved := List.nodup_append_comm.mp (by simp [hid, h.reserved]) }
  · next hs =>
    have hid : job.id ∉ tube.buried := by
      simpa using hnew (.buried job.id) (by simp [Job.place?, hs])
    exact { h with buried := List.nodup_append_comm.mp (by simp [hid, h.buried]) }
  · exact h
  · exact h

theorem Ordered.of_sameLists {a b : Tube} (h : a.Ordered) (hs : SameLists a b) : b.Ordered :=
  ⟨hs.ready ▸ h.ready, hs.delayed ▸ h.delayed, hs.buried ▸ h.buried, hs.reserved ▸ h.reserved⟩

/-- No place of an ordered tube is listed twice. -/
theorem Ordered.nodup_places {tube : Tube} (h : tube.Ordered) : tube.places.Nodup := by
  have hready := h.ready.nodup.map (f := Place.ready) fun _ _ he => Place.ready.inj he
  have hdelayed := h.delayed.nodup.map (f := Place.delayed) fun _ _ he => Place.delayed.inj he
  have hburied := h.buried.map (f := Place.buried) fun _ _ he => Place.buried.inj he
  have hreserved := h.reserved.map (f := Place.reserved) fun _ _ he => Place.reserved.inj he
  refine List.Nodup.append (List.Nodup.append (List.Nodup.append hready hdelayed ?_) hburied ?_)
    hreserved ?_ <;> · intro p; simp only [List.mem_append, List.mem_map]; grind

end Tube

/-! ## Jobs in hand -/

namespace Client

/-- What a client holds after a job has changed from one record to another. -/
def rehold (job job' : Job) (client : Client) : Client :=
  let client := if job.isHeldBy client.id then client.letGo job else client
  if job'.isHeldBy client.id then client.hold job' else client

end Client

theorem Job.isHeldBy_iff {job : Job} {c : ClientId} :
    job.isHeldBy c = true ↔ ∃ due, job.state = .reserved c due := by
  rcases hs : job.state with _ | _ | due | ⟨d, due⟩ | _ | _ <;> simp [isHeldBy, holder?, hs]

theorem Job.slot_of_reserved {job : Job} {c : ClientId} {due : Instant}
    (h : job.state = .reserved c due) : job.slot = ⟨due, job.id⟩ := by
  simp [slot, h]

end WorkQueue
