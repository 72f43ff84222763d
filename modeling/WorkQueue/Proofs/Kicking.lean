import WorkQueue.Proofs.Burials

/-!
# What a kick does

A kick brings the first jobs of one list of the tube back to ready : of the buried ones in the order
of their burials, or of the delayed ones in the order in which they fall due if none is buried
(`Tube.kickOrder`). It counts all of them, the others stay where they were, and the first one is
the job that is shown before (`Broker.kicks_in_order`).
-/

namespace WorkQueue

/-- The jobs of a tube in the order in which they are kicked. -/
def Tube.kickOrder (tube : Tube) : List JobId :=
  if tube.buried = [] then tube.delayed.map (·.job) else tube.buried

theorem Tube.kickable_eq (tube : Tube) (bound : Nat) :
    tube.kickable bound = tube.kickOrder.take bound := by
  unfold kickable kickOrder
  cases tube.buried with
  | nil => exact List.map_take
  | cons => rfl

/-- The job that a reply shows. -/
def Reply.shown? : Reply → Option JobId
  | .now (.found id _) => some id
  | _ => none

namespace Engine

variable {s : Engine} {tube : Tube}

/-- What a kick of some jobs of a tube leaves. -/
structure Kicks (tube : Tube) (bound : Nat) (s t : Engine) : Prop where
  jobs : BringsBack (fun job => job.id ∈ tube.kickOrder.take bound) (·.countKick) s t
  tubes : t.tubes.keys = s.tubes.keys
  own : ∀ later ∈ t.tubes, later.name = tube.name → later.buried = tube.buried.drop bound ∧
    later.delayed = if tube.buried = [] then tube.delayed.drop bound else tube.delayed
  others : ∀ old ∈ s.tubes, old.name ≠ tube.name → ∀ later ∈ t.tubes, later.name = old.name →
    later.buried = old.buried ∧ later.delayed = old.delayed

/-- The jobs to kick are of the tube, and a kick is open to them. -/
theorem Listed.job_of_kickOrder (h : s.Listed) (ht : tube ∈ s.tubes) {id : JobId}
    (hid : id ∈ tube.kickOrder) :
    ∃ job ∈ s.jobs, job.id = id ∧ job.tube = tube.name ∧ isKickable job = true := by
  unfold Tube.kickOrder at hid
  split at hid
  · obtain ⟨slot, hslot, rfl⟩ := List.mem_map.1 hid
    obtain ⟨job, hj, htube, hid, hst⟩ := (h.mem_delayed ht).1 hslot
    exact ⟨job, hj, hid, htube, by rw [isKickable, hst]⟩
  · obtain ⟨job, hj, htube, hid, hst⟩ := (h.mem_buried ht).1 hid
    exact ⟨job, hj, hid, htube, by rw [isKickable, hst]⟩

theorem Listed.nodup_kickOrder (h : s.Listed) (ht : tube ∈ s.tubes) : tube.kickOrder.Nodup := by
  unfold Tube.kickOrder
  split
  · exact h.nodup_delayed ht
  · exact (h.ordered tube ht).buried

/-- A kick is a row of jobs that come back, and none of them is refused. -/
theorem returning_kick (hs : Sound none none s) (ht : tube ∈ s.tubes) (bound : Nat) :
    (s.kick tube.name bound).1 = min bound tube.kickOrder.length ∧
      Returning isKickable (·.countKick) (tube.kickOrder.take bound) s
        (s.kick tube.name bound).2 := by
  have hopen : ∀ id ∈ tube.kickOrder.take bound,
      id ∉ [] ∧ ∃ job ∈ s.jobs, job.id = id ∧ isKickable job = true := fun id hid => by
    obtain ⟨job, hj, hsame, -, hkick⟩ := hs.listed.job_of_kickOrder ht (List.mem_of_mem_take hid)
    exact ⟨List.not_mem_nil, job, hj, hsame, hkick⟩
  have hids := (hs.listed.nodup_kickOrder ht).sublist (List.take_sublist bound _)
  have hstart : Returning isKickable (·.countKick) [] s s := .refl hs
  have hrow := hstart.row (fun _ hk => .kick hk) (fun _ _ _ => rfl) hids hopen
  have hkick : s.kick tube.name bound =
      transitionEach kickJob s (tube.kickOrder.take bound) := by
    simp only [kick, (tube?_eq_some_iff hs.listed.tubes).2 ⟨ht, rfl⟩, tube.kickable_eq]
  rw [List.length_take, List.nil_append] at hrow
  exact hkick ▸ hrow

/-- What a kick strikes off the lists of its tube is the front of one of them. -/
theorem Listed.own_of_kick (h : s.Listed) (ht : tube ∈ s.tubes) (bound : Nat) :
    tube.buried.filter (· ∉ tube.kickOrder.take bound) = tube.buried.drop bound ∧
      tube.delayed.filter (fun slot => slot.job ∉ tube.kickOrder.take bound) =
        if tube.buried = [] then tube.delayed.drop bound else tube.delayed := by
  by_cases hnone : tube.buried = []
  · rw [Tube.kickOrder, if_pos hnone, if_pos hnone, hnone, ← List.map_take]
    exact ⟨List.drop_nil.symm, filter_not_mem_take Slot.job (h.nodup_delayed ht) bound⟩
  · rw [Tube.kickOrder, if_neg hnone, if_neg hnone]
    have hnodup : (tube.buried.map id).Nodup := by
      rw [List.map_id]
      exact (h.ordered tube ht).buried
    have hfront := filter_not_mem_take id hnodup bound
    rw [List.map_id] at hfront
    refine ⟨hfront, List.filter_eq_self.2 fun slot hslot => decide_eq_true fun hmem => ?_⟩
    obtain ⟨x, hx, -, hxid, hxst⟩ := (h.mem_delayed ht).1 hslot
    obtain ⟨y, hy, -, hyid, hyst⟩ := (h.mem_buried ht).1 (List.mem_of_mem_take hmem)
    rw [h.job_ext hx hy (hxid.trans hyid.symm), hyst] at hxst
    cases hxst

/-- It strikes nothing off the lists of other tubes. -/
theorem Listed.others_of_kick (h : s.Listed) (ht : tube ∈ s.tubes) (bound : Nat) {old : Tube}
    (ho : old ∈ s.tubes) (hne : old.name ≠ tube.name) :
    old.buried.filter (· ∉ tube.kickOrder.take bound) = old.buried ∧
      old.delayed.filter (fun slot => slot.job ∉ tube.kickOrder.take bound) = old.delayed := by
  have hstays {job : Job} (hj : job ∈ s.jobs) (htube : job.tube = old.name) :
      job.id ∉ tube.kickOrder.take bound := fun hmem => by
    obtain ⟨x, hx, hid, hxtube, -⟩ := h.job_of_kickOrder ht (List.mem_of_mem_take hmem)
    exact hne (htube.symm.trans (h.job_ext hj hx hid.symm ▸ hxtube))
  constructor
  · refine List.filter_eq_self.2 fun id hid => decide_eq_true ?_
    obtain ⟨job, hj, htube, rfl, -⟩ := (h.mem_buried ho).1 hid
    exact hstays hj htube
  · refine List.filter_eq_self.2 fun slot hslot => decide_eq_true ?_
    obtain ⟨job, hj, htube, hid, -⟩ := (h.mem_delayed ho).1 hslot
    exact hid ▸ hstays hj htube

theorem Sound.kicks (hs : Sound none none s) (ht : tube ∈ s.tubes) (bound : Nat) :
    Kicks tube bound s (s.kick tube.name bound).2 := by
  obtain ⟨-, hrow⟩ := returning_kick hs ht bound
  have hr : ∀ job, isKickable job = true → Return s.now none job (·.countKick) := fun _ => .kick
  have hst : Stages none s (s.kick tube.name bound).2 := stages_kick tube.name bound
  have hspares : Spares (fun _ => False) (fun _ => False) s (s.kick tube.name bound).2 :=
    (Sparing.kick (.refl hs) tube.name bound).spares
  refine ⟨hrow.bringsBack hr hst hspares fun _ _ => Iff.rfl, hrow.posts.keys, ?_, ?_⟩
  · intro later hl hname
    have hsub := hst.buried_sublist hs ht hl hname
    rw [hrow.buried hr ht hl hname hsub, hrow.delayed hr ht hl hname]
    exact hs.listed.own_of_kick ht bound
  · intro old ho hne later hl hname
    have hsub := hst.buried_sublist hs ho hl hname
    rw [hrow.buried hr ho hl hname hsub, hrow.delayed hr ho hl hname]
    exact hs.listed.others_of_kick ht bound ho hne

end Engine

namespace Broker

open Engine

variable {b : Broker} {c : ClientId} {tube : Tube}

/-- What the client of a tube is shown of the jobs to kick, and what it is told of a kick. -/
structure Tells (b : Broker) (tube : Tube) (c : ClientId) (body : Option Bytes) : Prop where
  first : (b.dispatch c (if tube.buried = [] then .peekDelayed else .peekBuried) body).1.shown? =
    tube.kickOrder.head?
  count : ∀ bound : UInt32, (b.dispatch c (.kick bound) body).1 =
    .now (.kickedCount (b.engine.kick tube.name bound.toNat).1)
  engine : ∀ bound : UInt32, (b.dispatch c (.kick bound) body).2.engine =
    (b.engine.kick tube.name bound.toNat).2

/-- What the client of a tube is shown is the first job on a list of the tube. -/
theorem shown?_peekTube (hs : Sound none none b.engine) {client : Client}
    (hclient : b.engine.client? client.id = some client)
    (htube : b.engine.tube? client.used = some tube) {first : Tube → Option JobId}
    (hfirst : ∀ id, first tube = some id → ∃ job ∈ b.engine.jobs, job.id = id) :
    (b.peekTube client.id first).1.shown? = first tube := by
  simp only [peekTube, usedTube?, hclient, Option.bind_some, htube]
  cases hid : first tube with
  | none => rfl
  | some id =>
    obtain ⟨job, hj, rfl⟩ := hfirst id hid
    simp [(job?_eq_some_iff hs.listed.jobs).2 ⟨hj, rfl⟩, show?, Reply.shown?]

theorem tells (hs : Sound none none b.engine) {client : Client} (hc : client ∈ b.engine.clients)
    (ht : tube ∈ b.engine.tubes) (hused : client.used = tube.name) (body : Option Bytes) :
    Tells b tube client.id body := by
  have hclient : b.engine.client? client.id = some client :=
    (client?_eq_some_iff hs.listed.clients).2 ⟨hc, rfl⟩
  have htube : b.engine.tube? tube.name = some tube :=
    (tube?_eq_some_iff hs.listed.tubes).2 ⟨ht, rfl⟩
  refine ⟨?_, fun bound => ?_, fun bound => ?_⟩
  · have hs' (verb : Verb) : Sound none none (b.record verb).engine := by rwa [engine_record]
    have hclient' (verb : Verb) : (b.record verb).engine.client? client.id = some client := by
      rwa [engine_record]
    have htube' (verb : Verb) : (b.record verb).engine.tube? client.used = some tube := by
      rwa [engine_record, hused]
    have hknown {id : JobId} (hid : tube.kickOrder.head? = some id) :
        ∃ job ∈ b.engine.jobs, job.id = id := by
      obtain ⟨job, hj, hsame, -⟩ := hs.listed.job_of_kickOrder ht (List.mem_of_mem_head? hid)
      exact ⟨job, hj, hsame⟩
    by_cases hnone : tube.buried = []
    · have horder : tube.kickOrder.head? = tube.delayed.head?.map (·.job) := by
        rw [Tube.kickOrder, if_pos hnone, List.head?_map]
      rw [if_pos hnone, horder]
      refine shown?_peekTube (hs' _) (hclient' _) (htube' _) fun id hid => ?_
      rw [engine_record]
      exact hknown (horder.trans hid)
    · have horder : tube.kickOrder.head? = tube.buried.head? := by
        rw [Tube.kickOrder, if_neg hnone]
      rw [if_neg hnone, horder]
      refine shown?_peekTube (hs' _) (hclient' _) (htube' _) fun id hid => ?_
      rw [engine_record]
      exact hknown (horder.trans hid)
  · simp [dispatch, perform, kick, engine_record, hclient, hused]
  · simp [dispatch, perform, kick, engine_record, hclient, hused]

/-- How the jobs of every tube are kicked, after a run that has told of some burials. -/
structure KicksInOrder (b : Broker) (burials : List JobId) : Prop where
  buried : ∀ tube ∈ b.engine.tubes,
    tube.buried = burials.dedup.filter (b.isBuriedIn tube.name)
  delayed : ∀ tube ∈ b.engine.tubes, InDueOrder b.engine tube.name tube.delayed
  tells : ∀ tube ∈ b.engine.tubes, ∀ client ∈ b.engine.clients, client.used = tube.name →
    ∀ body, b.Tells tube client.id body
  count : ∀ tube ∈ b.engine.tubes, ∀ bound, (b.engine.kick tube.name bound).1 = min bound
    (if b.engine.jobCount tube.name .buried = 0 then b.engine.jobCount tube.name .delayed
    else b.engine.jobCount tube.name .buried)
  kicks : ∀ tube ∈ b.engine.tubes, ∀ bound,
    Kicks tube bound b.engine (b.engine.kick tube.name bound).2

/-- A kick takes the buried jobs in the order of their burials, or the delayed ones as they fall due
if none is buried. It counts them, and leaves the others where they are. -/
theorem kicks_in_order (config : Config) (events : List Event) :
    ((start config).after events).KicksInOrder ((start config).history buried? events) := by
  have hs := ((Reachable.start config).after events).sound
  refine ⟨fun tube ht => buried_eq_history config events ht, fun tube ht => hs.listed.inDueOrder ht,
    fun tube ht client hc hused body => tells hs hc ht hused body, fun tube ht bound => ?_,
    fun tube ht bound => hs.kicks ht bound⟩
  have hburied := congrArg JobTotals.buried (hs.totals ht)
  have hdelayed := congrArg JobTotals.delayed (hs.totals ht)
  rw [(returning_kick hs ht bound).1, Tube.kickOrder]
  simp only [Tube.totals, tally] at hburied hdelayed
  rw [← hburied, ← hdelayed]
  by_cases hnone : tube.buried = []
  · simp [hnone]
  · simp [hnone]

/-- Of three jobs two are buried, the second one first, and another client waits at their tube. -/
def buriedTwo : List Event :=
  [.connect, .connect, .command 1 (.put 0 0 60 1) (some [120]),
    .command 1 (.put 0 0 60 1) (some [120]), .command 1 (.put 0 9 60 1) (some [120]),
    .command 1 .reserve none, .command 1 .reserve none, .command 1 (.bury 2 0) none,
    .command 1 (.bury 1 0) none, .command 2 .reserve none]

example :
    let b := (start {}).after buriedTwo
    let t := (b.engine.kick .default 1).2
    (start {}).history buried? buriedTwo = [2, 1] ∧ (b.engine.kick .default 1).1 = 1 ∧
    b.engine.tubes.map (·.kickOrder) = [[2, 1]] ∧ t.tubes.map (·.kickOrder) = [[1]] ∧
    t.tubes.map (·.delayed) = [[⟨9000, 3⟩]] ∧
    t.jobs.map (fun job => (job.holder?, job.counts.kicks)) = [(none, 0), (some 2, 1), (none, 0)] ∧
    (t.kick .default 5).2.tubes.map (·.ready) = [[⟨0, 1⟩]] := by
  decide

end Broker

end WorkQueue
