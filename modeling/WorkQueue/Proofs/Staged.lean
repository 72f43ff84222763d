import WorkQueue.Proofs.Course
import WorkQueue.Proofs.Stage

/-!
# What a stage keeps

Every stage keeps the engine sound and is a step on the course of its event (`Stage.keeps`), and so
is a row of stages for a client that waits for nothing (`Stages.keeps`). A transition may only touch
a job that was not reserved in the event (`Course.kept_of_return`, `Course.kept_of_shift`).
-/

namespace WorkQueue

open Relation

/-- Two records of a job that differ in what a transition may change. -/
structure Job.Alike (a b : Job) : Prop where
  id : b.id = a.id
  tube : b.tube = a.tube
  ttr : b.ttr = a.ttr
  registered : b.registered = a.registered

theorem Job.Settled.of_alike {a b : Job} (h : a.Settled) (hab : a.Alike b)
    (ha : a.state ≠ .deleted) (hb : b.state ≠ .deleted) (hnew : b.state ≠ .new) : b.Settled :=
  ⟨hnew, by simp [hab.registered, h.registered.2 ha, hb], hab.ttr ▸ h.ttr⟩

section

variable {s : Engine} {who : Option ClientId} {now : Instant} {job : Job} {f : Job → Job}

theorem Return.alike (h : Return now who job f) : job.Alike (f job).makeReady := by
  cases h <;> exact ⟨rfl, rfl, rfl, rfl⟩

theorem Return.reserves (h : Return now who job f) :
    (f job).counts.reserves = job.counts.reserves := by
  cases h <;> rfl

theorem Job.not_deleted_of_isHeldBy {c : ClientId} (h : job.isHeldBy c = true) :
    job.state ≠ .deleted := by
  obtain ⟨due, hst⟩ := Job.isHeldBy_iff.1 h
  rw [hst]
  nofun

theorem Return.not_deleted (h : Return now who job f) : job.state ≠ .deleted := by
  cases h with
  | giveBack _ h => exact Job.not_deleted_of_isHeldBy h
  | release _ h => exact Job.not_deleted_of_isHeldBy h
  | kick h => exact fun hst => by simp [Engine.isKickable, hst] at h
  | promote h => exact fun hst => by simp [Engine.isDue, hst] at h
  | expire h => exact fun hst => by simp [Engine.isOverdue, hst] at h

theorem Shift.alike (h : Shift s who job f) : job.Alike (f job) := by
  cases h <;> exact ⟨rfl, rfl, rfl, rfl⟩

theorem Shift.not_deleted (h : Shift s who job f) : job.state ≠ .deleted := by
  cases h with
  | take _ _ h _ => exact fun hst => by simp [Engine.isReservable, hst] at h
  | touch _ h => exact Job.not_deleted_of_isHeldBy h
  | bury _ h => exact Job.not_deleted_of_isHeldBy h
  | postpone _ h => exact Job.not_deleted_of_isHeldBy h

/-- A shifted job is reserved, buried or delayed. -/
theorem Shift.state (h : Shift s who job f) :
    (f job).state ≠ .new ∧ (f job).state ≠ .ready ∧ (f job).state ≠ .deleted := by
  cases h <;> exact ⟨nofun, nofun, nofun⟩

/-- A shifted job is reserved by a connected client, if it is. -/
theorem Shift.holder (h : Shift s who job f) (hl : s.Listed) (hj : job ∈ s.jobs) {c : ClientId}
    {due : Instant} (hst : (f job).state = .reserved c due) : s.isConnected c = true := by
  cases h with
  | take _ hc _ _ =>
    cases hst
    exact hc
  | touch _ h =>
    cases hst
    obtain ⟨due, hst⟩ := Job.isHeldBy_iff.1 h
    exact hl.holders job hj _ due hst
  | bury => cases hst
  | postpone => cases hst

end

namespace Engine

variable {s₀ s t : Engine} {who who' leaving : Option ClientId} {job : Job} {f : Job → Job}

/-! ## Jobs that were not reserved in the event -/

theorem Taken.not_held (h : Taken who s₀ job) {c : ClientId} (hw : who = some c) :
    job.isHeldBy c = false := by
  obtain ⟨d, hne, hst⟩ := h.holder
  subst hw
  simpa [Job.isHeldBy, Job.holder?, hst] using hne

theorem Course.kept (h : Course who leaving s₀ s) (hj : job ∈ s.jobs)
    (hnot : ¬Taken who s₀ job) : Kept s₀ job :=
  (h.jobs job hj).resolve_right hnot

theorem Course.kept_of_return (h : Course who leaving s₀ s) (hj : job ∈ s.jobs)
    (hset : job.Settled) (hr : Return s.now who job f) : Kept s₀ job := by
  refine h.kept hj fun ht => ?_
  obtain ⟨c, -, hst⟩ := ht.holder
  cases hr with
  | giveBack hw hh => simp [ht.not_held hw] at hh
  | release hw hh => simp [ht.not_held hw] at hh
  | kick hk => simp [isKickable, hst] at hk
  | promote hd => simp [isDue, hst] at hd
  | expire ho =>
    have hpos : 0 < job.ttr := Nat.lt_of_lt_of_le (by decide) hset.ttr
    rw [isOverdue, hst, h.now] at ho
    exact absurd (of_decide_eq_true ho) (Nat.not_le_of_lt (Nat.lt_add_of_pos_right hpos))

theorem Course.kept_of_shift (h : Course who leaving s₀ s) (hj : job ∈ s.jobs)
    (hr : Shift s who job f) : Kept s₀ job := by
  refine h.kept hj fun ht => ?_
  obtain ⟨c, -, hst⟩ := ht.holder
  cases hr with
  | take _ _ hh _ => simp [isReservable, hst] at hh
  | touch hw hh => simp [ht.not_held hw] at hh
  | bury hw hh => simp [ht.not_held hw] at hh
  | postpone hw hh => simp [ht.not_held hw] at hh

/-- What becomes of a job that is shifted. -/
theorem Kept.shift (h : Kept s₀ job) (hnow : s.now = s₀.now) (hr : Shift s who job f) :
    Kept s₀ (f job) ∨ Taken who s₀ (f job) := by
  cases hr with
  | @take c hw =>
    refine Or.inr ⟨congrArg (· + 1) h.reserves, c, hw ▸ nofun, ?_⟩
    rw [← hnow]
    rfl
  | touch _ hh =>
    refine Or.inl ⟨h.reserves, fun d hd => h.holder d ?_⟩
    cases hd
    exact of_decide_eq_true hh
  | bury => exact Or.inl ⟨h.reserves, nofun⟩
  | postpone => exact Or.inl ⟨h.reserves, nofun⟩

/-! ## The stages that move a job -/

/-- A deleted job leaves its lists and is registered no more. -/
theorem discard_eq (hj : s.job? job.id = some job) : s.discard job =
    (s.move job.id fun job => { job.makeDeleted with registered := false }).adjustTube job.tube
      fun tube => { tube with cmdDelete := tube.cmdDelete + 1 } := by
  have hjobs := Table.adjust_adjust s.jobs job.id (fun _ => job.makeDeleted)
    (fun job => { job with registered := false }) fun _ _ => rfl
  have hmove : (s.move job.id (·.makeDeleted)).unregister job.id =
      s.move job.id fun job => { job.makeDeleted with registered := false } := by
    rw [move_eq hj rfl, move_eq hj rfl, unregister, adjustJob, hjobs]
    rfl
  rw [discard, hmove]

/-- A job that comes back wakes its tube. -/
theorem Sound.comeBack (hs : Sound leaving none s) (hj : s.job? job.id = some job)
    (hr : Return s.now who job f) :
    Sound leaving (some job.tube) (s.move job.id fun job => (f job).makeReady) := by
  have ha := hr.alike
  have hset := hs.settled job ((job?_eq_some_iff hs.listed.jobs).1 hj).1
  exact hs.wake.move hj ha.id ha.tube nofun (fun _ => rfl)
    (hset.of_alike ha hr.not_deleted nofun nofun)

/-- A tube whose pause is taken off the record is woken. -/
theorem Sound.unpause (hs : Sound leaving none s) (name : TubeName) :
    Sound leaving (some name) (s.adjustTube name ({ · with pausedUntil := none })) :=
  hs.wake.adjustTube name (fun _ => ⟨⟨rfl, rfl, rfl, rfl, rfl⟩, rfl⟩) fun hne => absurd rfl hne

section Jobs

variable (hs : Sound leaving none s) (h : Course who leaving s₀ s)

include hs h

theorem shift_keeps (hj : s.job? job.id = some job) (hr : Shift s who job f) :
    Sound leaving none (s.move job.id f) ∧ Course who leaving s₀ (s.move job.id f) := by
  obtain ⟨hmem, -⟩ := (job?_eq_some_iff hs.listed.jobs).1 hj
  obtain ⟨hnew, hready, hdel⟩ := hr.state
  have ha := hr.alike
  have hk := h.kept_of_shift hmem hr
  constructor
  · exact hs.move hj ha.id ha.tube (fun _ _ => hr.holder hs.listed hmem)
      (fun hst => absurd hst hready) ((hs.settled job hmem).of_alike ha hr.not_deleted hdel hnew)
  · exact h.move hs.listed hj ha.tube ha.id hk (hk.shift h.now hr)

theorem discard_keeps (hj : s.job? job.id = some job)
    (hwho : ∀ c, job.holder? = some c → who = some c) :
    Sound leaving none (s.discard job) ∧ Course who leaving s₀ (s.discard job) := by
  obtain ⟨hmem, -⟩ := (job?_eq_some_iff hs.listed.jobs).1 hj
  have hk : Kept s₀ job := h.kept hmem fun ht => by
    obtain ⟨c, hne, hst⟩ := ht.holder
    exact hne (hwho c (by simp [Job.holder?, hst])).symm
  have hsettled : Job.Settled { job.makeDeleted with registered := false } :=
    ⟨by simp [Job.makeDeleted], by simp [Job.makeDeleted], (hs.settled job hmem).ttr⟩
  have hmove := hs.move (f := fun job => { job.makeDeleted with registered := false }) hj rfl rfl
    (by simp [Job.makeDeleted]) (by simp [Job.makeDeleted]) hsettled
  have hcourse := h.move (f := fun job => { job.makeDeleted with registered := false }) hs.listed hj
    rfl rfl hk (Or.inl ⟨hk.reserves, by simp [Job.holder?, Job.makeDeleted]⟩)
  rw [discard_eq hj]
  exact ⟨hmove.adjustTube job.tube (fun _ => ⟨⟨rfl, rfl, rfl, rfl, rfl⟩, rfl⟩) fun _ _ => id,
    hcourse.of_sameDesk (sameDesk_adjustTube _ _ _) rfl rfl rfl⟩

variable (hw : ∀ u, Course who leaving s₀ u → Course who' leaving s₀ u)
  (hopen : ∀ q, s₀.isOpen q = true → some q.client ≠ who')

include hw hopen

theorem back_keeps (hj : s.job? job.id = some job) (hr : Return s.now who job f) :
    Sound leaving none (s.enterReady job f) ∧ Course who' leaving s₀ (s.enterReady job f) := by
  obtain ⟨hmem, -⟩ := (job?_eq_some_iff hs.listed.jobs).1 hj
  have ha := hr.alike
  have hk := h.kept_of_return hmem (hs.settled job hmem) hr
  have hf : Kept s₀ (f job).makeReady :=
    ⟨by rw [ha.id, ← hk.reserves]; exact hr.reserves, nofun⟩
  have hc := h.move (f := fun job => (f job).makeReady) hs.listed hj ha.tube ha.id hk (Or.inl hf)
  exact (hw _ hc).drain hopen (hs.comeBack hj hr)

theorem resume_keeps (name : TubeName) :
    Sound leaving none (s.resume name) ∧ Course who' leaving s₀ (s.resume name) := by
  unfold resume
  split
  · have hcourse := h.of_sameDesk (sameDesk_adjustTube s name ({ · with pausedUntil := none })) rfl
      rfl rfl
    exact (hw _ hcourse).drain hopen (hs.unpause name)
  · exact ⟨hs, hw _ h⟩

end Jobs

/-! ## A new job -/

section New

/-- The record of the next job. -/
abbrev newJob (s : Engine) (name : TubeName) (pri : Nat) (delay ttr : Millis) (body : Bytes) :
    Job :=
  { id := s.nextJob, tube := name, pri, delay, ttr := max ttr Job.minTtr, created := s.now, body }

/-- A job is made in a tube and counted, and not placed yet. -/
def makeJob (s : Engine) (name : TubeName) (pri : Nat) (delay ttr : Millis) (body : Bytes) :
    Engine :=
  (s.adjustTube name fun tube => { tube with totalJobs := tube.totalJobs + 1 }).create name pri
    delay ttr body

variable (hs : Sound leaving none s) (name : TubeName) (pri : Nat) (delay ttr : Millis)
  (body : Bytes)

include hs

theorem job?_makeJob :
    (s.makeJob name pri delay ttr body).job? (s.newJob name pri delay ttr body).id =
      some (s.newJob name pri delay ttr body) :=
  Table.lookup_append_self s.jobs (a := s.newJob name pri delay ttr body)
    hs.listed.jobs.next_not_mem

/-- A job that is put is made, and then moved to its first place. -/
theorem put_eq : s.put name pri delay ttr body =
    if delay = 0 then
      (s.makeJob name pri delay ttr body).enterReady (s.newJob name pri delay ttr body) (·)
    else (s.makeJob name pri delay ttr body).move s.nextJob (·.makeDelayed s.now delay) := by
  show ((s.makeJob name pri delay ttr body).transition s.nextJob _ _).2 = _
  have hj : (s.makeJob name pri delay ttr body).job? s.nextJob = _ := job?_makeJob hs ..
  simp only [transition, hj]
  rfl

/-- After its first move, the new job is as settled as the others. -/
theorem settled_makeJob (hf : (f (s.newJob name pri delay ttr body)).Settled)
    (htube : (f (s.newJob name pri delay ttr body)).tube = name) :
    ∀ x ∈ ((s.makeJob name pri delay ttr body).move s.nextJob f).jobs, x.Settled := by
  intro x hx
  have hj := job?_makeJob hs name pri delay ttr body
  rcases of_mem_jobs_move hj htube hx with rfl | ⟨hx, hne⟩
  · exact hf
  · rcases List.mem_append.1 hx with hx | hx
    · exact hs.settled x hx
    · exact absurd (congrArg Job.id (List.mem_singleton.1 hx)) hne

variable (h : Course who leaving s₀ s)

include h

theorem makeJob_keeps (hname : name ∈ s.tubes.keys) :
    Steady leaving none (s.makeJob name pri delay ttr body) ∧
      Course who leaving s₀ (s.makeJob name pri delay ttr body) ∧
        Kept s₀ (s.newJob name pri delay ttr body) := by
  have ha := hs.adjustTube name (f := fun tube => { tube with totalJobs := tube.totalJobs + 1 })
    (fun _ => ⟨⟨rfl, rfl, rfl, rfl, rfl⟩, rfl⟩) fun _ _ => id
  have hkeys := keys_adjustTube s name
    (f := fun tube => { tube with totalJobs := tube.totalJobs + 1 }) fun _ => rfl
  have hb : Steady leaving none (s.makeJob name pri delay ttr body) :=
    ha.toSteady.create (hkeys ▸ hname) pri delay ttr body
  have hcourse : Course who leaving s₀ (s.makeJob name pri delay ttr body) :=
    (h.of_sameDesk (sameDesk_adjustTube _ _ _) rfl rfl rfl).create ha.listed.jobs
      name pri delay ttr body
  have hj := job?_makeJob hs name pri delay ttr body
  refine ⟨hb, hcourse, hcourse.kept ((job?_eq_some_iff hb.listed.jobs).1 hj).1 fun ht => ?_⟩
  obtain ⟨c, -, hst⟩ := ht.holder
  cases hst

omit h in
/-- A new job that becomes ready wakes its tube. -/
theorem sound_makeJob_ready (hname : name ∈ s.tubes.keys) :
    Sound leaving (some name)
      ((s.makeJob name pri delay ttr body).move s.nextJob (·.makeReady)) := by
  have hcourse : Course none leaving s s := .refl hs.listed.jobs
  obtain ⟨hb, -, -⟩ := makeJob_keeps hs name pri delay ttr body hcourse hname
  have hj := job?_makeJob hs name pri delay ttr body
  have hready : (s.newJob name pri delay ttr body).makeReady.Settled :=
    ⟨by simp [Job.makeReady], by simp [Job.makeReady], Nat.le_max_right _ _⟩
  have hsound := hb.wake.move (f := (·.makeReady)) hj rfl rfl (by simp [Job.makeReady])
    fun _ => rfl
  exact { hsound with settled := settled_makeJob hs name pri delay ttr body hready rfl }

theorem put_keeps (hname : name ∈ s.tubes.keys)
    (hw : ∀ u, Course who leaving s₀ u → Course who' leaving s₀ u)
    (hopen : ∀ q, s₀.isOpen q = true → some q.client ≠ who') :
    Sound leaving none (s.put name pri delay ttr body) ∧
      Course who' leaving s₀ (s.put name pri delay ttr body) := by
  obtain ⟨hb, hcourse, hk⟩ := makeJob_keeps hs name pri delay ttr body h hname
  have hj := job?_makeJob hs name pri delay ttr body
  rw [put_eq hs]
  split
  · have hmove := hcourse.move (f := (·.makeReady)) hb.listed hj rfl rfl hk
      (Or.inl ⟨hk.reserves, by simp [Job.holder?, Job.makeReady]⟩)
    exact (hw _ hmove).drain hopen (sound_makeJob_ready hs name pri delay ttr body hname)
  · have hdelayed : ((s.newJob name pri delay ttr body).makeDelayed s.now delay).Settled :=
      ⟨by simp [Job.makeDelayed], by simp [Job.makeDelayed], Nat.le_max_right _ _⟩
    have hsound := hb.move (f := (·.makeDelayed s.now delay)) hj rfl rfl
      (by simp [Job.makeDelayed]) (by simp [Job.makeDelayed])
    have hmove := hcourse.move (f := (·.makeDelayed s.now delay)) hb.listed hj rfl rfl hk
      (Or.inl ⟨hk.reserves, by simp [Job.holder?, Job.makeDelayed]⟩)
    exact ⟨{ hsound with settled := settled_makeJob hs name pri delay ttr body hdelayed rfl },
      hw _ hmove⟩

end New

/-! ## All stages -/

theorem Course.openClient (h : Course who leaving s₀ s) (hn : s.clients.Numbered) :
    Course who leaving s₀ s.openClient := by
  refine h.of_eq rfl rfl rfl rfl (fun q ho => ?_) (sameClients_openClient hn)
  by_cases hnew : q.client = s.nextClient
  · rw [Engine.isOpen, hnew, client?_openClient_self hn] at ho
    cases ho
  · rwa [Engine.isOpen, client?_openClient_of_ne s hnew] at ho

/-- Every stage keeps the engine sound and goes on with the course of the event. -/
theorem Stage.keeps (hst : Stage who s t) (hs : Sound leaving none s)
    (h : Course who leaving s₀ s)
    (hw : ∀ u, Course who leaving s₀ u → Course who' leaving s₀ u)
    (hopen : ∀ q, s₀.isOpen q = true → some q.client ≠ who') :
    Sound leaving none t ∧ Course who' leaving s₀ t := by
  cases hst with
  | back hj hr => exact back_keeps hs h hw hopen hj hr
  | shift hj hr => exact (shift_keeps hs h hj hr).imp_right (hw _)
  | put client hc pri delay ttr body =>
    have hmem := ((client?_eq_some_iff hs.listed.clients).1 hc).1
    exact put_keeps hs client.used pri delay ttr body h (hs.posted.used client hmem) hw hopen
  | discard hj _ hwho => exact (discard_keeps hs h hj hwho).imp_right (hw _)
  | resume name => exact resume_keeps hs h hw hopen name
  | pause name span =>
    exact ⟨hs.adjustTube name (fun _ => ⟨⟨rfl, rfl, rfl, rfl, rfl⟩, rfl⟩) fun _ _ => nofun,
      hw _ (h.aside (.adjustTube s name _))⟩
  | connect => exact ⟨hs.openClient, hw _ (h.openClient hs.listed.clients)⟩
  | use c name => exact ⟨hs.useTube c name, hw _ (h.aside (aside_useTube s c name))⟩
  | watch c name => exact ⟨hs.watch c name, hw _ (h.aside (aside_watch s c name))⟩
  | ignore c name => exact ⟨hs.ignore c name, hw _ (h.aside (aside_ignore s c name))⟩
  | produce c =>
    exact ⟨hs.adjustClient c (fun _ => ⟨rfl, rfl, rfl, rfl⟩) fun d hd _ =>
        ⟨hs.posted.used d hd, hs.posted.watching d hd, hs.posted.distinct d hd⟩,
      hw _ (h.aside (.adjustClient s c fun _ => ⟨rfl, rfl, rfl⟩))⟩
  | work c =>
    exact ⟨hs.adjustClient c (fun _ => ⟨rfl, rfl, rfl, rfl⟩) fun d hd _ =>
        ⟨hs.posted.used d hd, hs.posted.watching d hd, hs.posted.distinct d hd⟩,
      hw _ (h.aside (.adjustClient s c fun _ => ⟨rfl, rfl, rfl⟩))⟩
  | expect c =>
    rw [watchDeadlines_eq]
    exact ⟨hs.of_eq rfl rfl rfl rfl rfl, hw _ (h.of_sameDesk (.of_eq rfl rfl) rfl rfl rfl)⟩
  | dropIdle c =>
    unfold Engine.dropIdle
    split
    · exact ⟨hs.of_eq rfl rfl rfl rfl rfl, hw _ (h.of_sameDesk (.of_eq rfl rfl) rfl rfl rfl)⟩
    · exact ⟨hs, hw _ h⟩

/-- A row of stages for one client that waits for nothing, or for nobody. -/
theorem Stages.keeps (hst : Stages who s t) (hs : Sound leaving none s)
    (h : Course who leaving s₀ s) (hopen : ∀ q, s₀.isOpen q = true → some q.client ≠ who) :
    Sound leaving none t ∧ Course who leaving s₀ t := by
  induction hst with
  | refl => exact ⟨hs, h⟩
  | tail _ hstep ih => exact hstep.keeps ih.1 ih.2 (fun _ => id) hopen

end Engine

end WorkQueue
