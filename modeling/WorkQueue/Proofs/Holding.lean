import WorkQueue.Proofs.Reachable

/-!
# Jobs that are held

What an event does to the jobs that clients hold, between its first state `s₀` and a later one `s`
(`Engine.Spares`) : the jobs that are safe from it keep their records, and a job that is held
afterwards was held before with the same record, or an answer has handed it out, or it was renewed
on its own. Rows of transitions and the service of the requests that wait all go by this
(`Engine.Sparing`), since a transition is only open to a job in the right state or of the client
that asks for it, and a request is only served with a ready one.
-/

namespace WorkQueue

/-- A client holds the job. -/
def Job.IsHeld (job : Job) : Prop :=
  ∃ c due, job.state = .reserved c due

theorem Job.not_isHeld {job : Job} (h : job.holder? = none) : ¬job.IsHeld := by
  rintro ⟨c, due, hst⟩
  simp [Job.holder?, hst] at h

namespace Engine

variable {safe : Job → Prop} {renewed : JobId → Prop} {s₀ s t : Engine}
  {leaving who : Option ClientId} {job : Job} {f : Job → Job}

/-- Safe jobs that are held are spared, and no job comes to be held unseen. -/
structure Spares (safe : Job → Prop) (renewed : JobId → Prop) (s₀ s : Engine) : Prop where
  kept : ∀ job ∈ s₀.jobs, job.IsHeld → safe job → job ∈ s.jobs
  answers : ∃ fresh, s.deliveries = s₀.deliveries ++ fresh ∧ ∀ job ∈ s.jobs, job.IsHeld →
    job ∈ s₀.jobs ∨ (∃ d ∈ fresh, d.outcome = .reserved job.id) ∨ renewed job.id

namespace Spares

theorem refl (s : Engine) : Spares safe renewed s s :=
  ⟨fun _ hj _ _ => hj, [], (List.append_nil _).symm, fun _ hj _ => Or.inl hj⟩

theorem mono {renewed' : JobId → Prop} (h : Spares safe renewed s₀ s)
    (hr : ∀ id, renewed id → renewed' id) : Spares safe renewed' s₀ s := by
  obtain ⟨fresh, hd, hfresh⟩ := h.answers
  exact ⟨h.kept, fresh, hd, fun job hj hheld =>
    (hfresh job hj hheld).imp_right (Or.imp_right (hr job.id))⟩

/-- Changes that are not of jobs, with answers or without. -/
theorem of_jobs (h : Spares safe renewed s₀ s) (hjobs : t.jobs = s.jobs)
    (hdel : ∃ more, t.deliveries = s.deliveries ++ more) : Spares safe renewed s₀ t := by
  obtain ⟨fresh, hd, hfresh⟩ := h.answers
  obtain ⟨more, hmore⟩ := hdel
  refine ⟨fun job hj hheld hsafe => hjobs ▸ h.kept job hj hheld hsafe, fresh ++ more,
    by rw [hmore, hd, List.append_assoc], fun job hj hheld => ?_⟩
  rcases hfresh job (hjobs ▸ hj) hheld with hold | ⟨d, hmem, hout⟩ | hrenewed
  · exact Or.inl hold
  · exact Or.inr (Or.inl ⟨d, List.mem_append_left _ hmem, hout⟩)
  · exact Or.inr (Or.inr hrenewed)

theorem of_eq (h : Spares safe renewed s₀ s) (hjobs : t.jobs = s.jobs)
    (hdel : t.deliveries = s.deliveries) : Spares safe renewed s₀ t :=
  h.of_jobs hjobs ⟨[], by rw [hdel, List.append_nil]⟩

theorem aside (h : Aside s t) : Spares safe renewed s t :=
  (refl s).of_eq h.jobs h.deliveries

/-- A move of a job that is not held by a client from whom it is safe. It is not held afterwards, or
renewed. -/
theorem move (h : Spares safe renewed s₀ s) (hn : s.jobs.Numbered) (hj : s.job? job.id = some job)
    (htube : (f job).tube = job.tube) (hid : (f job).id = job.id)
    (hfree : job.IsHeld → ¬safe job) (hf : (f job).IsHeld → renewed job.id) :
    Spares safe renewed s₀ (s.move job.id f) := by
  obtain ⟨hmem, -⟩ := (job?_eq_some_iff hn).1 hj
  obtain ⟨fresh, hd, hfresh⟩ := h.answers
  refine ⟨fun x hx hheld hsafe => ?_, fresh, (move_frame s job.id f).2.2.trans hd,
    fun x hx hheld => ?_⟩
  · have hx := h.kept x hx hheld hsafe
    refine mem_jobs_move_of_ne hj htube hx fun hsame => ?_
    obtain rfl := Table.eq_of_key_eq hn.nodup hx hmem hsame
    exact hfree hheld hsafe
  · rcases of_mem_jobs_move hj htube hx with rfl | ⟨hx, -⟩
    · exact Or.inr (Or.inr (hid.symm ▸ hf hheld))
    · exact hfresh x hx hheld

/-- A request is served with a ready job, and the answer says with which. -/
theorem grant {name : TubeName} {q : Request} {id : JobId} (h : Spares safe renewed s₀ s)
    (hc : s.Coherent) (m : s.Match name q id) : Spares safe renewed s₀ (s.grant q id) := by
  obtain ⟨job, hj, rfl, rfl, hst⟩ := hc.listed.ready_of_next? m.next
  obtain ⟨hmem, -⟩ := (job?_eq_some_iff hc.listed.jobs).1 hj
  obtain ⟨-, hjobs, -⟩ := m.grant_tables hc.tracked
  obtain ⟨fresh, hd, hfresh⟩ := h.answers
  refine ⟨fun x hx hheld hsafe => ?_, fresh ++ [⟨q.id, .reserved job.id, s.now⟩],
    by rw [m.deliveries hc, hd, List.append_assoc], fun x hx hheld => ?_⟩
  · have hx := h.kept x hx hheld hsafe
    rw [hjobs]
    refine mem_jobs_move_of_ne (s := s.finish q) hj rfl hx fun hsame => ?_
    obtain rfl := Table.eq_of_key_eq hc.listed.jobs.nodup hx hmem hsame
    obtain ⟨c, due, hheld⟩ := hheld
    exact absurd (hst.symm.trans hheld) nofun
  · rw [hjobs] at hx
    rcases of_mem_jobs_move (s := s.finish q) hj rfl hx with rfl | ⟨hx, -⟩
    · exact Or.inr (Or.inl ⟨_, List.mem_append_right _ (List.mem_singleton.2 rfl), rfl⟩)
    · rcases hfresh x hx hheld with hold | ⟨d, hmem, hout⟩ | hrenewed
      · exact Or.inl hold
      · exact Or.inr (Or.inl ⟨d, List.mem_append_left _ hmem, hout⟩)
      · exact Or.inr (Or.inr hrenewed)

/-- A job that is made is not held. -/
theorem makeJob (h : Spares safe renewed s₀ s) (name : TubeName) (pri : Nat) (delay ttr : Millis)
    (body : Bytes) : Spares safe renewed s₀ (s.makeJob name pri delay ttr body) := by
  obtain ⟨fresh, hd, hfresh⟩ := h.answers
  refine ⟨fun x hx hheld hsafe => List.mem_append_left _ (h.kept x hx hheld hsafe), fresh, hd,
    fun x hx hheld => ?_⟩
  rcases List.mem_append.1 hx with hx | hx
  · exact hfresh x hx hheld
  · rw [List.mem_singleton.1 hx] at hheld
    exact absurd hheld (Job.not_isHeld rfl)

end Spares

/-! ## Rows of transitions -/

/-- A sound state on the way of an event that spares the jobs that are safe from it. -/
structure Sparing (leaving : Option ClientId) (safe : Job → Prop) (renewed : JobId → Prop)
    (s₀ s : Engine) : Prop where
  sound : Sound leaving none s
  now : s.now = s₀.now
  spares : Spares safe renewed s₀ s

/-- A tube that is woken is drained. -/
theorem Spares.drain {name : TubeName} (h : Spares safe renewed s₀ s) (hnow : s.now = s₀.now)
    (hs : Sound leaving (some name) s) : Sparing leaving safe renewed s₀ (s.drain name) := by
  have hgrant (s : Engine) (q : Request) (id : JobId) (hs : Sound leaving (some name) s)
      (h : s.now = s₀.now ∧ Spares safe renewed s₀ s) (m : s.Turn name q id) :
      (s.grant q id).now = s₀.now ∧ Spares safe renewed s₀ (s.grant q id) := by
    refine ⟨?_, h.2.grant hs.toCoherent m.toMatch⟩
    rw [m.grant_eq hs.toCoherent.tracked]
    exact (served_frame s q id).1.trans h.1
  obtain ⟨hsound, hnow, hspares⟩ := hs.drain_keeping hgrant
    (fun _ _ h => ⟨h.1, h.2.of_eq rfl rfl⟩) ⟨hnow, h⟩
  exact ⟨hsound, hnow, hspares⟩

namespace Sparing

theorem refl (hs : Sound leaving none s) : Sparing leaving safe renewed s s :=
  ⟨hs, rfl, .refl s⟩

/-- A job comes back to ready that is not held, or not safe. -/
theorem back (h : Sparing leaving safe renewed s₀ s) (hj : s.job? job.id = some job)
    (hr : Return s.now who job f) (hfree : job.IsHeld → ¬safe job) :
    Sparing leaving safe renewed s₀ (s.enterReady job f) := by
  have ha := hr.alike
  have hmove := h.spares.move (f := fun job => (f job).makeReady) h.sound.listed.jobs hj ha.tube
    ha.id hfree fun hheld => absurd hheld (Job.not_isHeld rfl)
  exact hmove.drain ((move_frame s _ _).1.trans h.now) (h.sound.comeBack hj hr)

theorem kickJob (h : Sparing leaving safe renewed s₀ s) (id : JobId) :
    Sparing leaving safe renewed s₀ (s.kickJob id).2 :=
  transition_cases (fun _ => h) fun job hj _ hopen =>
    have hr : Return s.now none job (·.countKick) := .kick hopen
    h.back hj hr fun ⟨c, due, hst⟩ => by simp [isKickable, hst] at hopen

theorem promote (h : Sparing leaving safe renewed s₀ s) (id : JobId) :
    Sparing leaving safe renewed s₀ (s.promote id).2 :=
  transition_cases (fun _ => h) fun job hj _ hopen =>
    have hr : Return s.now none job fun job => job := .promote hopen
    h.back hj hr fun ⟨c, due, hst⟩ => by simp [isDue, hst] at hopen

/-- The expiry sweep finds the jobs that are overdue. -/
theorem expire (h : Sparing leaving safe renewed s₀ s)
    (hsafe : ∀ job, isOverdue s₀.now job = true → ¬safe job) (id : JobId) :
    Sparing leaving safe renewed s₀ (s.expire id).2 :=
  transition_cases (fun _ => h) fun job hj _ hopen =>
    have hr : Return s.now none job (·.countTimeout) := .expire hopen
    h.back hj hr fun _ => hsafe job (h.now ▸ hopen)

/-- A client that is closed gives back the jobs that it holds. -/
theorem giveBack {c : ClientId} (h : Sparing leaving safe renewed s₀ s)
    (hsafe : ∀ job, job.isHeldBy c = true → ¬safe job) (id : JobId) :
    Sparing leaving safe renewed s₀ (s.giveBack c id).2 :=
  transition_cases (fun _ => h) fun job hj _ hopen =>
    h.back hj (.giveBack rfl hopen) fun _ => hsafe job hopen

theorem resume (h : Sparing leaving safe renewed s₀ s) (name : TubeName) :
    Sparing leaving safe renewed s₀ (s.resume name) := by
  unfold Engine.resume
  split
  · have hwaking : Sound leaving (some name) (s.adjustTube name ({ · with pausedUntil := none })) :=
      h.sound.wake.adjustTube name (fun _ => ⟨⟨rfl, rfl, rfl, rfl, rfl⟩, rfl⟩)
        fun hne => absurd rfl hne
    exact Spares.drain (h.spares.of_eq rfl rfl) h.now hwaking
  · exact h

theorem dropIdle (h : Sparing leaving safe renewed s₀ s) (c : ClientId) :
    Sparing leaving safe renewed s₀ (s.dropIdle c) := by
  unfold Engine.dropIdle
  split
  · exact ⟨h.sound.of_eq rfl rfl rfl rfl rfl, h.now, h.spares.of_eq rfl rfl⟩
  · exact h

theorem kick (h : Sparing leaving safe renewed s₀ s) (name : TubeName) (bound : Nat) :
    Sparing leaving safe renewed s₀ (s.kick name bound).2 := by
  unfold Engine.kick
  split
  · exact transitionEach_keeps (fun _ id h => h.kickJob id) _ h
  · exact h

theorem delayedSweep (h : Sparing leaving safe renewed s₀ s) :
    Sparing leaving safe renewed s₀ s.delayedSweep.2 :=
  foldl_keeps (fun n => n) (fun s name h =>
    have hpromoted : Sparing leaving safe renewed s₀
        (transitionEach Engine.promote s ((s.dueJobs name).take promotionCap)).2 :=
      transitionEach_keeps (fun _ id h => h.promote id) _ h
    hpromoted.resume name) s.tubes.keys 0 h

theorem expirySweep (h : Sparing leaving safe renewed s₀ s)
    (hsafe : ∀ job, isOverdue s₀.now job = true → ¬safe job) :
    Sparing leaving safe renewed s₀ s.expirySweep.2 :=
  foldl_keeps (fun n => n) (fun s c h =>
    have hexpired : Sparing leaving safe renewed s₀
        (transitionEach Engine.expire s (s.overdueJobs c)).2 :=
      transitionEach_keeps (fun _ id h => h.expire hsafe id) _ h
    hexpired.dropIdle c) s.expiring 0 h

theorem giveBackAll {c : ClientId} (h : Sparing leaving safe renewed s₀ s)
    (hsafe : ∀ job, job.isHeldBy c = true → ¬safe job) :
    Sparing leaving safe renewed s₀ (s.giveBackAll c) :=
  giveBackAll_keeps (fun _ id h => h.giveBack hsafe id) h

/-- A job that is put is made, placed and offered to the requests that wait. -/
theorem put (h : Sparing leaving safe renewed s₀ s) {name : TubeName} (hname : name ∈ s.tubes.keys)
    (pri : Nat) (delay ttr : Millis) (body : Bytes) :
    Spares safe renewed s₀ (s.put name pri delay ttr body) := by
  have hn := h.sound.listed.jobs
  have hj := job?_makeJob h.sound name pri delay ttr body
  have hcourse : Course none leaving s s := .refl hn
  obtain ⟨hb, -, -⟩ := makeJob_keeps h.sound name pri delay ttr body hcourse hname
  have hmade := h.spares.makeJob name pri delay ttr body
  have hnew : ¬(s.newJob name pri delay ttr body).IsHeld := Job.not_isHeld rfl
  rw [put_eq h.sound]
  split
  · have hmove := hmade.move (f := (·.makeReady)) hb.listed.jobs hj rfl rfl
      (fun hheld => absurd hheld hnew) fun hheld => absurd hheld (Job.not_isHeld rfl)
    have hnow := (move_frame (s.makeJob name pri delay ttr body) s.nextJob (·.makeReady)).1
    have hwaking := sound_makeJob_ready h.sound name pri delay ttr body hname
    exact (hmove.drain (hnow.trans h.now) hwaking).spares
  · exact hmade.move (f := (·.makeDelayed s.now delay)) hb.listed.jobs hj rfl rfl
      (fun hheld => absurd hheld hnew) fun hheld => absurd hheld (Job.not_isHeld rfl)

end Sparing

/-! ## Other events -/

/-- A request that is made is served with a ready job, or it waits, or it is refused. -/
theorem Spares.asked {client : Client} {timeout : Option Millis} (h : Spares safe renewed s₀ s)
    (hs : Sound none none s) (hc : s.client? client.id = some client)
    (hopen : client.closed = false) (ha : Asked s (s.newRequest client timeout) t) :
    Spares safe renewed s₀ t := by
  have hmade : Spares safe renewed s₀ (s.openRequest (s.newRequest client timeout)) :=
    h.of_eq rfl rfl
  cases ha with
  | served _ m => exact hmade.grant (coherent_openRequest hs hc hopen timeout) m
  | refused => exact hmade.of_jobs rfl ⟨_, rfl⟩
  | waiting =>
    rw [waiting_eq hs hc]
    exact hmade.of_eq rfl rfl

/-- Timers only answer requests. -/
theorem foldl_fireTimer_frame (target : Instant) (qs : List Request) (s : Engine) :
    (qs.foldl (fireTimer target) s).now = s.now ∧ (qs.foldl (fireTimer target) s).jobs = s.jobs ∧
      (qs.foldl (fireTimer target) s).tubes = s.tubes := by
  refine List.foldlRecOn qs (fireTimer target) (motive := fun t => t.now = s.now ∧
    t.jobs = s.jobs ∧ t.tubes = s.tubes) ⟨rfl, rfl, rfl⟩ fun t ht q _ => ?_
  unfold fireTimer
  split
  · split
    · exact ht
    · exact ht
  · exact ht

/-- Timers answer without a job. -/
theorem spares_advance (hs : Sound none none s) (span : Millis) :
    Spares safe renewed s (s.advance span) := by
  obtain ⟨fresh, hd, -⟩ := (advance_keeps hs span).2.answers
  exact (Spares.refl s).of_jobs (foldl_fireTimer_frame (s.now + span) s.requests s).2.1 ⟨fresh, hd⟩

/-- A client that is closed gives up its requests and its jobs and leaves its tubes. -/
theorem spares_close {client : Client} (hs : Sound none none s)
    (hc : s.client? client.id = some client)
    (hsafe : ∀ job, job.isHeldBy client.id = true → ¬safe job) :
    Spares safe renewed s (s.close client.id) := by
  have hdone : Sparing (some client.id) safe renewed s (s.finishAll client.id) :=
    ⟨hs.finishAll client.id, rfl, (Spares.refl s).of_eq rfl rfl⟩
  have hgiven := hdone.giveBackAll hsafe
  obtain ⟨-, haside⟩ := leave_tubes client.watching (hgiven.sound.removeUser client.used)
  have hleft := hgiven.spares.of_eq (haside.jobs.trans rfl) (haside.deliveries.trans rfl)
  rw [close_eq hc]
  exact hleft.of_eq rfl rfl

end Engine

end WorkQueue
