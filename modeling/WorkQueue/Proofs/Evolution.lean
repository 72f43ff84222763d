import WorkQueue.Proofs.Holding

/-!
# What becomes of the jobs

What an event makes of the records of the jobs, between its first state `s₀` and a later one `s`
(`Engine.Evolves`) : every job is treated as the event treats it, and if it is ready then, it may
have been handed out on top of that. Nothing else changes a record. `Evolves.once` is for an event
that treats one job, and `Engine.Evolving` for one that brings a row of jobs back to ready : no job
has its turn twice in a row, since neither a ready job nor one that was just handed out is open to
the transition.
-/

namespace WorkQueue

variable {now : Instant} {who : Option ClientId} {job x : Job} {f : Job → Job}

/-- A ready job goes to a client other than the one that acts. -/
def Job.Goes (now : Instant) (who : Option ClientId) (job x : Job) : Prop :=
  job.state = .ready ∧ ∃ c, some c ≠ who ∧ x = job.makeReserved now c

/-- Of the counts, a job that is handed out changes how often it was reserved. -/
theorem Job.frame_of_goes (h : x = job ∨ job.Goes now who x) :
    x.id = job.id ∧ x.pri = job.pri ∧ ∃ n, x.counts = { job.counts with reserves := n } := by
  rcases h with rfl | ⟨-, c, -, rfl⟩ <;> exact ⟨rfl, rfl, _, rfl⟩

/-- Only a ready job is handed out. -/
theorem Job.eq_of_goes {y : Job} (h : x = y ∨ y.Goes now who x) (hst : y.state ≠ .ready) : x = y :=
  h.resolve_right fun hgoes => hst hgoes.1

/-- A ready job stays ready, or is reserved then. -/
theorem Job.state_of_goes {y : Job} (h : x = y ∨ y.Goes now who x) (hst : y.state = .ready) :
    x.state = .ready ∨ ∃ c due, x.state = .reserved c due := by
  rcases h with rfl | ⟨-, c, -, rfl⟩
  · exact Or.inl hst
  · exact Or.inr ⟨c, _, rfl⟩

/-- A job that is open to a transition comes back to ready, with a change of its record. -/
def Job.ComesBack (isOpenTo : Job → Bool) (f : Job → Job) (job x : Job) : Prop :=
  isOpenTo job = true ∧ x = (f job).makeReady

theorem Return.not_ready (h : Return now who job f) : job.state ≠ .ready := by
  intro hst
  cases h with
  | giveBack _ hheld => simp [Job.isHeldBy, Job.holder?, hst] at hheld
  | release _ hheld => simp [Job.isHeldBy, Job.holder?, hst] at hheld
  | kick hopen => simp [Engine.isKickable, hst] at hopen
  | promote hopen => simp [Engine.isDue, hst] at hopen
  | expire hopen => simp [Engine.isOverdue, hst] at hopen

/-- A job that was just handed out does not come back. -/
theorem Return.not_goes (h : Return now who x f) (hgoes : job.Goes now who x)
    (hset : x.Settled) : False := by
  obtain ⟨-, c, hne, rfl⟩ := hgoes
  cases h with
  | giveBack hw hheld | release hw hheld =>
    have hc := of_decide_eq_true hheld
    exact hne (hc.trans hw.symm)
  | kick hopen => cases hopen
  | promote hopen => cases hopen
  | expire hopen =>
    have hpos : 0 < job.ttr := Nat.lt_of_lt_of_le (by decide) hset.ttr
    exact absurd (of_decide_eq_true hopen) (Nat.not_le_of_lt (Nat.lt_add_of_pos_right hpos))

namespace Engine

variable {treats : Job → Job → Prop} {isOpenTo : Job → Bool} {s₀ s t : Engine}
  {leaving : Option ClientId} {name : TubeName}

theorem id_ne_nextJob (hn : s.jobs.Numbered) (hj : job ∈ s.jobs) : job.id ≠ s.nextJob := by
  have hmem : job.id ∈ s.jobs.keys := List.mem_map_of_mem (f := Keyed.key) hj
  exact fun he => hn.next_not_mem (he ▸ hmem : s.nextJob ∈ s.jobs.keys)

/-- The jobs are those of the first state, each treated and then perhaps handed out. -/
structure Evolves (treats : Job → Job → Prop) (who : Option ClientId) (s₀ s : Engine) : Prop where
  now : s.now = s₀.now
  isOpen : ∀ q, s.isOpen q = true → s₀.isOpen q = true
  keys : s.jobs.keys = s₀.jobs.keys
  jobs : ∀ x ∈ s.jobs, ∃ job ∈ s₀.jobs, ∃ y, treats job y ∧ (x = y ∨ y.Goes s₀.now who x)

namespace Evolves

/-- As long as no job is treated. -/
theorem refl (s : Engine) (h : ∀ job ∈ s.jobs, treats job job) : Evolves treats who s s :=
  ⟨rfl, fun _ => id, rfl, fun x hx => ⟨x, hx, x, h x hx, Or.inl rfl⟩⟩

/-- Changes that are not of jobs. -/
theorem of_fewer (h : Evolves treats who s₀ s) (hnow : t.now = s.now) (hjobs : t.jobs = s.jobs)
    (hopen : ∀ q, t.isOpen q = true → s.isOpen q = true) : Evolves treats who s₀ t :=
  ⟨hnow.trans h.now, fun q ho => h.isOpen q (hopen q ho), hjobs ▸ h.keys, hjobs ▸ h.jobs⟩

theorem aside (h : Evolves treats who s₀ s) (ha : Aside s t) : Evolves treats who s₀ t :=
  h.of_fewer ha.now ha.jobs fun q ho => ha.desk.isOpen q ▸ ho

/-- A move of a job to a record in which it has been treated. -/
theorem move (h : Evolves treats who s₀ s) (hj : s.job? job.id = some job)
    (htube : (f job).tube = job.tube) (hid : (f job).id = job.id)
    (hf : ∃ old ∈ s₀.jobs, treats old (f job)) : Evolves treats who s₀ (s.move job.id f) := by
  obtain ⟨hnow, -, -⟩ := move_frame s job.id f
  refine ⟨hnow.trans h.now, fun q ho => h.isOpen q ((sameDesk_move hj htube).isOpen q ▸ ho), ?_,
    fun x hx => ?_⟩
  · rw [move_eq hj htube]
    exact (Table.keys_adjust_const s.jobs (b := f job) hid).trans h.keys
  · rcases of_mem_jobs_move hj htube hx with rfl | ⟨hx, -⟩
    · obtain ⟨old, hold, htreats⟩ := hf
      exact ⟨old, hold, f job, htreats, Or.inl rfl⟩
    · exact h.jobs x hx

/-- A single job is treated. -/
theorem once (hn : s.jobs.Numbered) (hj : s.job? job.id = some job)
    (htube : (f job).tube = job.tube) (hid : (f job).id = job.id) :
    Evolves (fun old y => y = if old.id = job.id then f old else old) who s
      (s.move job.id f) := by
  obtain ⟨hmem, -⟩ := (job?_eq_some_iff hn).1 hj
  obtain ⟨hnow, -, -⟩ := move_frame s job.id f
  refine ⟨hnow, fun q ho => (sameDesk_move hj htube).isOpen q ▸ ho, ?_, fun x hx => ?_⟩
  · rw [move_eq hj htube]
    exact Table.keys_adjust_const s.jobs (b := f job) hid
  · rcases of_mem_jobs_move hj htube hx with rfl | ⟨hx, hne⟩
    · exact ⟨job, hmem, f job, (if_pos rfl).symm, Or.inl rfl⟩
    · exact ⟨x, hx, x, (if_neg hne).symm, Or.inl rfl⟩

/-- A request is served with a ready job. -/
theorem grant {q : Request} {id : JobId} (h : Evolves treats who s₀ s) (hc : s.Coherent)
    (m : s.Match name q id) (hwho : some q.client ≠ who) :
    Evolves treats who s₀ (s.grant q id) := by
  obtain ⟨job, hj, rfl, rfl, hst⟩ := hc.listed.ready_of_next? m.next
  obtain ⟨hmem, -⟩ := (job?_eq_some_iff hc.listed.jobs).1 hj
  obtain ⟨-, hjobs, -⟩ := m.grant_tables hc.tracked
  have hnow : (s.grant q job.id).now = s.now := by
    rw [m.grant_eq hc.tracked]
    exact (served_frame s q job.id).1
  refine ⟨hnow.trans h.now, fun p ho => h.isOpen p ((m.fewer hc).isOpen ho), ?_, fun x hx => ?_⟩
  · rw [hjobs, move_eq (s := s.finish q) hj rfl]
    exact (Table.keys_adjust_const s.jobs (b := job.makeReserved s.now q.client) rfl).trans h.keys
  · rw [hjobs] at hx
    rcases of_mem_jobs_move (s := s.finish q) hj rfl hx with rfl | ⟨hx, -⟩
    · obtain ⟨old, hold, y, htreats, rfl | ⟨-, c, -, rfl⟩⟩ := h.jobs job hmem
      · exact ⟨old, hold, job, htreats, Or.inr ⟨hst, q.client, hwho, by rw [h.now]⟩⟩
      · cases hst
    · exact h.jobs x hx

/-- A tube that is woken is drained. -/
theorem drain (h : Evolves treats who s₀ s) (hs : Sound leaving (some name) s)
    (hopen : ∀ q, s₀.isOpen q = true → some q.client ≠ who) :
    Sound leaving none (s.drain name) ∧ Evolves treats who s₀ (s.drain name) :=
  hs.drain_keeping
    (fun _ q _ hs h m => h.grant hs.toCoherent m.toMatch (hopen q (h.isOpen q m.isOpen)))
    (fun _ _ h => h.aside (.adjustTube _ _ _)) h

/-- A single job comes back to ready. -/
theorem enterReady (hs : Sound leaving none s) (hj : s.job? job.id = some job)
    (hr : Return s.now who job f) :
    Evolves (fun old y => y = if old.id = job.id then (f old).makeReady else old) none s
      (s.enterReady job f) :=
  have hmove : Evolves (fun old y => y = if old.id = job.id then (f old).makeReady else old) none
      s (s.move job.id fun job => (f job).makeReady) :=
    .once hs.listed.jobs hj hr.alike.tube hr.alike.id
  (hmove.drain (hs.comeBack hj hr) fun _ _ => Option.some_ne_none _).2

end Evolves

/-- A request that is made is served with a ready job, or none. -/
theorem evolves_asked {client : Client} {timeout : Option Millis} (hs : Sound none none s)
    (hc : s.client? client.id = some client) (hopen : client.closed = false)
    (ha : Asked s (s.newRequest client timeout) t) :
    Evolves (fun job y => y = job) none (s.openRequest (s.newRequest client timeout)) t := by
  have hmade : Evolves (fun job y => y = job) none
      (s.openRequest (s.newRequest client timeout))
      (s.openRequest (s.newRequest client timeout)) := .refl _ fun _ _ => rfl
  have hfewer := ha.fewer hs hc hopen
  cases ha with
  | served _ m =>
    exact hmade.grant (coherent_openRequest hs hc hopen timeout) m (Option.some_ne_none _)
  | refused => exact hmade.of_fewer rfl rfl fun _ => hfewer.isOpen
  | waiting =>
    rw [waiting_eq hs hc] at hfewer ⊢
    exact hmade.of_fewer rfl rfl fun _ => hfewer.isOpen

/-! ## Rows of transitions -/

/-- A sound state on the way of an event that brings jobs back to ready that are open to it. -/
structure Evolving (isOpenTo : Job → Bool) (f : Job → Job) (who leaving : Option ClientId)
    (s₀ s : Engine) : Prop where
  sound : Sound leaving none s
  evolves : Evolves (fun job y => y = job ∨ job.ComesBack isOpenTo f y) who s₀ s

namespace Evolving

theorem refl (hs : Sound leaving none s) : Evolving isOpenTo f who leaving s s :=
  ⟨hs, .refl s fun _ _ => Or.inl rfl⟩

/-- A job that can come back is as it was in the first state. -/
theorem untouched (h : Evolving isOpenTo f who leaving s₀ s) (hj : job ∈ s.jobs)
    (hr : Return s₀.now who job f) : job ∈ s₀.jobs := by
  obtain ⟨old, hold, y, htreats, rfl | hgoes⟩ := h.evolves.jobs job hj
  · rcases htreats with rfl | ⟨-, rfl⟩
    · exact hold
    · exact absurd rfl hr.not_ready
  · exact (hr.not_goes hgoes (h.sound.settled job hj)).elim

variable (hopen : ∀ q, s₀.isOpen q = true → some q.client ≠ who)

include hopen

/-- One more job comes back. -/
theorem transition (h : Evolving isOpenTo f who leaving s₀ s)
    (hr : ∀ job, isOpenTo job = true → Return s₀.now who job f) (id : JobId) :
    Evolving isOpenTo f who leaving s₀
      (s.transition id isOpenTo fun job => s.enterReady job f).2 := by
  refine transition_cases (fun _ => h) fun job hj _ hpass => ?_
  have hreturn := hr job hpass
  obtain ⟨hmem, -⟩ := (job?_eq_some_iff h.sound.listed.jobs).1 hj
  have hold := h.untouched hmem hreturn
  have hreturn' : Return s.now who job f := by
    rw [h.evolves.now]
    exact hreturn
  have hmove := h.evolves.move (f := fun job => (f job).makeReady) hj hreturn.alike.tube
    hreturn.alike.id ⟨job, hold, Or.inr ⟨hpass, rfl⟩⟩
  obtain ⟨hsound, hevolves⟩ := hmove.drain (h.sound.comeBack hj hreturn') hopen
  exact ⟨hsound, hevolves⟩

theorem resume (h : Evolving isOpenTo f who leaving s₀ s) (name : TubeName) :
    Evolving isOpenTo f who leaving s₀ (s.resume name) := by
  unfold Engine.resume
  split
  · have hwaking : Sound leaving (some name) (s.adjustTube name ({ · with pausedUntil := none })) :=
      h.sound.wake.adjustTube name (fun _ => ⟨⟨rfl, rfl, rfl, rfl, rfl⟩, rfl⟩)
        fun hne => absurd rfl hne
    have hcut : Evolves (fun job y => y = job ∨ job.ComesBack isOpenTo f y) who s₀
        (s.adjustTube name ({ · with pausedUntil := none })) :=
      h.evolves.aside (.adjustTube _ _ _)
    obtain ⟨hsound, hevolves⟩ := hcut.drain hwaking hopen
    exact ⟨hsound, hevolves⟩
  · exact h

omit hopen

theorem dropIdle (h : Evolving isOpenTo f who leaving s₀ s) (c : ClientId) :
    Evolving isOpenTo f who leaving s₀ (s.dropIdle c) := by
  unfold Engine.dropIdle
  split
  · exact ⟨h.sound.of_eq rfl rfl rfl rfl rfl, h.evolves.of_fewer rfl rfl fun _ => id⟩
  · exact h

/-- If no job is open to the transition any more, then all have come back that were. -/
theorem complete (h : Evolving isOpenTo f who leaving s₀ s)
    (hr : ∀ job, isOpenTo job = true → Return s₀.now who job f)
    (hdone : ∀ job ∈ s.jobs, isOpenTo job = false) :
    Evolves (fun job y => y = if isOpenTo job then (f job).makeReady else job) who s₀ s := by
  refine { h.evolves with jobs := fun x hx => ?_ }
  obtain ⟨job, hj, y, rfl | ⟨hpass, rfl⟩, hgoes⟩ := h.evolves.jobs x hx
  · refine ⟨y, hj, y, (if_neg fun hpass => ?_).symm, hgoes⟩
    rcases hgoes with rfl | ⟨hready, -⟩
    · exact Bool.eq_false_iff.1 (hdone x hx) hpass
    · exact (hr y hpass).not_ready hready
  · exact ⟨job, hj, _, (if_pos hpass).symm, hgoes⟩

end Evolving

/-- The jobs that a kick takes have been kickable. -/
theorem evolving_kick (hs : Sound leaving none s) (name : TubeName) (bound : Nat) :
    Evolving isKickable (·.countKick) none leaving s (s.kick name bound).2 := by
  unfold kick
  split
  · refine transitionEach_keeps (fun _ id h => ?_) _ (.refl hs)
    exact h.transition (fun _ _ => Option.some_ne_none _) (fun _ hopen => .kick hopen) id
  · exact .refl hs

/-- The jobs that a delayed sweep promotes have been due. -/
theorem evolving_delayedSweep (hs : Sound leaving none s) :
    Evolving (isDue s.now) (fun job => job) none leaving s s.delayedSweep.2 := by
  refine foldl_keeps (fun n => n) (fun u name h => ?_) s.tubes.keys 0 (.refl hs)
  refine Evolving.resume (fun _ _ => Option.some_ne_none _) ?_ name
  refine transitionEach_keeps (fun v id h => ?_) _ h
  have hpromoted := h.transition (fun _ _ => Option.some_ne_none _) (fun _ hdue => .promote hdue) id
  rw [← h.evolves.now] at hpromoted ⊢
  exact hpromoted

/-- The jobs that an expiry sweep takes have been overdue. -/
theorem evolving_expirySweep (hs : Sound leaving none s) :
    Evolving (isOverdue s.now) (·.countTimeout) none leaving s s.expirySweep.2 := by
  refine foldl_keeps (fun n => n) (fun u c h => ?_) s.expiring 0 (.refl hs)
  refine Evolving.dropIdle ?_ c
  refine transitionEach_keeps (fun v id h => ?_) _ h
  have hexpired := h.transition (fun _ _ => Option.some_ne_none _) (fun _ hover => .expire hover) id
  rw [← h.evolves.now] at hexpired ⊢
  exact hexpired

/-- The jobs that a client gives back have been its own. -/
theorem evolving_giveBackAll {c : ClientId} (hs : Sound leaving none s)
    (hopen : ∀ q, s.isOpen q = true → some q.client ≠ some c) :
    Evolving (·.isHeldBy c) (fun job => job) (some c) leaving s (s.giveBackAll c) :=
  giveBackAll_keeps (fun _ id h => h.transition hopen (fun _ hheld => .giveBack rfl hheld) id)
    (.refl hs)

end Engine

end WorkQueue
