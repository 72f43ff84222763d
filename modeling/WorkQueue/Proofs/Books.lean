import WorkQueue.Proofs.Counting
import WorkQueue.Proofs.Exclusive

/-!
# The books

The tubes count the jobs that are put into them and deleted, and a job counts its timeouts. An event
changes these books only where a job is put or discarded or expires : everything else leaves them as
they are (`Engine.Booked 0`), and the expiry sweep adds as many timeouts as it reports
(`Engine.Booking.expirySweep`). So the counters of the tubes go on agreeing with the jobs
(`Engine.Balanced`).
-/

namespace WorkQueue

/-- What the counters go by in the record of a job. -/
structure Entry where
  id : JobId
  tube : TubeName
  deleted : Bool

def Job.entry (job : Job) : Entry where
  id := job.id
  tube := job.tube
  deleted := job.state = .deleted

/-- Listing leaves the counters of a tube alone. -/
theorem Tube.counters_relist (tube : Tube) (job job' : Job) :
    ((tube.withdraw job).enlist job').totalJobs = tube.totalJobs ∧
      ((tube.withdraw job).enlist job').cmdDelete = tube.cmdDelete := by
  unfold Tube.enlist Tube.withdraw
  split <;> split <;> exact ⟨rfl, rfl⟩

namespace Engine

variable {s t u : Engine} {job : Job} {f : Job → Job} {m n : Nat}

/-- How often the jobs have timed out, all together. -/
def timeouts (s : Engine) : Nat :=
  (s.jobs.map (·.counts.timeouts)).sum

/-- The counters of the tubes agree with the jobs. -/
structure Balanced (s : Engine) : Prop where
  total : ∀ tube ∈ s.tubes, tube.totalJobs = s.jobs.countP fun job => job.tube = tube.name
  deleted : ∀ tube ∈ s.tubes,
    tube.cmdDelete = s.jobs.countP fun job => job.tube = tube.name && job.state = .deleted

/-- The books are as they were, apart from `n` more timeouts. A new tube has no entries. -/
structure Booked (n : Nat) (s t : Engine) : Prop where
  jobs : t.jobs.map Job.entry = s.jobs.map Job.entry
  timeouts : t.timeouts = s.timeouts + n
  keys : s.tubes.keys ⊆ t.tubes.keys
  tubes : ∀ b ∈ t.tubes, (∃ a ∈ s.tubes, b.name = a.name ∧ b.totalJobs = a.totalJobs ∧
    b.cmdDelete = a.cmdDelete) ∨ b.name ∉ s.tubes.keys ∧ b.totalJobs = 0 ∧ b.cmdDelete = 0

theorem countP_entry (s : Engine) (test : Entry → Bool) :
    s.jobs.countP (fun job => test job.entry) = (s.jobs.map Job.entry).countP test := by
  rw [List.countP_map]
  rfl

/-- A move leaves the counters of the tubes alone. -/
theorem counters_move (hj : s.job? job.id = some job) (htube : (f job).tube = job.tube)
    {tube : Tube} (ht : tube ∈ (s.move job.id f).tubes) : ∃ a ∈ s.tubes,
      tube.name = a.name ∧ tube.totalJobs = a.totalJobs ∧ tube.cmdDelete = a.cmdDelete := by
  rw [move_eq hj htube] at ht
  refine Table.exists_of_mem_adjust (R := fun a b => b.name = a.name ∧
    b.totalJobs = a.totalJobs ∧ b.cmdDelete = a.cmdDelete) (fun _ => ⟨rfl, rfl, rfl⟩)
    (fun tube _ => ?_) ht
  exact ⟨(Tube.name_enlist _ _).trans (Tube.name_withdraw _ _),
    Tube.counters_relist tube job (f job)⟩

namespace Booked

theorem refl (s : Engine) : Booked 0 s s :=
  ⟨rfl, rfl, List.Subset.refl _, fun b hb => Or.inl ⟨b, hb, rfl, rfl, rfl⟩⟩

theorem trans (h₁ : Booked m s t) (h₂ : Booked n t u) : Booked (m + n) s u := by
  refine ⟨h₂.jobs.trans h₁.jobs, by rw [h₂.timeouts, h₁.timeouts, Nat.add_assoc],
    List.Subset.trans h₁.keys h₂.keys, fun c hc => ?_⟩
  rcases h₂.tubes c hc with ⟨b, hb, hname, htotal, hdelete⟩ | ⟨hnew, hzero⟩
  · rw [hname, htotal, hdelete]
    exact h₁.tubes b hb
  · exact Or.inr ⟨fun hold => hnew (h₁.keys hold), hzero⟩

theorem length (h : Booked n s t) : t.jobs.length = s.jobs.length := by
  simpa using congrArg List.length h.jobs

theorem balanced (h : Booked n s t) (hs : s.Balanced)
    (hhomes : ∀ job ∈ s.jobs, job.tube ∈ s.tubes.keys) : t.Balanced := by
  have hcount (test : Entry → Bool) : t.jobs.countP (fun job => test job.entry) =
      s.jobs.countP fun job => test job.entry := by
    rw [countP_entry, countP_entry, h.jobs]
  have hnone {name : TubeName} (hname : name ∉ s.tubes.keys) (test : Job → Bool) :
      s.jobs.countP (fun job => job.tube = name && test job) = 0 :=
    List.countP_eq_zero.2 fun job hj => by
      have hne : job.tube ≠ name := fun he => hname (he ▸ hhomes job hj)
      simp [hne]
  constructor
  · intro tube ht
    refine Eq.trans ?_ (hcount fun entry => entry.tube = tube.name).symm
    rcases h.tubes tube ht with ⟨a, ha, hname, htotal, -⟩ | ⟨hnew, htotal, -⟩
    · rw [htotal, hs.total a ha, hname]
      rfl
    · rw [htotal]
      have hzero := hnone hnew fun _ => true
      simp only [Bool.and_true] at hzero
      exact hzero.symm
  · intro tube ht
    refine Eq.trans ?_ (hcount fun entry => entry.tube = tube.name && entry.deleted).symm
    rcases h.tubes tube ht with ⟨a, ha, hname, -, hdelete⟩ | ⟨hnew, -, hdelete⟩
    · rw [hdelete, hs.deleted a ha, hname]
      rfl
    · rw [hdelete]
      exact (hnone hnew fun job => job.state = .deleted).symm

/-! ### Changes of records -/

theorem of_eq (h : Booked n s t) (hjobs : u.jobs = t.jobs) (htubes : u.tubes = t.tubes) :
    Booked n s u :=
  ⟨hjobs ▸ h.jobs, by rw [Engine.timeouts, hjobs]; exact h.timeouts, htubes ▸ h.keys,
    htubes ▸ h.tubes⟩

theorem adjustTube (h : Booked n s t) (name : TubeName) {f : Tube → Tube}
    (hf : ∀ tube, (f tube).name = tube.name ∧ (f tube).totalJobs = tube.totalJobs ∧
      (f tube).cmdDelete = tube.cmdDelete) : Booked n s (t.adjustTube name f) := by
  have hkeys := keys_adjustTube t name fun tube => (hf tube).1
  have hadjusted : Booked 0 t (t.adjustTube name f) :=
    ⟨rfl, rfl, hkeys ▸ List.Subset.refl _, fun b hb => Or.inl <| Table.exists_of_mem_adjust
      (R := fun a b => b.name = a.name ∧ b.totalJobs = a.totalJobs ∧ b.cmdDelete = a.cmdDelete)
      (fun _ => ⟨rfl, rfl, rfl⟩) (fun tube _ => hf tube) hb⟩
  exact h.trans hadjusted

theorem ensureTube (s : Engine) (name : TubeName) : Booked 0 s (s.ensureTube name) := by
  have hkeys := (mem_keys_ensureTube s name).2
  unfold Engine.ensureTube at hkeys ⊢
  split
  · exact .refl s
  · next hnew =>
    rw [if_neg hnew] at hkeys
    refine ⟨rfl, rfl, hkeys, fun b hb => ?_⟩
    rcases List.mem_append.1 hb with hb | hb
    · exact Or.inl ⟨b, hb, rfl, rfl, rfl⟩
    · rw [List.mem_singleton.1 hb]
      exact Or.inr ⟨by simpa [tube?, Table.lookup_isSome_iff] using hnew, rfl, rfl⟩

theorem move (hn : s.jobs.Numbered) (hj : s.job? job.id = some job)
    (htube : (f job).tube = job.tube) (hentry : (f job).entry = job.entry)
    (htimeouts : (f job).counts.timeouts = job.counts.timeouts + n) :
    Booked n s (s.move job.id f) := by
  obtain ⟨hmem, -⟩ := (job?_eq_some_iff hn).1 hj
  have hjobs : (s.move job.id f).jobs = s.jobs.adjust job.id fun _ => f job := by
    rw [move_eq hj htube]
  refine ⟨?_, ?_, keys_move s job.id f ▸ List.Subset.refl _, fun b hb =>
    Or.inl (counters_move hj htube hb)⟩
  · rw [hjobs]
    refine (List.map_map ..).trans (List.map_congr_left fun x hx => ?_)
    by_cases hid : x.id = job.id
    · obtain rfl := Table.eq_of_key_eq hn.nodup hx hmem hid
      exact (congrArg Job.entry (if_pos rfl)).trans hentry
    · exact congrArg Job.entry (if_neg hid)
  · have hsum : ((s.jobs.adjust job.id fun _ => f job).map (·.counts.timeouts)).sum +
        job.counts.timeouts = s.timeouts + (f job).counts.timeouts :=
      Table.sum_adjust_const hn.nodup hmem (f job) (·.counts.timeouts)
    rw [htimeouts, Nat.add_left_comm, Nat.add_comm, ← hjobs] at hsum
    exact Nat.add_left_cancel hsum

/-- A job that is shifted does not come or go. -/
theorem shift {who : Option ClientId} (hn : s.jobs.Numbered) (hj : s.job? job.id = some job)
    (hr : Shift s who job f) : Booked 0 s (s.move job.id f) := by
  have hentry : (f job).entry = job.entry := by
    rw [Job.entry, Job.entry, hr.alike.id, hr.alike.tube, decide_eq_false hr.state.2.2,
      decide_eq_false hr.not_deleted]
  exact .move hn hj hr.alike.tube hentry (by cases hr <;> rfl)

/-- A request is served with a ready job. -/
theorem grant {name : TubeName} {q : Request} {id : JobId} (h : Booked n s t) (hc : t.Coherent)
    (m : t.Match name q id) : Booked n s (t.grant q id) := by
  obtain ⟨job, hj, rfl, -, hst⟩ := hc.listed.ready_of_next? m.next
  obtain ⟨htubes, hjobs, -⟩ := m.grant_tables hc.tracked
  have hentry : (job.makeReserved t.now q.client).entry = job.entry := by
    simp [Job.entry, Job.makeReserved, hst]
  have hfinish : Booked n s (t.finish q) := h.of_eq rfl rfl
  have hmove : Booked 0 (t.finish q)
      ((t.finish q).move job.id (·.makeReserved t.now q.client)) :=
    .move hc.listed.jobs hj rfl hentry rfl
  exact (hfinish.trans hmove).of_eq hjobs htubes

theorem useTube (s : Engine) (c : ClientId) (name : TubeName) : Booked 0 s (s.useTube c name) := by
  unfold Engine.useTube
  split
  · next client _ =>
    have hadded : Booked 0 s ((s.ensureTube name).addUser name) :=
      (Booked.ensureTube s name).adjustTube name fun _ => ⟨rfl, rfl, rfl⟩
    have hused : Booked 0 s (((s.ensureTube name).addUser name).removeUser client.used) :=
      hadded.adjustTube client.used fun _ => ⟨rfl, rfl, rfl⟩
    exact hused.of_eq rfl rfl
  · exact .refl s

theorem watch (s : Engine) (c : ClientId) (name : TubeName) : Booked 0 s (s.watch c name) := by
  have hensured : Booked 0 s (s.ensureTube name) := .ensureTube s name
  unfold Engine.watch
  dsimp only
  split
  · split
    · exact hensured
    · have hwatched : Booked 0 s ((s.ensureTube name).addWatcher name) :=
        hensured.adjustTube name fun _ => ⟨rfl, rfl, rfl⟩
      exact hwatched.of_eq rfl rfl
  · exact hensured

theorem ignore (s : Engine) (c : ClientId) (name : TubeName) : Booked 0 s (s.ignore c name) := by
  unfold Engine.ignore
  split
  · split
    · have hremoved : Booked 0 s (s.removeWatcher name) :=
        (Booked.refl s).adjustTube name fun _ => ⟨rfl, rfl, rfl⟩
      exact hremoved.of_eq rfl rfl
    · exact .refl s
  · exact .refl s

/-- A request is served, or it waits, or it is refused. -/
theorem asked {client : Client} {timeout : Option Millis} (hs : Sound none none s)
    (hc : s.client? client.id = some client) (hopen : client.closed = false)
    (ha : Asked s (s.newRequest client timeout) t) : Booked 0 s t := by
  have hmade : Booked 0 s (s.openRequest (s.newRequest client timeout)) :=
    (Booked.refl s).of_eq rfl rfl
  cases ha with
  | served _ m => exact hmade.grant (coherent_openRequest hs hc hopen timeout) m
  | refused => exact hmade.of_eq rfl rfl
  | waiting =>
    exact List.foldlRecOn client.watching _ hmade fun _ h name _ =>
      h.adjustTube name fun _ => ⟨rfl, rfl, rfl⟩

theorem advance (s : Engine) (span : Millis) : Booked 0 s (s.advance span) := by
  obtain ⟨-, hjobs, htubes⟩ := foldl_fireTimer_frame (s.now + span) s.requests s
  exact (Booked.refl s).of_eq hjobs htubes

end Booked

/-! ## Rows of transitions -/

section

variable {now : Instant} {who leaving : Option ClientId} {name : TubeName}

theorem entry_of_return (h : Return now who job f) :
    (f job).makeReady.entry = job.entry := by
  rw [Job.entry, Job.entry, h.alike.id, h.alike.tube]
  simp [Job.makeReady, h.not_deleted]

/-- A sound state on the way of an event, with the books of `n` more timeouts. -/
structure Booking (leaving : Option ClientId) (n : Nat) (s t : Engine) : Prop where
  sound : Sound leaving none t
  books : Booked n s t

/-- A tube that is woken is drained. -/
theorem Booked.drain (h : Booked n s t) (ht : Sound leaving (some name) t) :
    Booking leaving n s (t.drain name) := by
  obtain ⟨hsound, hbooks⟩ := ht.drain_keeping
    (fun _ _ _ hs h m => Booked.grant h hs.toCoherent m.toMatch)
    (fun _ _ h => h.adjustTube name fun _ => ⟨rfl, rfl, rfl⟩) h
  exact ⟨hsound, hbooks⟩

namespace Booking

theorem back (h : Booking leaving n s t) (hj : t.job? job.id = some job)
    (hr : Return t.now who job f)
    (htimeouts : (f job).counts.timeouts = job.counts.timeouts + m) :
    Booking leaving (n + m) s (t.enterReady job f) := by
  have hmove : Booked m t (t.move job.id fun job => (f job).makeReady) :=
    .move h.sound.listed.jobs hj hr.alike.tube (entry_of_return hr) htimeouts
  exact (h.books.trans hmove).drain (h.sound.comeBack hj hr)

theorem kickJob (h : Booking leaving n s t) (id : JobId) :
    Booking leaving n s (t.kickJob id).2 :=
  transition_cases (fun _ => h) fun job hj _ hopen =>
    have hr : Return t.now none job (·.countKick) := .kick hopen
    h.back (m := 0) hj hr rfl

theorem promote (h : Booking leaving n s t) (id : JobId) :
    Booking leaving n s (t.promote id).2 :=
  transition_cases (fun _ => h) fun _ hj _ hopen =>
    have hr : Return t.now none _ (·) := .promote hopen
    h.back (m := 0) hj hr rfl

theorem giveBack {c : ClientId} (h : Booking leaving n s t) (id : JobId) :
    Booking leaving n s (t.giveBack c id).2 :=
  transition_cases (fun _ => h) fun _ hj _ hopen =>
    h.back (m := 0) hj (.giveBack rfl hopen) rfl

/-- The job counts the timeout itself. -/
theorem expire (h : Booking leaving n s t) (id : JobId) :
    Booking leaving (n + (t.expire id).1.toNat) s (t.expire id).2 := by
  unfold Engine.expire transition
  split
  · next job hj =>
    obtain rfl : job.id = id := Table.key_of_lookup hj
    split
    · next hover =>
      have hr : Return t.now none job (·.countTimeout) := .expire hover
      exact h.back hj hr rfl
    · exact h
  · exact h

theorem resume (h : Booking leaving n s t) (name : TubeName) :
    Booking leaving n s (t.resume name) := by
  unfold Engine.resume
  split
  · have hwaking : Sound leaving (some name) (t.adjustTube name ({ · with pausedUntil := none })) :=
      h.sound.wake.adjustTube name (fun _ => ⟨⟨rfl, rfl, rfl, rfl, rfl⟩, rfl⟩)
        fun hne => absurd rfl hne
    have hbooks : Booked n s (t.adjustTube name ({ · with pausedUntil := none })) :=
      h.books.adjustTube name fun _ => ⟨rfl, rfl, rfl⟩
    exact hbooks.drain hwaking
  · exact h

theorem dropIdle (h : Booking leaving n s t) (c : ClientId) :
    Booking leaving n s (t.dropIdle c) := by
  unfold Engine.dropIdle
  split
  · exact ⟨h.sound.of_eq rfl rfl rfl rfl rfl, h.books.of_eq rfl rfl⟩
  · exact h

theorem kick (h : Booking leaving n s t) (name : TubeName) (bound : Nat) :
    Booking leaving n s (t.kick name bound).2 := by
  unfold Engine.kick
  split
  · exact transitionEach_keeps (fun _ id h => h.kickJob id) _ h
  · exact h

theorem delayedSweep (h : Booking leaving n s t) : Booking leaving n s t.delayedSweep.2 :=
  foldl_keeps (fun n => n) (fun t name h =>
    have hpromoted : Booking leaving n s
        (transitionEach Engine.promote t ((t.dueJobs name).take promotionCap)).2 :=
      transitionEach_keeps (fun _ id h => h.promote id) _ h
    hpromoted.resume name) t.tubes.keys 0 h

/-- The sweep counts as many timeouts as the jobs do. -/
theorem expirySweep (h : Booking leaving n s t) :
    Booking leaving (n + t.expirySweep.1) s t.expirySweep.2 := by
  refine foldl_counted (R := fun k u => Booking leaving (n + k) s u) (fun k => k)
    (fun u c k hu => ?_) t.expiring h
  have hexpired : Booking leaving (n + k + (u.expireClient c).1) s
      (transitionEach Engine.expire u (u.overdueJobs c)).2 :=
    foldl_counted (R := fun i v => Booking leaving (n + k + i) s v) Bool.toNat
      (fun v id i hv => Nat.add_assoc (n + k) i _ ▸ hv.expire id) (u.overdueJobs c) hu
  exact Nat.add_assoc n k _ ▸ hexpired.dropIdle c

end Booking

theorem Booked.close {client : Client} (hs : Sound none none s)
    (hc : s.client? client.id = some client) : Booked 0 s (s.close client.id) := by
  have hdone : Booking (some client.id) 0 s (s.finishAll client.id) :=
    ⟨hs.finishAll client.id, (Booked.refl s).of_eq rfl rfl⟩
  have hgiven : Booking (some client.id) 0 s ((s.finishAll client.id).giveBackAll client.id) :=
    giveBackAll_keeps (fun _ id h => h.giveBack id) hdone
  have hused : Booked 0 s
      (((s.finishAll client.id).giveBackAll client.id).removeUser client.used) :=
    hgiven.books.adjustTube client.used fun _ => ⟨rfl, rfl, rfl⟩
  have hleft : Booked 0 s (client.watching.foldl removeWatcher
      (((s.finishAll client.id).giveBackAll client.id).removeUser client.used)) :=
    List.foldlRecOn client.watching _ hused fun _ h name _ =>
      h.adjustTube name fun _ => ⟨rfl, rfl, rfl⟩
  rw [close_eq hc]
  exact hleft.of_eq rfl rfl

end

/-! ## Jobs that come and go -/

/-- A job that is made is counted by its tube. -/
theorem Balanced.makeJob (h : s.Balanced) (name : TubeName) (pri : Nat) (delay ttr : Millis)
    (body : Bytes) : (s.makeJob name pri delay ttr body).Balanced := by
  have hjobs : (s.makeJob name pri delay ttr body).jobs =
      s.jobs ++ [s.newJob name pri delay ttr body] := rfl
  constructor
  · intro tube ht
    rw [hjobs, List.countP_append, List.countP_singleton]
    rcases Table.mem_adjust.1 ht with ⟨a, ha, rfl, rfl⟩ | ⟨ht, hne⟩
    · simp [h.total a ha, Keyed.key]
    · have hne : name ≠ tube.name := Ne.symm hne
      simp [h.total tube ht, hne]
  · intro tube ht
    rw [hjobs, List.countP_append, List.countP_singleton]
    rcases Table.mem_adjust.1 ht with ⟨a, ha, -, rfl⟩ | ⟨ht, -⟩
    · simp [h.deleted a ha]
    · simp [h.deleted tube ht]

section Discard

variable (hj : s.job? job.id = some job)

include hj

theorem jobs_discard : (s.discard job).jobs =
    s.jobs.adjust job.id fun _ => { job.makeDeleted with registered := false } := by
  rw [discard_eq hj, move_eq hj rfl]
  rfl

theorem counters_discard {tube : Tube} (ht : tube ∈ (s.discard job).tubes) :
    ∃ a ∈ s.tubes, tube.name = a.name ∧ tube.totalJobs = a.totalJobs ∧
      tube.cmdDelete = a.cmdDelete + (decide (job.tube = a.name)).toNat := by
  rw [discard_eq hj] at ht
  rcases Table.mem_adjust.1 ht with ⟨moved, hmoved, hkey, rfl⟩ | ⟨ht, hne⟩
  · obtain ⟨a, ha, hname, htotal, hdelete⟩ := counters_move hj rfl hmoved
    have hkey : job.tube = a.name := hkey.symm.trans hname
    exact ⟨a, ha, hname, htotal, by simp [hdelete, hkey]⟩
  · obtain ⟨a, ha, hname, htotal, hdelete⟩ := counters_move hj rfl ht
    have hne : job.tube ≠ a.name := fun he => hne (hname.trans he.symm)
    exact ⟨a, ha, hname, htotal, by simp [hdelete, hne]⟩

/-- A job that is discarded is counted once more by its tube. -/
theorem Balanced.discard (h : s.Balanced) (hn : s.jobs.Numbered) (hst : job.state ≠ .deleted) :
    (s.discard job).Balanced ∧ (s.discard job).jobs.length = s.jobs.length ∧
      (s.discard job).timeouts = s.timeouts := by
  have hmem := ((job?_eq_some_iff hn).1 hj).1
  have hjobs := jobs_discard hj
  have hcount (p : Job → Bool) : (s.discard job).jobs.countP p + (p job).toNat =
      s.jobs.countP p + (p { job.makeDeleted with registered := false }).toNat :=
    hjobs ▸ Table.countP_adjust_const hn.nodup hmem _ p
  refine ⟨⟨fun tube ht => ?_, fun tube ht => ?_⟩, ?_, ?_⟩
  · obtain ⟨a, ha, hname, htotal, -⟩ := counters_discard hj ht
    rw [htotal, h.total a ha, hname]
    exact (Nat.add_right_cancel (hcount fun x => x.tube = a.name)).symm
  · obtain ⟨a, ha, hname, -, hdelete⟩ := counters_discard hj ht
    have hmore := hcount fun job => job.tube = a.name && job.state = .deleted
    rw [decide_eq_false hst, Bool.and_false] at hmore
    rw [hdelete, h.deleted a ha, hname]
    exact (hmore.trans (congrArg (_ + Bool.toNat ·) (Bool.and_true _))).symm
  · rw [hjobs, Table.length_adjust]
  · have hsum := Table.sum_adjust_const hn.nodup hmem { job.makeDeleted with registered := false }
      (·.counts.timeouts)
    exact Nat.add_right_cancel (hjobs ▸ hsum)

end Discard

end Engine

end WorkQueue
