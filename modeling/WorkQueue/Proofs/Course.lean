import WorkQueue.Proofs.Sound

/-!
# The course of an event

What an event does between its first state `s₀` and a later one `s` : time stands still, no request
is made or opened, and every answer is the grant of a job (`Engine.Granted`) to a request that was
open, given in its turn (`Engine.InTurn`). A job is as often reserved as before (`Engine.Kept`), or
once more by another client than the one that acts (`Engine.Taken`), and then nothing that the event
still does can touch it.
-/

namespace WorkQueue

namespace Engine

variable {s₀ s t : Engine} {who leaving : Option ClientId}

/-- How often a job has been reserved so far. -/
def reserves (s : Engine) (id : JobId) : Nat :=
  ((s.job? id).map (·.counts.reserves)).getD 0

/-- A job that was not reserved in the event, and is held by nobody new. -/
structure Kept (s₀ : Engine) (job : Job) : Prop where
  reserves : job.counts.reserves = s₀.reserves job.id
  holder : ∀ c, job.holder? = some c → ∃ old, s₀.job? job.id = some old ∧ old.holder? = some c

/-- A job that was reserved in the event, by another client than the one that acts. -/
structure Taken (who : Option ClientId) (s₀ : Engine) (job : Job) : Prop where
  reserves : job.counts.reserves = s₀.reserves job.id + 1
  holder : ∃ c, some c ≠ who ∧ job.state = .reserved c (s₀.now + job.ttr)

/-- An answer of the event with a job. The job went to reserved, for the client of the request and
until its time to run is up, and the request watches its tube. -/
structure Granted (s₀ s : Engine) (d : Delivery) (q : Request) (job : Job) : Prop where
  asked : q ∈ s.requests
  answers : d.request = q.id
  waited : q ∈ s₀.requests → s₀.isOpen q = true
  listed : job ∈ s.jobs
  outcome : d.outcome = .reserved job.id
  time : d.time = s₀.now
  state : job.state = .reserved q.client (s₀.now + job.ttr)
  reserves : job.counts.reserves = s₀.reserves job.id + 1
  watches : job.tube ∈ q.tubes

/-- Every earlier request that watches the tube of the job was answered earlier, unless its client
is closed or about to be. -/
def InTurn (leaving : Option ClientId) (s₀ s : Engine) (q : Request) (job : Job) : Prop :=
  ∀ p ∈ s.requests, job.tube ∈ p.tubes → p.id < q.id → s₀.isConnected p.client = true →
    some p.client ≠ leaving → [p.id, q.id].Sublist s.answered

/-- What has happened in an event so far. -/
structure Course (who leaving : Option ClientId) (s₀ s : Engine) : Prop where
  now : s.now = s₀.now
  requests : s.requests = s₀.requests
  isOpen : ∀ q, s.isOpen q = true → s₀.isOpen q = true
  clients : SameClients s₀ s
  known : ∀ id ∈ s₀.jobs.keys, id ∈ s.jobs.keys
  jobs : ∀ job ∈ s.jobs, Kept s₀ job ∨ Taken who s₀ job
  answers : ∃ fresh, s.deliveries = s₀.deliveries ++ fresh ∧ ∀ d ∈ fresh, ∃ q job,
    Granted s₀ s d q job ∧ InTurn leaving s₀ s q job ∧ some q.client ≠ who

theorem reserves_eq (h : s.jobs.Numbered) {job : Job} (hj : job ∈ s.jobs) :
    s.reserves job.id = job.counts.reserves := by
  simp [reserves, (job?_eq_some_iff h).2 ⟨hj, rfl⟩]

theorem reserves_of_not_mem {id : JobId} (h : id ∉ s.jobs.keys) : s.reserves id = 0 := by
  simp [reserves, job?, Table.lookup_eq_none_iff.2 h]

theorem InTurn.mono {q : Request} {job : Job} (h : InTurn leaving s₀ s q job)
    (hr : t.requests = s.requests) (ha : s.answered.Sublist t.answered) :
    InTurn leaving s₀ t q job :=
  fun p hp htube hlt hcon hne => (h p (hr ▸ hp) htube hlt hcon hne).trans ha

namespace Course

theorem refl (h : s.jobs.Numbered) : Course who leaving s s where
  now := rfl
  requests := rfl
  isOpen := fun _ => id
  clients := fun _ hc => ⟨hc, rfl⟩
  known := fun _ => id
  jobs := fun job hj => Or.inl ⟨(reserves_eq h hj).symm, fun _ hc =>
    ⟨job, (job?_eq_some_iff h).2 ⟨hj, rfl⟩, hc⟩⟩
  answers := ⟨[], by simp, by simp⟩

/-- For nobody, the course is that of any client. -/
theorem weaken (h : Course who leaving s₀ s) : Course none leaving s₀ s := by
  refine { h with jobs := fun job hj => (h.jobs job hj).imp_right fun ht => ?_, answers := ?_ }
  · obtain ⟨c, -, hst⟩ := ht.holder
    exact ⟨ht.reserves, c, nofun, hst⟩
  · obtain ⟨fresh, hd, hfresh⟩ := h.answers
    refine ⟨fresh, hd, fun d hmem => ?_⟩
    obtain ⟨q, job, hg, hturn, -⟩ := hfresh d hmem
    exact ⟨q, job, hg, hturn, nofun⟩

/-- Changes that are not of jobs and requests. -/
theorem of_eq (h : Course who leaving s₀ s) (hnow : t.now = s.now) (hjobs : t.jobs = s.jobs)
    (hreq : t.requests = s.requests) (hdel : t.deliveries = s.deliveries)
    (hopen : ∀ q, t.isOpen q = true → s.isOpen q = true)
    (hclients : SameClients s t) :
    Course who leaving s₀ t := by
  have ha : t.answered = s.answered := congrArg (List.map _) hdel
  refine
    { now := hnow.trans h.now
      requests := hreq.trans h.requests
      isOpen := fun q ho => h.isOpen q (hopen q ho)
      clients := h.clients.trans hclients
      known := hjobs ▸ h.known
      jobs := hjobs ▸ h.jobs
      answers := ?_ }
  obtain ⟨fresh, hd, hfresh⟩ := h.answers
  refine ⟨fresh, hdel.trans hd, fun d hmem => ?_⟩
  obtain ⟨q, job, hg, hturn, hne⟩ := hfresh d hmem
  exact ⟨q, job, { hg with asked := hreq ▸ hg.asked, listed := hjobs ▸ hg.listed },
    hturn.mono hreq (ha ▸ List.Sublist.refl _), hne⟩

theorem of_sameDesk (h : Course who leaving s₀ s) (hd : SameDesk s t) (hnow : t.now = s.now)
    (hjobs : t.jobs = s.jobs) (hdel : t.deliveries = s.deliveries) : Course who leaving s₀ t :=
  h.of_eq hnow hjobs hd.requests hdel (fun q ho => hd.isOpen q ▸ ho) hd.sameClients

end Course

/-- The answer of a match. -/
theorem Match.granted {name : TubeName} {q : Request} {job : Job} (m : s.Match name q job.id)
    (hc : s.Coherent) (hj : s.job? job.id = some job) (hw : job.tube ∈ q.tubes)
    (hnow : s.now = s₀.now) (hres : job.counts.reserves = s₀.reserves job.id)
    (hwait : q ∈ s₀.requests → s₀.isOpen q = true) :
    Granted s₀ (s.grant q job.id) ⟨q.id, .reserved job.id, s.now⟩ q
      (job.makeReserved s.now q.client) where
  asked := (m.fewer hc).requests ▸ m.mem
  answers := rfl
  waited := hwait
  listed := by
    rw [(m.grant_tables hc.tracked).2.1, move_eq (s := s.finish q) hj rfl]
    exact Table.mem_adjust.2
      (Or.inl ⟨job, ((job?_eq_some_iff hc.listed.jobs).1 hj).1, rfl, rfl⟩)
  outcome := rfl
  time := hnow
  state := by
    rw [← hnow]
    rfl
  reserves := congrArg (· + 1) hres
  watches := hw

/-- An answer is recorded last. -/
theorem Match.deliveries {name : TubeName} {q : Request} {id : JobId} (m : s.Match name q id)
    (hc : s.Coherent) :
    (s.grant q id).deliveries = s.deliveries ++ [⟨q.id, .reserved id, s.now⟩] := by
  rw [m.grant_eq hc.tracked]
  exact congrArg (· ++ _) (served_frame s q id).2.2

theorem Match.answered {name : TubeName} {q : Request} {id : JobId} (m : s.Match name q id)
    (hc : s.Coherent) : (s.grant q id).answered = s.answered ++ [q.id] := by
  rw [Engine.answered, m.deliveries hc, List.map_append]
  rfl

/-- Earlier than the request of a match come all that have been answered before. -/
theorem Match.before_iff {name : TubeName} {q : Request} {id : JobId} (m : s.Match name q id)
    (hc : s.Coherent) {r : RequestId} :
    [r, q.id].Sublist (s.grant q id).answered ↔ r ∈ s.answered := by
  rw [m.answered hc]
  exact (List.append_sublist_append_right [q.id]).trans List.singleton_sublist

/-- What is granted is not touched when a job moves that was not reserved in the event. -/
theorem Granted.keep {d : Delivery} {q : Request} {x job : Job} (h : Granted s₀ s d q x)
    (hl : s.jobs.Numbered) (hj : job ∈ s.jobs) (hk : Kept s₀ job)
    (hjobs : ∀ y ∈ s.jobs, y.id ≠ job.id → y ∈ t.jobs) (hr : t.requests = s.requests) :
    Granted s₀ t d q x := by
  refine { h with asked := hr ▸ h.asked, listed := hjobs x h.listed fun hid => ?_ }
  have hsame : x = job := Table.eq_of_key_eq hl.nodup h.listed hj hid
  have hx := h.reserves
  rw [hsame, hk.reserves] at hx
  exact absurd hx (Nat.ne_of_lt (Nat.lt_succ_self _))

namespace Course

/-- A move of a job that was not reserved in the event. -/
theorem move (h : Course who leaving s₀ s) (hl : s.Listed) {job : Job} {f : Job → Job}
    (hj : s.job? job.id = some job) (htube : (f job).tube = job.tube) (hid : (f job).id = job.id)
    (hk : Kept s₀ job) (hf : Kept s₀ (f job) ∨ Taken who s₀ (f job)) :
    Course who leaving s₀ (s.move job.id f) := by
  have hdesk := sameDesk_move hj htube
  obtain ⟨hnow, hreq, hdel⟩ := move_frame s job.id f
  have hmem := ((job?_eq_some_iff hl.jobs).1 hj).1
  have ha : (s.move job.id f).answered = s.answered := congrArg (List.map _) hdel
  refine
    { now := hnow.trans h.now
      requests := hreq.trans h.requests
      isOpen := fun q ho => h.isOpen q (hdesk.isOpen q ▸ ho)
      clients := h.clients.trans hdesk.sameClients
      known := fun id hk => ?_
      jobs := fun x hx => ?_
      answers := ?_ }
  · rw [move_eq hj htube]
    simp only [Table.keys_adjust_const s.jobs (b := f job) hid]
    exact h.known id hk
  · rcases of_mem_jobs_move hj htube hx with rfl | ⟨hx, -⟩
    · exact hf
    · exact h.jobs x hx
  · obtain ⟨fresh, hd, hfresh⟩ := h.answers
    refine ⟨fresh, hdel.trans hd, fun d hmem' => ?_⟩
    obtain ⟨q, x, hg, hturn, hne⟩ := hfresh d hmem'
    exact ⟨q, x, hg.keep hl.jobs hmem hk (fun _ hy => mem_jobs_move_of_ne hj htube hy) hreq,
      hturn.mono hreq (ha ▸ List.Sublist.refl _), hne⟩

/-- A job that is made, and not placed yet. -/
theorem create (h : Course who leaving s₀ s) (hn : s.jobs.Numbered) (name : TubeName) (pri : Nat)
    (delay ttr : Millis) (body : Bytes) :
    Course who leaving s₀ (s.create name pri delay ttr body) := by
  have hold {x : Job} (hx : x ∈ s.jobs) : x ∈ (s.create name pri delay ttr body).jobs :=
    List.mem_append_left _ hx
  refine { h with known := fun id hid => ?_, jobs := fun x hx => ?_, answers := ?_ }
  · obtain ⟨x, hx, rfl⟩ := List.mem_map.1 (h.known id hid)
    exact List.mem_map_of_mem (hold hx)
  · rcases List.mem_append.1 hx with hx | hx
    · exact h.jobs x hx
    · rw [List.mem_singleton.1 hx]
      exact Or.inl ⟨(reserves_of_not_mem fun hmem => hn.next_not_mem (h.known _ hmem)).symm, nofun⟩
  · obtain ⟨fresh, hd, hfresh⟩ := h.answers
    refine ⟨fresh, hd, fun d hmem => ?_⟩
    obtain ⟨q, job, hg, hturn, hne⟩ := hfresh d hmem
    exact ⟨q, job, { hg with listed := hold hg.listed }, hturn, hne⟩

/-- A ready job was not reserved in the event. -/
theorem kept_of_ready (h : Course who leaving s₀ s) {job : Job} (hj : job ∈ s.jobs)
    (hst : job.state = .ready) : Kept s₀ job := by
  refine (h.jobs job hj).resolve_right fun ht => ?_
  obtain ⟨c, -, hres⟩ := ht.holder
  rw [hst] at hres
  cases hres

/-- A request that has its turn is answered in turn, since an earlier one that were still open would
have the turn. -/
theorem inTurn {waking : Option TubeName} {name : TubeName} {q : Request} {id : JobId}
    (h : Course who leaving s₀ s) (hs : Sound leaving waking s) (m : s.Turn name q id) {job : Job}
    (htube : job.tube = name) : InTurn leaving s₀ (s.grant q id) q job := by
  intro p hp hw hlt hcon hne
  have hp : p ∈ s.requests := (m.fewer hs.toCoherent).requests ▸ hp
  rw [m.before_iff hs.toCoherent]
  by_contra hun
  have hcon := (h.clients _ (isSome_of_isConnected hcon)).2.trans hcon
  have ho := hs.attended p hp hne hcon hun
  exact Nat.not_le_of_lt hlt (m.first p hp ho (htube ▸ hw))

/-- A turn at a tube. The request that has it is of another client than the one that acts. -/
theorem grant {waking : Option TubeName} {name : TubeName} {q : Request} {id : JobId}
    (h : Course who leaving s₀ s) (hs : Sound leaving waking s) (m : s.Turn name q id)
    (hwho : some q.client ≠ who) : Course who leaving s₀ (s.grant q id) := by
  have hc := hs.toCoherent
  have hn := hs.listed.jobs
  obtain ⟨job, hj, rfl, rfl, hst⟩ := hs.listed.ready_of_next? m.next
  obtain ⟨hmem, -⟩ := (job?_eq_some_iff hn).1 hj
  obtain ⟨-, hjobs, -⟩ := m.grant_tables hc.tracked
  have hf := m.fewer hc
  have hdel := m.deliveries hc
  have ha := m.answered hc
  have hk := h.kept_of_ready hmem hst
  have hg := m.granted hc hj m.watches h.now hk.reserves fun _ => h.isOpen q m.isOpen
  have hother {y : Job} (hy : y ∈ s.jobs) (hne : y.id ≠ job.id) : y ∈ (s.grant q job.id).jobs := by
    rw [hjobs]
    exact mem_jobs_move_of_ne (s := s.finish q) hj rfl hy hne
  refine
    { now := ?_
      requests := hf.requests.trans h.requests
      isOpen := fun p ho => h.isOpen p (hf.isOpen ho)
      clients := h.clients.trans hf.sameClients
      known := fun id hid => ?_
      jobs := fun x hx => ?_
      answers := ?_ }
  · rw [m.grant_eq hc.tracked]
    exact (served_frame s q job.id).1.trans h.now
  · obtain ⟨y, hy, rfl⟩ := List.mem_map.1 (h.known id hid)
    by_cases hid : y.id = job.id
    · exact List.mem_map.2 ⟨_, hg.listed, hid.symm⟩
    · exact List.mem_map_of_mem (hother hy hid)
  · rw [hjobs] at hx
    rcases of_mem_jobs_move (s := s.finish q) hj rfl hx with rfl | ⟨hx, -⟩
    · exact Or.inr ⟨hg.reserves, q.client, hwho, hg.state⟩
    · exact h.jobs x hx
  · obtain ⟨fresh, hd, hfresh⟩ := h.answers
    refine ⟨fresh ++ [⟨q.id, .reserved job.id, s.now⟩], by rw [hdel, hd, List.append_assoc],
      fun d hd => ?_⟩
    rcases List.mem_append.1 hd with hd | hd
    · obtain ⟨p, x, hg, hturn, hne⟩ := hfresh d hd
      exact ⟨p, x, hg.keep hn hmem hk (fun _ => hother) hf.requests,
        hturn.mono hf.requests (ha ▸ List.sublist_append_left _ _), hne⟩
    · rw [List.mem_singleton.1 hd]
      exact ⟨q, _, hg, h.inTurn hs m rfl, hwho⟩

/-- The drain of a tube is a course, if the client that acts waits for nothing. -/
theorem drain {name : TubeName} (h : Course who leaving s₀ s)
    (hwho : ∀ q, s₀.isOpen q = true → some q.client ≠ who) (hs : Sound leaving (some name) s) :
    Sound leaving none (s.drain name) ∧ Course who leaving s₀ (s.drain name) :=
  hs.drain_keeping (fun _ q _ hs h m => h.grant hs m (hwho q (h.isOpen q m.isOpen)))
    (fun _ _ h => h.of_sameDesk (sameDesk_adjustTube _ _ _) rfl rfl rfl) h

end Course

/-! ## Changes that move no job -/

/-- A change of tubes and clients alone, that leaves the desks as they are. -/
structure Aside (s t : Engine) : Prop where
  desk : SameDesk s t
  now : t.now = s.now
  jobs : t.jobs = s.jobs
  deliveries : t.deliveries = s.deliveries

namespace Aside

theorem refl (s : Engine) : Aside s s :=
  ⟨.refl s, rfl, rfl, rfl⟩

theorem trans {u : Engine} (h₁ : Aside s t) (h₂ : Aside t u) : Aside s u :=
  ⟨h₁.desk.trans h₂.desk, h₂.now.trans h₁.now, h₂.jobs.trans h₁.jobs,
    h₂.deliveries.trans h₁.deliveries⟩

theorem adjustTube (s : Engine) (name : TubeName) (f : Tube → Tube) :
    Aside s (s.adjustTube name f) :=
  ⟨sameDesk_adjustTube s name f, rfl, rfl, rfl⟩

theorem adjustClient (s : Engine) (c : ClientId) {f : Client → Client}
    (hf : ∀ client, (f client).id = client.id ∧ (f client).tasks = client.tasks ∧
      (f client).closed = client.closed) : Aside s (s.adjustClient c f) := by
  refine ⟨.of_map rfl rfl fun client => ?_, rfl, rfl, rfl⟩
  split
  · exact hf client
  · exact ⟨rfl, rfl, rfl⟩

theorem ensureTube (s : Engine) (name : TubeName) : Aside s (s.ensureTube name) := by
  unfold Engine.ensureTube
  split <;> exact ⟨.of_eq rfl rfl, rfl, rfl, rfl⟩

end Aside

theorem Course.aside (h : Course who leaving s₀ s) (ha : Aside s t) : Course who leaving s₀ t :=
  h.of_sameDesk ha.desk ha.now ha.jobs ha.deliveries

theorem aside_useTube (s : Engine) (c : ClientId) (name : TubeName) :
    Aside s (s.useTube c name) := by
  unfold useTube
  split
  · exact (Aside.ensureTube s name).trans <| (Aside.adjustTube _ _ _).trans <|
      (Aside.adjustTube _ _ _).trans <| .adjustClient _ _ fun _ => ⟨rfl, rfl, rfl⟩
  · exact ⟨.refl s, rfl, rfl, rfl⟩

theorem aside_watch (s : Engine) (c : ClientId) (name : TubeName) : Aside s (s.watch c name) := by
  refine (Aside.ensureTube s name).trans ?_
  unfold watch
  dsimp only
  split
  · split
    · exact ⟨.refl _, rfl, rfl, rfl⟩
    · exact (Aside.adjustTube _ _ _).trans <| .adjustClient _ _ fun _ => ⟨rfl, rfl, rfl⟩
  · exact ⟨.refl _, rfl, rfl, rfl⟩

theorem aside_ignore (s : Engine) (c : ClientId) (name : TubeName) : Aside s (s.ignore c name) := by
  unfold ignore
  split
  · split
    · exact (Aside.adjustTube _ _ _).trans <| .adjustClient _ _ fun _ => ⟨rfl, rfl, rfl⟩
    · exact ⟨.refl s, rfl, rfl, rfl⟩
  · exact ⟨.refl s, rfl, rfl, rfl⟩

end Engine

end WorkQueue
