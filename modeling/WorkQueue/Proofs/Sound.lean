import WorkQueue.Proofs.Queues

/-!
# Sound engines

`Engine.Sound` gathers what every state of an engine satisfies, and this file shows that each
elementary change keeps it : a change of tubes or clients that no list or queue depends on, a move
(`Sound.move`), the drain of a tube that is being woken (`Sound.drain_keeping`), an answer without a
job (`Sound.answer`). Two marks say what may be undone on the way : a client is `leaving` when its
requests have been given up but it is not closed yet, and a tube is `waking` when it has a new ready
job but has not been drained yet.
-/

namespace WorkQueue

/-- A job has been placed, is registered until it is deleted, and has a time to run. -/
structure Job.Settled (job : Job) : Prop where
  placed : job.state ≠ .new
  registered : job.registered = true ↔ job.state ≠ .deleted
  ttr : minTtr ≤ job.ttr

namespace Engine

variable {s t : Engine} {leaving : Option ClientId} {waking : Option TubeName}

/-- The tubes that clients use and watch and requests wait at are there, and no client watches one
twice. -/
structure Posted (s : Engine) : Prop where
  default : .default ∈ s.tubes.keys
  used : ∀ client ∈ s.clients, client.used ∈ s.tubes.keys
  watching : ∀ client ∈ s.clients, client.watching ⊆ s.tubes.keys
  distinct : ∀ client ∈ s.clients, client.watching.Nodup
  requests : ∀ q ∈ s.requests, q.tubes ⊆ s.tubes.keys

theorem Posted.of_keys (h : s.Posted) (hk : s.tubes.keys ⊆ t.tubes.keys)
    (hc : ∀ b ∈ t.clients, ∃ a ∈ s.clients, b.used = a.used ∧ b.watching = a.watching)
    (hr : t.requests = s.requests) : t.Posted := by
  refine ⟨hk h.default, fun b hb => ?_, fun b hb => ?_, fun b hb => ?_, fun q hq => ?_⟩
  · obtain ⟨a, ha, hu, -⟩ := hc b hb
    exact hu ▸ hk (h.used a ha)
  · obtain ⟨a, ha, -, hw⟩ := hc b hb
    exact hw ▸ List.Subset.trans (h.watching a ha) hk
  · obtain ⟨a, ha, -, hw⟩ := hc b hb
    exact hw ▸ h.distinct a ha
  · exact List.Subset.trans (h.requests q (hr ▸ hq)) hk

theorem Posted.move (h : s.Posted) {job : Job} {f : Job → Job} (hj : s.job? job.id = some job)
    (htube : (f job).tube = job.tube) : (s.move job.id f).Posted := by
  refine h.of_keys (fun _ hk => keys_move s job.id f ▸ hk) (fun b hb => ?_)
    (move_frame s job.id f).2.1
  rw [move_eq hj htube] at hb
  obtain ⟨a, ha, rfl⟩ := List.mem_map.1 hb
  refine ⟨a, ha, ?_⟩
  unfold Client.rehold Client.letGo Client.hold
  dsimp only
  split <;> split <;> exact ⟨rfl, rfl⟩

/-- A change of a client that goes on to use and watch the same tubes. -/
theorem Posted.adjustClient (h : s.Posted) (c : ClientId) {f : Client → Client}
    (hf : ∀ client, (f client).used = client.used ∧ (f client).watching = client.watching) :
    (s.adjustClient c f).Posted :=
  h.of_keys (List.Subset.refl _) (fun _ hb =>
    Table.exists_of_mem_adjust (R := fun a b => b.used = a.used ∧ b.watching = a.watching)
      (fun _ => ⟨rfl, rfl⟩) (fun client _ => hf client) hb) rfl

theorem Posted.finish (h : s.Posted) (q : Request) : (s.finish q).Posted :=
  h.adjustClient q.client fun _ => ⟨rfl, rfl⟩

theorem settled_move (h : ∀ job ∈ s.jobs, job.Settled) {job : Job} {f : Job → Job}
    (hj : s.job? job.id = some job) (htube : (f job).tube = job.tube)
    (hsettled : (f job).Settled) : ∀ x ∈ (s.move job.id f).jobs, x.Settled := by
  intro x hx
  rcases of_mem_jobs_move hj htube hx with rfl | ⟨hx, -⟩
  · exact hsettled
  · exact h x hx

/-- The tubes after one has been made sure of. -/
theorem mem_keys_ensureTube (s : Engine) (name : TubeName) :
    name ∈ (s.ensureTube name).tubes.keys ∧ s.tubes.keys ⊆ (s.ensureTube name).tubes.keys := by
  unfold ensureTube
  split
  · next hk => exact ⟨by simpa [tube?, Table.lookup_isSome_iff] using hk, List.Subset.refl _⟩
  · simp only [Table.keys, List.map_append]
    exact ⟨List.mem_append_right _ List.mem_cons_self, List.subset_append_left _ _⟩

theorem Match.posted {name : TubeName} {q : Request} {id : JobId} (m : s.Match name q id)
    (hc : s.Coherent) (h : s.Posted) : (s.grant q id).Posted := by
  obtain ⟨job, hj, rfl, -, -⟩ := hc.listed.ready_of_next? m.next
  obtain ⟨htubes, -, hclients⟩ := m.grant_tables hc.tracked
  have hmove := (h.finish q).move (f := (·.makeReserved s.now q.client)) hj rfl
  refine hmove.of_keys (fun _ hk => htubes ▸ hk) (fun b hb => ⟨b, hclients ▸ hb, rfl, rfl⟩) ?_
  rw [(m.fewer hc).requests]
  exact (move_frame (s.finish q) job.id _).2.1.symm

theorem Match.settled {name : TubeName} {q : Request} {id : JobId} (m : s.Match name q id)
    (hc : s.Coherent) (h : ∀ job ∈ s.jobs, job.Settled) :
    ∀ job ∈ (s.grant q id).jobs, job.Settled := by
  obtain ⟨job, hj, rfl, -, hst⟩ := hc.listed.ready_of_next? m.next
  obtain ⟨-, hjobs, -⟩ := m.grant_tables hc.tracked
  have hjob := h job ((job?_eq_some_iff hc.listed.jobs).1 hj).1
  have hsettled : (job.makeReserved s.now q.client).Settled :=
    ⟨nofun, by simpa [Job.makeReserved, hst] using hjob.registered, hjob.ttr⟩
  rw [hjobs]
  exact settled_move (s := s.finish q) h hj rfl hsettled

/-- What holds in every state, but for a client that is leaving and a tube that is being woken. -/
structure Steady (leaving : Option ClientId) (waking : Option TubeName) (s : Engine) : Prop
    extends s.Coherent where
  attended : Attended leaving s
  queued : s.Queued
  awake : Awake waking s
  posted : s.Posted

/-- A steady state in which all jobs are settled. -/
structure Sound (leaving : Option ClientId) (waking : Option TubeName) (s : Engine) : Prop
    extends Steady leaving waking s where
  settled : ∀ job ∈ s.jobs, job.Settled

namespace Steady

/-- The queues are as they should be after a quiet change. -/
theorem of_quiet {leaving' : Option ClientId} (h : Steady leaving waking s)
    (hquiet : Quiet waking s t) (hc : t.Coherent) (ha : Attended leaving' t) (hp : t.Posted) :
    Steady leaving' waking t :=
  { hc with
    attended := ha
    queued := hquiet.queued hc.tracked.numbered h.queued
    awake := hquiet.awake hc.tracked.numbered h.queued h.awake
    posted := hp }

theorem wake (h : Steady leaving none s) : Steady leaving waking s :=
  { h with awake := h.awake.mono }

/-- A job that is made, and not placed yet. -/
theorem create (h : Steady leaving waking s) {name : TubeName} (hname : name ∈ s.tubes.keys)
    (pri : Nat) (delay ttr : Millis) (body : Bytes) :
    Steady leaving waking (s.create name pri delay ttr body) := by
  have hdesk : SameDesk s (s.create name pri delay ttr body) := .of_eq rfl rfl
  exact h.of_quiet (.of_tubes_eq (.of_sameDesk hdesk) rfl)
    ⟨h.listed.create hname pri delay ttr body, h.tracked.of_fewer (.of_sameDesk hdesk) rfl⟩
    (h.attended.of_sameDesk hdesk rfl)
    (h.posted.of_keys (List.Subset.refl _) (fun b hb => ⟨b, hb, rfl, rfl⟩) rfl)

theorem move (h : Steady leaving waking s) {job : Job} {f : Job → Job}
    (hj : s.job? job.id = some job) (hid : (f job).id = job.id) (htube : (f job).tube = job.tube)
    (hholder : ∀ c due, (f job).state = .reserved c due → s.isConnected c = true)
    (hready : (f job).state = .ready → waking = some job.tube) :
    Steady leaving waking (s.move job.id f) := by
  have hdesk := sameDesk_move hj htube
  obtain ⟨-, -, hdel⟩ := move_frame s job.id f
  exact h.of_quiet (.move hj htube hready)
    ⟨h.listed.move hj hid htube hholder, h.tracked.of_fewer (.of_sameDesk hdesk) hdel⟩
    (h.attended.of_sameDesk hdesk hdel) (h.posted.move hj htube)

end Steady

namespace Sound

theorem of_quiet {leaving' : Option ClientId} (h : Sound leaving waking s)
    (hquiet : Quiet waking s t) (hc : t.Coherent) (ha : Attended leaving' t) (hp : t.Posted)
    (hs : ∀ job ∈ t.jobs, job.Settled) : Sound leaving' waking t :=
  { h.toSteady.of_quiet hquiet hc ha hp with settled := hs }

theorem wake (h : Sound leaving none s) : Sound leaving waking s :=
  { h.toSteady.wake with settled := h.settled }

theorem of_eq (h : Sound leaving waking s) (htubes : t.tubes = s.tubes) (hjobs : t.jobs = s.jobs)
    (hclients : t.clients = s.clients) (hreq : t.requests = s.requests)
    (hdel : t.deliveries = s.deliveries) : Sound leaving waking t := by
  have hdesk : SameDesk s t := .of_eq hreq hclients
  have hc : t.Coherent := ⟨h.listed.of_eq htubes hjobs hclients,
    h.tracked.of_fewer (.of_sameDesk hdesk) hdel⟩
  have hp : t.Posted := h.posted.of_keys (by rw [htubes]; exact List.Subset.refl _)
    (fun b hb => ⟨b, hclients ▸ hb, rfl, rfl⟩) hreq
  exact h.of_quiet (.of_tubes_eq (.of_sameDesk hdesk) htubes) hc
    (h.attended.of_sameDesk hdesk hdel) hp (hjobs ▸ h.settled)

/-! ## Tubes and clients -/

theorem adjustTube (h : Sound leaving waking s) (name : TubeName) {f : Tube → Tube}
    (hf : ∀ tube : Tube, tube.SameLists (f tube) ∧ (f tube).waiters = tube.waiters)
    (hpause : some name ≠ waking → ∀ tube : Tube,
      (f tube).pausedUntil = none → tube.pausedUntil = none) :
    Sound leaving waking (s.adjustTube name f) := by
  have hdesk := sameDesk_adjustTube s name f
  have hquiet : Quiet waking s (s.adjustTube name f) := .adjustTube s name fun tube hname =>
    ⟨(hf tube).1.name, (hf tube).2, fun hne => hpause (hname ▸ hne) tube,
      fun _ hnil => (hf tube).1.ready.trans hnil⟩
  have hkeys := keys_adjustTube s name fun tube => (hf tube).1.name
  exact h.of_quiet hquiet
    ⟨h.listed.adjustTube name fun tube => (hf tube).1, h.tracked.of_fewer (.of_sameDesk hdesk) rfl⟩
    (h.attended.of_sameDesk hdesk rfl)
    (h.posted.of_keys (fun _ hk => hkeys.symm ▸ hk) (fun b hb => ⟨b, hb, rfl, rfl⟩) rfl) h.settled

/-- Another use or watch of a client. -/
theorem adjustClient (h : Sound leaving waking s) (c : ClientId) {f : Client → Client}
    (hf : ∀ client, (f client).id = client.id ∧ (f client).held = client.held ∧
      (f client).tasks = client.tasks ∧ (f client).closed = client.closed)
    (hposted : ∀ client ∈ s.clients, client.id = c → (f client).used ∈ s.tubes.keys ∧
      (f client).watching ⊆ s.tubes.keys ∧ (f client).watching.Nodup) :
    Sound leaving waking (s.adjustClient c f) := by
  have hdesk : SameDesk s (s.adjustClient c f) := by
    refine .of_map rfl rfl fun client => ?_
    split
    · exact ⟨(hf client).1, (hf client).2.2.1, (hf client).2.2.2⟩
    · exact ⟨rfl, rfl, rfl⟩
  have hl : (s.adjustClient c f).Listed :=
    h.listed.adjustClient c (fun client => ⟨(hf client).1, (hf client).2.1⟩)
      fun _ _ _ _ client => (hf client).2.2.2
  refine h.of_quiet (.of_tubes_eq (.of_sameDesk hdesk) rfl)
    ⟨hl, h.tracked.of_fewer (.of_sameDesk hdesk) rfl⟩ (h.attended.of_sameDesk hdesk rfl) ?_
    h.settled
  have hmem {b : Client} (hb : b ∈ s.clients.adjust c f) : b.used ∈ s.tubes.keys ∧
      b.watching ⊆ s.tubes.keys ∧ b.watching.Nodup := by
    rcases Table.mem_adjust.1 hb with ⟨a, ha, hid, rfl⟩ | ⟨hb, -⟩
    · exact hposted a ha hid
    · exact ⟨h.posted.used b hb, h.posted.watching b hb, h.posted.distinct b hb⟩
  exact ⟨h.posted.default, fun b hb => (hmem hb).1, fun b hb => (hmem hb).2.1,
    fun b hb => (hmem hb).2.2, h.posted.requests⟩

theorem ensureTube (h : Sound leaving waking s) (name : TubeName) :
    Sound leaving waking (s.ensureTube name) := by
  have hlisted := h.listed.ensureTube name
  unfold Engine.ensureTube at hlisted ⊢
  split at hlisted
  · next hk =>
    rw [if_pos hk]
    exact h
  · next hk =>
    rw [if_neg hk]
    have hnew : name ∉ s.tubes.keys := by simpa [tube?, Table.lookup_isSome_iff] using hk
    have hdesk : SameDesk s { s with tubes := s.tubes ++ [{ name := name }] } := .of_eq rfl rfl
    refine
      { listed := hlisted
        tracked := h.tracked.of_fewer (.of_sameDesk hdesk) rfl
        attended := h.attended.of_sameDesk hdesk rfl
        queued := ⟨fun tube ht r hr => ?_, fun tube ht => ?_⟩
        awake := fun tube ht hne hpause => ?_
        posted := h.posted.of_keys ?_ (fun b hb => ⟨b, hb, rfl, rfl⟩) rfl
        settled := h.settled }
    · rcases List.mem_append.1 ht with ht | ht
      · exact h.queued.known tube ht r hr
      · rw [List.mem_singleton.1 ht] at hr
        exact absurd hr List.not_mem_nil
    · rcases List.mem_append.1 ht with ht | ht
      · exact h.queued.turns tube ht
      · -- nobody waits at a tube that was not there
        rw [List.mem_singleton.1 ht]
        refine (List.map_eq_nil_iff.2 (List.filter_eq_nil_iff.2 fun q hq => ?_)).symm
        have hq : name ∉ q.tubes := fun hw => hnew (h.posted.requests q hq hw)
        simp [hq]
    · rcases List.mem_append.1 ht with ht | ht
      · exact h.awake tube ht hne hpause
      · rw [List.mem_singleton.1 ht]
        exact Or.inl rfl
    · simp only [Table.keys, List.map_append]
      exact List.subset_append_left _ _

theorem addUser (h : Sound leaving waking s) (name : TubeName) :
    Sound leaving waking (s.addUser name) := by
  unfold Engine.addUser
  exact h.adjustTube name (fun _ => ⟨⟨rfl, rfl, rfl, rfl, rfl⟩, rfl⟩) fun _ _ => id

theorem removeUser (h : Sound leaving waking s) (name : TubeName) :
    Sound leaving waking (s.removeUser name) := by
  unfold Engine.removeUser
  exact h.adjustTube name (fun _ => ⟨⟨rfl, rfl, rfl, rfl, rfl⟩, rfl⟩) fun _ _ => id

theorem addWatcher (h : Sound leaving waking s) (name : TubeName) :
    Sound leaving waking (s.addWatcher name) := by
  unfold Engine.addWatcher
  exact h.adjustTube name (fun _ => ⟨⟨rfl, rfl, rfl, rfl, rfl⟩, rfl⟩) fun _ _ => id

theorem removeWatcher (h : Sound leaving waking s) (name : TubeName) :
    Sound leaving waking (s.removeWatcher name) := by
  unfold Engine.removeWatcher
  exact h.adjustTube name (fun _ => ⟨⟨rfl, rfl, rfl, rfl, rfl⟩, rfl⟩) fun _ _ => id

/-- A new client uses and watches the default tube. -/
theorem openClient (h : Sound leaving waking s) : Sound leaving waking s.openClient := by
  have htubes : Sound leaving waking ((s.addUser .default).addWatcher .default) :=
    (h.addUser .default).addWatcher .default
  have hn := h.listed.clients
  have ht := h.tracked.openClient hn
  have hquiet : Quiet waking ((s.addUser .default).addWatcher .default) s.openClient := by
    refine ⟨⟨[], by simp [Engine.openClient], by simp⟩, fun q hq ho => ?_,
      fun b hb => ⟨b, hb, .refl _ b⟩⟩
    obtain ⟨client, hs, -⟩ := h.tracked.asked q hq
    rw [isOpen, client?_openClient_of_ne s (ne_nextClient hn hs)] at ho
    exact ho
  refine htubes.of_quiet hquiet ⟨h.listed.openClient, ht⟩ (h.attended.openClient h.tracked hn) ?_
    h.settled
  have hposted := htubes.posted
  have hmem {b : Client} (hb : b ∈ s.openClient.clients) :
      b ∈ s.clients ∨ b = { id := s.nextClient } := by
    rcases List.mem_append.1 hb with hb | hb
    · exact Or.inl hb
    · exact Or.inr (List.mem_singleton.1 hb)
  refine ⟨hposted.default, fun b hb => ?_, fun b hb => ?_, fun b hb => ?_, hposted.requests⟩
  · rcases hmem hb with hb | rfl
    · exact hposted.used b hb
    · exact hposted.default
  · rcases hmem hb with hb | rfl
    · exact hposted.watching b hb
    · exact List.cons_subset.2 ⟨hposted.default, List.nil_subset _⟩
  · rcases hmem hb with hb | rfl
    · exact hposted.distinct b hb
    · exact List.nodup_singleton _

theorem useTube (hs : Sound leaving waking s) (c : ClientId) (name : TubeName) :
    Sound leaving waking (s.useTube c name) := by
  unfold Engine.useTube
  split
  · next client hc =>
    have h := ((hs.ensureTube name).addUser name).removeUser client.used
    obtain ⟨hname, -⟩ := mem_keys_ensureTube s name
    refine h.adjustClient c (fun _ => ⟨rfl, rfl, rfl, rfl⟩) fun d hd _ =>
      ⟨?_, h.posted.watching d hd, h.posted.distinct d hd⟩
    unfold Engine.removeUser Engine.addUser
    rw [keys_adjustTube, keys_adjustTube]
    · exact hname
    all_goals exact fun _ => rfl
  · exact hs

theorem watch (hs : Sound leaving waking s) (c : ClientId) (name : TubeName) :
    Sound leaving waking (s.watch c name) := by
  have he := hs.ensureTube name
  unfold Engine.watch
  dsimp only
  split
  · next client hc =>
    split
    · exact he
    · next hnew =>
      have h := he.addWatcher name
      have hmem := (client?_eq_some_iff he.listed.clients).1 hc
      have hkeys : ((s.ensureTube name).addWatcher name).tubes.keys =
          (s.ensureTube name).tubes.keys := keys_adjustTube _ name fun _ => rfl
      refine h.adjustClient c (fun _ => ⟨rfl, rfl, rfl, rfl⟩) fun d hd hid =>
        ⟨h.posted.used d hd, ?_, ?_⟩
      · refine List.append_subset.2 ⟨h.posted.watching d hd, ?_⟩
        rw [hkeys]
        exact List.cons_subset.2 ⟨(mem_keys_ensureTube s name).1, List.nil_subset _⟩
      · have hd : d = client :=
          Table.eq_of_key_eq he.listed.clients.nodup hd hmem.1 (hid.trans hmem.2.symm)
        rw [hd]
        refine List.nodup_append_comm.mp ?_
        simpa [h.posted.distinct client (hd ▸ ‹d ∈ _›)] using hnew
  · exact he

theorem ignore (hs : Sound leaving waking s) (c : ClientId) (name : TubeName) :
    Sound leaving waking (s.ignore c name) := by
  unfold Engine.ignore
  split
  · split
    · have h := hs.removeWatcher name
      exact h.adjustClient c (fun _ => ⟨rfl, rfl, rfl, rfl⟩) fun d hd _ =>
        ⟨h.posted.used d hd,
          List.Subset.trans (List.filter_subset_self _) (h.posted.watching d hd),
          (h.posted.distinct d hd).filter _⟩
    · exact hs
  · exact hs

/-! ## Moves -/

theorem move (h : Sound leaving waking s) {job : Job} {f : Job → Job}
    (hj : s.job? job.id = some job) (hid : (f job).id = job.id) (htube : (f job).tube = job.tube)
    (hholder : ∀ c due, (f job).state = .reserved c due → s.isConnected c = true)
    (hready : (f job).state = .ready → waking = some job.tube) (hsettled : (f job).Settled) :
    Sound leaving waking (s.move job.id f) :=
  { h.toSteady.move hj hid htube hholder hready with
    settled := settled_move h.settled hj htube hsettled }

/-! ## Turns and drains -/

theorem grant (h : Sound leaving waking s) {name : TubeName} {q : Request} {id : JobId}
    (m : s.Match name q id) : Sound leaving waking (s.grant q id) :=
  h.of_quiet (m.quiet h.toCoherent) (m.coherent h.toCoherent)
    (m.attended h.toCoherent h.attended) (m.posted h.toCoherent h.posted)
    (m.settled h.toCoherent h.settled)

/-- After a drain the tube is awake. What every turn and the cut of the queue keep is kept. -/
theorem drain_keeping {R : Engine → Prop} {name : TubeName}
    (hgrant : ∀ s q id, Sound leaving (some name) s → R s → s.Turn name q id → R (s.grant q id))
    (hcut : ∀ s rest, R s → R (s.adjustTube name fun tube => { tube with waiters := rest }))
    (h : Sound leaving (some name) s) (hr : R s) :
    Sound leaving none (s.drain name) ∧ R (s.drain name) := by
  refine drain_induction (P := fun s => Sound leaving (some name) s ∧ R s)
    (Q := fun s => Sound leaving none s ∧ R s) (fun s h => ⟨h.1.toCoherent, h.1.queued⟩)
    (fun s q id h m => ⟨h.1.grant m.toMatch, hgrant s q id h.1 h.2 m⟩) ?_ ?_ ⟨h, hr⟩
  · rintro s rest ⟨h, hr⟩ hrem hdone
    have hdesk := sameDesk_adjustTube s name fun tube => { tube with waiters := rest }
    have hkeys := keys_adjustTube s name (f := ({ · with waiters := rest })) fun _ => rfl
    exact ⟨
      { settled := h.settled
        listed := h.listed.adjustTube name fun _ => ⟨rfl, rfl, rfl, rfl, rfl⟩
        tracked := h.tracked.of_fewer (.of_sameDesk hdesk) rfl
        attended := h.attended.of_sameDesk hdesk rfl
        queued := hrem.queued_cut h.listed h.queued
        awake := hrem.awake_cut h.listed h.awake hdone
        posted := h.posted.of_keys (fun _ hk => hkeys.symm ▸ hk)
          (fun b hb => ⟨b, hb, rfl, rfl⟩) rfl },
      hcut s rest hr⟩
  · intro hnone
    refine ⟨{ h with awake := fun tube ht _ => h.awake tube ht fun he => ?_ }, hr⟩
    have hk : tube.name ∈ s.tubes.keys := List.mem_map_of_mem ht
    rw [Option.some.inj he] at hk
    exact Table.lookup_eq_none_iff.1 hnone hk

/-! ## Requests without a job -/

/-- An answer without a job. -/
theorem answer (h : Sound leaving waking s) {q : Request} (hq : q ∈ s.requests)
    (ho : s.isOpen q = true) {outcome : Outcome} (hadm : q.Admits outcome) (time : Instant) :
    Sound leaving waking ((s.finish q).deliver q.id outcome time) :=
  h.of_quiet (.of_tubes_eq (fewer_answer s q outcome time) rfl)
    (h.toCoherent.answer hq ho hadm time)
    (h.attended.answer h.tracked hq (.refl _) rfl outcome time)
    ((h.posted.finish q).of_keys (List.Subset.refl _) (fun b hb => ⟨b, hb, rfl, rfl⟩) rfl)
    h.settled

/-- The client that is closed gives up its requests first. -/
theorem finishAll (h : Sound none none s) (c : ClientId) : Sound (some c) none (s.finishAll c) := by
  have hf := fewer_finishAll s c
  have hl : (s.finishAll c).Listed :=
    h.listed.adjustClient c (fun _ => ⟨rfl, rfl⟩) fun _ _ _ _ _ => rfl
  exact h.of_quiet (.of_tubes_eq hf rfl) ⟨hl, h.tracked.of_fewer hf rfl⟩ (h.attended.finishAll c)
    (h.posted.adjustClient c fun _ => ⟨rfl, rfl⟩) h.settled

end Sound

end Engine

end WorkQueue
