import WorkQueue.Engine.Clients
import WorkQueue.Proofs.Move

/-!
# The lists tell the states

`Engine.Listed` : the places of every tube are those that the jobs of the tube name, each once, and
the agenda of every client lists the jobs that are reserved by it, each once. A move keeps it
(`Listed.move`), provided a job is only ever reserved by a client that is connected, and so does
every change that leaves the lists alone.
-/

namespace WorkQueue

namespace Engine

variable {s t : Engine}

/-- The lists of the tubes and of the clients are in order and tell the states of the jobs. -/
structure Listed (s : Engine) : Prop where
  tubes : s.tubes.keys.Nodup
  jobs : s.jobs.Numbered
  clients : s.clients.Numbered
  homes : ∀ job ∈ s.jobs, job.tube ∈ s.tubes.keys
  ordered : ∀ tube ∈ s.tubes, tube.Ordered
  places : ∀ tube ∈ s.tubes, ∀ p, p ∈ tube.places ↔
    ∃ job ∈ s.jobs, job.tube = tube.name ∧ job.place? = some p
  heldOrdered : ∀ client ∈ s.clients, Agenda.Sorted client.held
  held : ∀ client ∈ s.clients, ∀ slot, slot ∈ client.held ↔
    ∃ job ∈ s.jobs, job.id = slot.job ∧ job.state = .reserved client.id slot.rank
  holders : ∀ job ∈ s.jobs, ∀ c due, job.state = .reserved c due → s.isConnected c = true

theorem job?_eq_some_iff (h : s.jobs.Numbered) {id : JobId} {job : Job} :
    s.job? id = some job ↔ job ∈ s.jobs ∧ job.id = id :=
  Table.lookup_eq_some_iff h.nodup

theorem tube?_eq_some_iff (h : s.tubes.keys.Nodup) {name : TubeName} {tube : Tube} :
    s.tube? name = some tube ↔ tube ∈ s.tubes ∧ tube.name = name :=
  Table.lookup_eq_some_iff h

theorem client?_eq_some_iff (h : s.clients.Numbered) {c : ClientId} {client : Client} :
    s.client? c = some client ↔ client ∈ s.clients ∧ client.id = c :=
  Table.lookup_eq_some_iff h.nodup

namespace Listed

/-- Two jobs of one number are one job. -/
theorem job_ext (h : s.Listed) {a b : Job} (ha : a ∈ s.jobs) (hb : b ∈ s.jobs)
    (hid : a.id = b.id) : a = b :=
  Table.eq_of_key_eq h.jobs.nodup ha hb hid

theorem tube_ext (h : s.Listed) {a b : Tube} (ha : a ∈ s.tubes) (hb : b ∈ s.tubes)
    (hname : a.name = b.name) : a = b :=
  Table.eq_of_key_eq h.tubes ha hb hname

/-- The job at a place of a tube. -/
theorem job_of_place (h : s.Listed) {tube : Tube} (ht : tube ∈ s.tubes) {p : Place}
    (hp : p ∈ tube.places) : ∃ job, s.job? p.job = some job ∧ job.tube = tube.name ∧
      job.place? = some p := by
  obtain ⟨job, hj, htube, hplace⟩ := (h.places tube ht p).1 hp
  exact ⟨job, (job?_eq_some_iff h.jobs).2 ⟨hj, (Job.job_of_place? hplace).symm⟩, htube, hplace⟩

/-- A new record of a job takes no place that another job has. -/
theorem place_free (h : s.Listed) {job job' : Job} (hj : job ∈ s.jobs) (hid : job'.id = job.id)
    {tube : Tube} (ht : tube ∈ s.tubes) {p : Place} (hp : job'.place? = some p)
    (hmem : p ∈ (tube.withdraw job).places) : False := by
  obtain ⟨hne, hmem⟩ := Tube.mem_places_withdraw.1 hmem
  obtain ⟨other, hother, -, hplace⟩ := (h.places tube ht p).1 hmem
  have hsame : other.id = job.id := by
    rw [← Job.job_of_place? hplace, Job.job_of_place? hp, hid]
  exact hne (h.job_ext hother hj hsame ▸ hplace)

/-! ## Moves -/

theorem mem_jobs_move (h : s.Listed) {job job' : Job} (hj : job ∈ s.jobs)
    (hid : job'.id = job.id) {x : Job} :
    x ∈ s.jobs.adjust job.id (fun _ => job') ↔ x = job' ∨ x ∈ s.jobs ∧ x ≠ job := by
  rw [Table.mem_adjust]
  constructor
  · rintro (⟨a, -, -, rfl⟩ | ⟨hx, hne⟩)
    · exact Or.inl rfl
    · exact Or.inr ⟨hx, fun he => hne (he ▸ rfl)⟩
  · rintro (rfl | ⟨hx, hne⟩)
    · exact Or.inl ⟨job, hj, rfl, rfl⟩
    · exact Or.inr ⟨hx, fun he => hne (h.job_ext hx hj he)⟩

theorem mem_held_rehold {job job' : Job} {client : Client} {slot : Slot} :
    slot ∈ (client.rehold job job').held ↔
      (job'.id = slot.job ∧ job'.state = .reserved client.id slot.rank) ∨
        (slot ∈ client.held ∧
          ¬(job.id = slot.job ∧ job.state = .reserved client.id slot.rank)) := by
  have hheld (job : Job) : job.id = slot.job ∧ job.state = .reserved client.id slot.rank ↔
      job.isHeldBy client.id = true ∧ job.slot = slot := by
    constructor
    · rintro ⟨hid, hs⟩
      exact ⟨Job.isHeldBy_iff.2 ⟨_, hs⟩, by rw [Job.slot_of_reserved hs, hid]⟩
    · rintro ⟨hh, rfl⟩
      obtain ⟨due, hs⟩ := Job.isHeldBy_iff.1 hh
      rw [Job.slot_of_reserved hs]
      exact ⟨rfl, hs⟩
  rw [hheld, hheld, Client.rehold]
  by_cases h : job.isHeldBy client.id = true <;> by_cases h' : job'.isHeldBy client.id = true <;>
    simp [h, h', Client.hold, Client.letGo, Agenda.mem_insert, Agenda.mem_remove, eq_comm]

theorem heldSorted_rehold {job job' : Job} {client : Client} (h : Agenda.Sorted client.held) :
    Agenda.Sorted (client.rehold job job').held := by
  unfold Client.rehold Client.hold Client.letGo
  dsimp only
  split <;> split
  · exact (h.remove _).insert _
  · exact h.remove _
  · exact h.insert _
  · exact h

section Moved

variable (h : s.Listed) {job job' : Job} (hj : job ∈ s.jobs) (hid : job'.id = job.id)

include h hj hid

/-- The tube of the job takes on the new record. -/
theorem places_move_self (htube : job'.tube = job.tube) {tube : Tube} (ht : tube ∈ s.tubes)
    (hname : tube.name = job.tube) {p : Place} :
    p ∈ ((tube.withdraw job).enlist job').places ↔
      ∃ x ∈ s.jobs.adjust job.id (fun _ => job'), x.tube = tube.name ∧ x.place? = some p := by
  have hjobs {x : Job} := h.mem_jobs_move hj hid (x := x)
  rw [Tube.mem_places_enlist, Tube.mem_places_withdraw, h.places tube ht]
  constructor
  · rintro (hp | ⟨hne, x, hx, hxt, hp⟩)
    · exact ⟨job', hjobs.2 (Or.inl rfl), htube.trans hname.symm, hp⟩
    · exact ⟨x, hjobs.2 (Or.inr ⟨hx, fun he => hne (he ▸ hp)⟩), hxt, hp⟩
  · rintro ⟨x, hx, hxt, hp⟩
    rcases hjobs.1 hx with rfl | ⟨hx, hne⟩
    · exact Or.inl hp
    · refine Or.inr ⟨fun hp' => hne (h.job_ext hx hj ?_), x, hx, hxt, hp⟩
      rw [← Job.job_of_place? hp, ← Job.job_of_place? hp']

/-- The places of another tube are as before. -/
theorem places_move_other (htube : job'.tube = job.tube) {tube : Tube} (ht : tube ∈ s.tubes)
    (hname : tube.name ≠ job.tube) {p : Place} :
    p ∈ tube.places ↔
      ∃ x ∈ s.jobs.adjust job.id (fun _ => job'), x.tube = tube.name ∧ x.place? = some p := by
  have hjobs {x : Job} := h.mem_jobs_move hj hid (x := x)
  rw [h.places tube ht]
  constructor
  · rintro ⟨x, hx, hxt, hp⟩
    exact ⟨x, hjobs.2 (Or.inr ⟨hx, fun he => hname (he ▸ hxt.symm)⟩), hxt, hp⟩
  · rintro ⟨x, hx, hxt, hp⟩
    rcases hjobs.1 hx with rfl | ⟨hx, -⟩
    · exact absurd (hxt.symm.trans htube) hname
    · exact ⟨x, hx, hxt, hp⟩

theorem held_move {client : Client} (hc : client ∈ s.clients) {slot : Slot} :
    slot ∈ (client.rehold job job').held ↔ ∃ x ∈ s.jobs.adjust job.id (fun _ => job'),
      x.id = slot.job ∧ x.state = .reserved client.id slot.rank := by
  have hjobs {x : Job} := h.mem_jobs_move hj hid (x := x)
  rw [mem_held_rehold, h.held client hc]
  constructor
  · rintro (⟨hs, hst⟩ | ⟨⟨x, hx, hs, hst⟩, hne⟩)
    · exact ⟨job', hjobs.2 (Or.inl rfl), hs, hst⟩
    · exact ⟨x, hjobs.2 (Or.inr ⟨hx, fun he => hne (he ▸ ⟨hs, hst⟩)⟩), hs, hst⟩
  · rintro ⟨x, hx, hs, hst⟩
    rcases hjobs.1 hx with rfl | ⟨hx, hne⟩
    · exact Or.inl ⟨hs, hst⟩
    · exact Or.inr ⟨⟨x, hx, hs, hst⟩, fun hjs => hne (h.job_ext hx hj (hs.trans hjs.1.symm))⟩

end Moved

theorem move (h : s.Listed) {job : Job} {f : Job → Job} (hj : s.job? job.id = some job)
    (hid : (f job).id = job.id) (htube : (f job).tube = job.tube)
    (hholder : ∀ c due, (f job).state = .reserved c due → s.isConnected c = true) :
    (s.move job.id f).Listed := by
  have hdesk := sameDesk_move hj htube
  rw [move_eq hj htube] at hdesk ⊢
  obtain ⟨hmem, -⟩ := (job?_eq_some_iff h.jobs).1 hj
  have hjobs {x : Job} := h.mem_jobs_move hmem hid (x := x)
  have hname (tube : Tube) : ((tube.withdraw job).enlist (f job)).name = tube.name := by simp
  refine
    { tubes := ?_, jobs := ?_, clients := ?_, homes := ?_, ordered := ?_, places := ?_
      heldOrdered := ?_, held := ?_, holders := ?_ }
  · rw [Table.keys_adjust _ _ _ hname]
    exact h.tubes
  · exact h.jobs.adjust_const hid
  · exact h.clients.map fun client => (rehold_frame job (f job) client).1
  · intro x hx
    rw [Table.keys_adjust _ _ _ hname]
    rcases hjobs.1 hx with rfl | ⟨hx, -⟩
    · exact htube ▸ h.homes job hmem
    · exact h.homes x hx
  · intro tube' ht'
    rcases Table.mem_adjust.1 ht' with ⟨tube, ht, -, rfl⟩ | ⟨ht, -⟩
    · exact ((h.ordered tube ht).withdraw job).enlist fun p hp hmem' =>
        h.place_free hmem hid ht hp hmem'
    · exact h.ordered tube' ht
  · intro tube' ht' p
    rcases Table.mem_adjust.1 ht' with ⟨tube, ht, hkey, rfl⟩ | ⟨ht, hkey⟩
    · rw [hname]
      exact h.places_move_self hmem hid htube ht hkey
    · exact h.places_move_other hmem hid htube ht hkey
  · intro client' hc'
    obtain ⟨client, hc, rfl⟩ := List.mem_map.1 hc'
    exact heldSorted_rehold (h.heldOrdered client hc)
  · intro client' hc' slot
    obtain ⟨client, hc, rfl⟩ := List.mem_map.1 hc'
    rw [(rehold_frame job (f job) client).1]
    exact h.held_move hmem hid hc
  · intro x hx c due hst
    rw [hdesk.isConnected]
    rcases hjobs.1 hx with rfl | ⟨hx, -⟩
    · exact hholder c due hst
    · exact h.holders x hx c due hst

/-! ## Changes that leave the lists alone -/

theorem of_eq (h : s.Listed) (htubes : t.tubes = s.tubes) (hjobs : t.jobs = s.jobs)
    (hclients : t.clients = s.clients) : t.Listed := by
  obtain ⟨now, tubes, jobs, clients, requests, deliveries, expiring⟩ := t
  dsimp only at htubes hjobs hclients
  subst htubes hjobs hclients
  exact ⟨h.tubes, h.jobs, h.clients, h.homes, h.ordered, h.places, h.heldOrdered, h.held,
    h.holders⟩

theorem adjustTube (h : s.Listed) (name : TubeName) {f : Tube → Tube}
    (hf : ∀ tube : Tube, tube.SameLists (f tube)) : (s.adjustTube name f).Listed := by
  have hmem {tube' : Tube} (ht' : tube' ∈ s.tubes.adjust name f) :
      ∃ tube ∈ s.tubes, tube.SameLists tube' :=
    Table.exists_of_mem_adjust .refl (fun tube _ => hf tube) ht'
  have hkeys := Table.keys_adjust s.tubes name f fun tube => (hf tube).name
  refine
    { tubes := hkeys ▸ h.tubes, jobs := h.jobs, clients := h.clients, homes := ?_
      ordered := ?_, places := ?_, heldOrdered := h.heldOrdered, held := h.held
      holders := h.holders }
  · intro job hj
    exact hkeys ▸ h.homes job hj
  · intro tube' ht'
    obtain ⟨tube, ht, hsame⟩ := hmem ht'
    exact (h.ordered tube ht).of_sameLists hsame
  · intro tube' ht' p
    obtain ⟨tube, ht, hsame⟩ := hmem ht'
    rw [hsame.places, hsame.name]
    exact h.places tube ht p

theorem addUser (h : s.Listed) (name : TubeName) : (s.addUser name).Listed := by
  unfold Engine.addUser
  exact h.adjustTube name fun _ => ⟨rfl, rfl, rfl, rfl, rfl⟩

theorem addWatcher (h : s.Listed) (name : TubeName) : (s.addWatcher name).Listed := by
  unfold Engine.addWatcher
  exact h.adjustTube name fun _ => ⟨rfl, rfl, rfl, rfl, rfl⟩

theorem adjustClient (h : s.Listed) (c : ClientId) {f : Client → Client}
    (hf : ∀ client, (f client).id = client.id ∧ (f client).held = client.held)
    (hclosed : ∀ job ∈ s.jobs, ∀ due, job.state = .reserved c due →
      ∀ client, (f client).closed = client.closed) : (s.adjustClient c f).Listed := by
  have hmem {client' : Client} (hc' : client' ∈ s.clients.adjust c f) :
      ∃ client ∈ s.clients, client'.id = client.id ∧ client'.held = client.held :=
    Table.exists_of_mem_adjust (R := fun a b => b.id = a.id ∧ b.held = a.held)
      (fun _ => ⟨rfl, rfl⟩) (fun client _ => hf client) hc'
  refine
    { tubes := h.tubes, jobs := h.jobs, clients := h.clients.adjust c fun client => (hf client).1
      homes := h.homes, ordered := h.ordered, places := h.places, heldOrdered := ?_, held := ?_
      holders := ?_ }
  · intro client' hc'
    obtain ⟨client, hc, -, hheld⟩ := hmem hc'
    exact hheld ▸ h.heldOrdered client hc
  · intro client' hc' slot
    obtain ⟨client, hc, hid, hheld⟩ := hmem hc'
    rw [hid, hheld]
    exact h.held client hc slot
  · intro job hj d due hst
    have hcon := h.holders job hj d due hst
    by_cases hcd : d = c
    · subst hcd
      have := Table.lookup_adjust_self s.clients d f fun client => (hf client).1
      simp only [isConnected, client?, Engine.adjustClient] at hcon ⊢
      rw [this, Option.any_map]
      simpa [hclosed job hj due hst] using hcon
    · have := Table.lookup_adjust_ne s.clients hcd f fun client => (hf client).1
      simpa only [isConnected, client?, Engine.adjustClient, this] using hcon

/-- A new tube lists nothing. -/
theorem ensureTube (h : s.Listed) (name : TubeName) : (s.ensureTube name).Listed := by
  unfold Engine.ensureTube
  split
  · exact h
  · next hnew =>
    have hnew : name ∉ s.tubes.keys := by simpa [tube?, Table.lookup_isSome_iff] using hnew
    have hkeys : Table.keys (s.tubes ++ [{ name := name }]) = s.tubes.keys ++ [name] := by
      simp [Table.keys, Keyed.key]
    refine
      { tubes := ?_, jobs := h.jobs, clients := h.clients, homes := ?_, ordered := ?_
        places := ?_, heldOrdered := h.heldOrdered, held := h.held, holders := h.holders }
    · rw [hkeys]
      exact List.nodup_append_comm.mp (by simp [hnew, h.tubes])
    · intro job hj
      rw [hkeys]
      exact List.mem_append_left _ (h.homes job hj)
    · intro tube ht
      rcases List.mem_append.1 ht with ht | ht
      · exact h.ordered tube ht
      · rw [List.mem_singleton.1 ht]
        exact ⟨List.Pairwise.nil, List.Pairwise.nil, List.nodup_nil, List.nodup_nil⟩
    · intro tube ht p
      rcases List.mem_append.1 ht with ht | ht
      · exact h.places tube ht p
      · rw [List.mem_singleton.1 ht]
        constructor
        · intro hp
          simp [Tube.places] at hp
        · rintro ⟨job, hj, htube, -⟩
          have hhome := h.homes job hj
          rw [htube] at hhome
          exact absurd hhome hnew

/-- A new client holds nothing. -/
theorem openClient (h : s.Listed) : s.openClient.Listed := by
  have htubes : ((s.addUser .default).addWatcher .default).Listed :=
    (h.addUser .default).addWatcher .default
  have hnew : s.nextClient ∉ s.clients.keys := h.clients.next_not_mem
  have hold {job : Job} {c : ClientId} {due : Instant} (hj : job ∈ s.jobs)
      (hst : job.state = .reserved c due) : c ≠ s.nextClient := by
    rintro rfl
    have hcon := h.holders job hj _ due hst
    have hnone : s.client? s.nextClient = none := Table.lookup_eq_none_iff.2 hnew
    simp [isConnected, hnone] at hcon
  refine
    { htubes with clients := h.clients.append rfl, heldOrdered := ?_, held := ?_, holders := ?_ }
  · intro client hc
    rcases List.mem_append.1 hc with hc | hc
    · exact h.heldOrdered client hc
    · rw [List.mem_singleton.1 hc]
      exact List.Pairwise.nil
  · intro client hc slot
    rcases List.mem_append.1 hc with hc | hc
    · exact h.held client hc slot
    · rw [List.mem_singleton.1 hc]
      constructor
      · intro hslot
        simp at hslot
      · rintro ⟨job, hj, -, hst⟩
        exact absurd rfl (hold hj hst)
  · intro job hj c due hst
    have hne : c ≠ s.nextClient := hold hj hst
    have hcon := h.holders job hj c due hst
    simp only [isConnected, client?] at hcon ⊢
    exact (Table.lookup_append_of_ne s.clients (a := { id := s.nextClient }) hne.symm) ▸ hcon

/-- A job that is made is on no list yet. -/
theorem create (h : s.Listed) {name : TubeName} (hname : name ∈ s.tubes.keys) (pri : Nat)
    (delay ttr : Millis) (body : Bytes) : (s.create name pri delay ttr body).Listed := by
  have hmem {x : Job} (hx : x ∈ (s.create name pri delay ttr body).jobs) :
      x ∈ s.jobs ∨ x.tube = name ∧ x.state = .new := by
    rcases List.mem_append.1 hx with hx | hx
    · exact Or.inl hx
    · rw [List.mem_singleton.1 hx]
      exact Or.inr ⟨rfl, rfl⟩
  refine { h with jobs := h.jobs.append rfl, homes := ?_, places := ?_, held := ?_, holders := ?_ }
  · intro x hx
    rcases hmem hx with hx | ⟨rfl, -⟩
    · exact h.homes x hx
    · exact hname
  · intro tube ht p
    rw [h.places tube ht]
    constructor
    · rintro ⟨x, hx, hxp⟩
      exact ⟨x, List.mem_append_left _ hx, hxp⟩
    · rintro ⟨x, hx, hxt, hp⟩
      rcases hmem hx with hx | ⟨-, hst⟩
      · exact ⟨x, hx, hxt, hp⟩
      · simp [Job.place?, hst] at hp
  · intro client hc slot
    rw [h.held client hc]
    constructor
    · rintro ⟨x, hx, hxp⟩
      exact ⟨x, List.mem_append_left _ hx, hxp⟩
    · rintro ⟨x, hx, hid, hst⟩
      rcases hmem hx with hx | ⟨-, hnew⟩
      · exact ⟨x, hx, hid, hst⟩
      · rw [hst] at hnew
        cases hnew
  · intro x hx c due hst
    rcases hmem hx with hx | ⟨-, hnew⟩
    · exact h.holders x hx c due hst
    · rw [hst] at hnew
      cases hnew

end Listed

end Engine

end WorkQueue
