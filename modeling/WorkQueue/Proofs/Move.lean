import WorkQueue.Engine.Waiting
import WorkQueue.Proofs.Places
import WorkQueue.Proofs.Table

/-!
# What moving a job does

`Engine.move_eq` gives the engine after a move in one record : the tube of the job withdraws and
enlists it, its record is replaced, and the clients hold it anew. All else is as before. `SameDesk`
collects the changes that leave the clients' tasks and the requests alone, so that what is open,
pending and connected stays so.
-/

namespace WorkQueue

namespace Engine

variable {s t u : Engine}

/-! ## A move in one record -/

theorem adjustHolder_eq (s : Engine) (job : Job) (f : Client → Client) :
    s.adjustHolder job f =
      { s with clients := s.clients.map fun client =>
          if job.isHeldBy client.id then f client else client } := by
  unfold adjustHolder Job.isHeldBy
  cases job.holder? with
  | none => simp
  | some c => simp [adjustClient, Table.adjust, Keyed.key, eq_comm]

theorem move_eq {id : JobId} {job : Job} {f : Job → Job} (h : s.job? id = some job)
    (htube : (f job).tube = job.tube) :
    s.move id f =
      { s with
        tubes := s.tubes.adjust job.tube fun tube => (tube.withdraw job).enlist (f job)
        jobs := s.jobs.adjust id fun _ => f job
        clients := s.clients.map (Client.rehold job (f job)) } := by
  have htubes := Table.adjust_adjust s.tubes job.tube (·.withdraw job) (·.enlist (f job))
    fun tube hname => (Tube.name_withdraw tube job).trans hname
  have hclients : (s.clients.map fun client =>
      if job.isHeldBy client.id then client.letGo job else client).map (fun client =>
        if (f job).isHeldBy client.id then client.hold (f job) else client) =
      s.clients.map (Client.rehold job (f job)) := by
    rw [List.map_map]
    rfl
  simp only [move, h, withdraw, enlist, adjustHolder_eq, adjustTube, adjustJob, htube, htubes,
    hclients]

theorem keys_adjustTube (s : Engine) (name : TubeName) {f : Tube → Tube}
    (hf : ∀ tube, (f tube).name = tube.name) :
    (s.adjustTube name f).tubes.keys = s.tubes.keys :=
  Table.keys_adjust s.tubes name f hf

/-- A move changes neither the clock nor the requests and their answers. -/
theorem move_frame (s : Engine) (id : JobId) (f : Job → Job) :
    (s.move id f).now = s.now ∧ (s.move id f).requests = s.requests ∧
      (s.move id f).deliveries = s.deliveries := by
  unfold move
  split
  · simp only [withdraw, enlist, adjustHolder_eq]
    exact ⟨rfl, rfl, rfl⟩
  · exact ⟨rfl, rfl, rfl⟩

/-- Only the record of the job is a new one. -/
theorem of_mem_jobs_move {job x : Job} {f : Job → Job} (h : s.job? job.id = some job)
    (htube : (f job).tube = job.tube) (hx : x ∈ (s.move job.id f).jobs) :
    x = f job ∨ x ∈ s.jobs ∧ x.id ≠ job.id := by
  rw [move_eq h htube] at hx
  rcases Table.mem_adjust.1 hx with ⟨-, -, -, rfl⟩ | ⟨hx, hne⟩
  · exact Or.inl rfl
  · exact Or.inr ⟨hx, hne⟩

theorem mem_jobs_move_of_ne {job x : Job} {f : Job → Job} (h : s.job? job.id = some job)
    (htube : (f job).tube = job.tube) (hx : x ∈ s.jobs) (hne : x.id ≠ job.id) :
    x ∈ (s.move job.id f).jobs := by
  rw [move_eq h htube]
  exact Table.mem_adjust.2 (Or.inr ⟨hx, hne⟩)

theorem keys_move (s : Engine) (id : JobId) (f : Job → Job) :
    (s.move id f).tubes.keys = s.tubes.keys := by
  unfold move
  split
  · simp only [withdraw, enlist, adjustHolder_eq, adjustTube, adjustJob]
    rw [Table.keys_adjust _ _ _ fun tube => Tube.name_enlist tube _,
      Table.keys_adjust _ _ _ fun tube => Tube.name_withdraw tube _]
  · rfl

theorem watchDeadlines_eq (s : Engine) (c : ClientId) :
    s.watchDeadlines c = { s with expiring := (s.watchDeadlines c).expiring } := by
  unfold watchDeadlines
  split <;> rfl

theorem mem_watchDeadlines {s : Engine} {c d : ClientId} :
    d ∈ (s.watchDeadlines c).expiring ↔ d = c ∨ d ∈ s.expiring := by
  unfold watchDeadlines
  split
  · next h =>
    have hc : c ∈ s.expiring := List.contains_iff_mem.1 h
    exact ⟨Or.inr, fun hd => hd.elim (fun he => he ▸ hc) id⟩
  · simp only [List.mem_append, List.mem_cons, List.mem_filter, decide_eq_true_eq]
    grind

/-- A job may go to a client before or after the client's deadlines are looked after. -/
theorem watchDeadlines_move {job : Job} {f : Job → Job} (hj : s.job? job.id = some job)
    (htube : (f job).tube = job.tube) (c : ClientId) :
    (s.move job.id f).watchDeadlines c = (s.watchDeadlines c).move job.id f := by
  have hj' : (s.watchDeadlines c).job? job.id = some job := by
    rw [watchDeadlines_eq]
    exact hj
  rw [move_eq hj htube, move_eq hj' htube]
  unfold watchDeadlines
  split <;> rfl

/-! ## Desks -/

/-- The requests are the same, and the clients have the same open tasks and are closed alike. -/
structure SameDesk (s t : Engine) : Prop where
  requests : t.requests = s.requests
  clients : ∀ c, (t.client? c).map (fun client => (client.tasks, client.closed)) =
    (s.client? c).map fun client => (client.tasks, client.closed)

namespace SameDesk

theorem refl (s : Engine) : SameDesk s s :=
  ⟨rfl, fun _ => rfl⟩

theorem trans (h₁ : SameDesk s t) (h₂ : SameDesk t u) : SameDesk s u :=
  ⟨h₂.requests.trans h₁.requests, fun c => (h₂.clients c).trans (h₁.clients c)⟩

theorem of_eq (hr : t.requests = s.requests) (hc : t.clients = s.clients) : SameDesk s t :=
  ⟨hr, fun c => by simp only [client?, hc]⟩

theorem of_map (hr : t.requests = s.requests) {f : Client → Client}
    (hc : t.clients = s.clients.map f)
    (hf : ∀ client, (f client).id = client.id ∧ (f client).tasks = client.tasks ∧
      (f client).closed = client.closed) : SameDesk s t := by
  refine ⟨hr, fun c => ?_⟩
  simp only [client?, hc, Table.lookup_map s.clients f fun client => (hf client).1]
  cases s.clients.lookup c with
  | none => rfl
  | some client => simp [hf client]

theorem isOpen (h : SameDesk s t) (q : Request) : t.isOpen q = s.isOpen q := by
  have hc := h.clients q.client
  simp only [Engine.isOpen]
  cases ht : t.client? q.client <;> cases hs : s.client? q.client <;> simp_all

theorem isConnected (h : SameDesk s t) (c : ClientId) : t.isConnected c = s.isConnected c := by
  have hc := h.clients c
  simp only [Engine.isConnected]
  cases ht : t.client? c <;> cases hs : s.client? c <;> simp_all

end SameDesk

theorem rehold_frame (job job' : Job) (client : Client) :
    (client.rehold job job').id = client.id ∧ (client.rehold job job').tasks = client.tasks ∧
      (client.rehold job job').closed = client.closed := by
  unfold Client.rehold Client.letGo Client.hold
  dsimp only
  split <;> split <;> exact ⟨rfl, rfl, rfl⟩

theorem sameDesk_move {id : JobId} {job : Job} {f : Job → Job} (h : s.job? id = some job)
    (htube : (f job).tube = job.tube) : SameDesk s (s.move id f) := by
  rw [move_eq h htube]
  exact .of_map rfl rfl (rehold_frame job (f job))

theorem sameDesk_adjustTube (s : Engine) (name : TubeName) (f : Tube → Tube) :
    SameDesk s (s.adjustTube name f) :=
  .of_eq rfl rfl

end Engine

end WorkQueue
