import WorkQueue.Engine.Sweep
import WorkQueue.Proofs.Listing
import WorkQueue.Proofs.Stage

/-!
# What stays when jobs move

Jobs that move and requests that are served leave the posts of the clients alone : which tubes they
use and watch, and what else is known of them (`Client.post`). The tubes keep their counts of users
and watchers, and a pause that has not run out. `Engine.SamePosts` has both, for every operation
that does not set out to change them. It needs nothing of the engine, so it holds in the middle of
an event as well.
-/

namespace WorkQueue

/-- What of the record of a client does not depend on jobs and requests. -/
structure Post where
  id : ClientId
  used : TubeName := .default
  watching : List TubeName := [.default]
  closed : Bool := false
  producer : Bool := false
  worker : Bool := false

def Client.post (client : Client) : Post where
  id := client.id
  used := client.used
  watching := client.watching
  closed := client.closed
  producer := client.producer
  worker := client.worker

/-- The same users and watchers, and the same pause unless it has run out and is off the record. -/
structure Tube.Stays (now : Instant) (a b : Tube) : Prop where
  name : b.name = a.name
  users : b.users = a.users
  watchers : b.watchers = a.watchers
  pause : b.pausedUntil = a.pausedUntil ∨ a.pauseIsOver now = true ∧ b.pausedUntil = none

namespace Tube.Stays

variable {now : Instant} {a b c : Tube}

theorem refl (now : Instant) (tube : Tube) : tube.Stays now tube :=
  ⟨rfl, rfl, rfl, Or.inl rfl⟩

theorem trans (h₁ : a.Stays now b) (h₂ : b.Stays now c) : a.Stays now c := by
  refine ⟨h₂.name.trans h₁.name, h₂.users.trans h₁.users, h₂.watchers.trans h₁.watchers, ?_⟩
  rcases h₁.pause with hsame | ⟨hover, hnone⟩
  · refine h₂.pause.imp (·.trans hsame) (And.imp_left fun hover => ?_)
    rwa [pauseIsOver, ← hsame]
  · refine Or.inr ⟨hover, ?_⟩
    rcases h₂.pause with hsame | ⟨-, hnone'⟩
    · exact hsame.trans hnone
    · exact hnone'

theorem withdraw (now : Instant) (tube : Tube) (job : Job) :
    tube.Stays now (tube.withdraw job) := by
  unfold Tube.withdraw
  split <;> exact ⟨rfl, rfl, rfl, Or.inl rfl⟩

theorem enlist (now : Instant) (tube : Tube) (job : Job) : tube.Stays now (tube.enlist job) := by
  unfold Tube.enlist
  split <;> exact ⟨rfl, rfl, rfl, Or.inl rfl⟩

end Tube.Stays

namespace Engine

/-- The posts of the clients are as they were, and the tubes stay. -/
structure SamePosts (s t : Engine) : Prop where
  now : t.now = s.now
  clients : t.clients.map Client.post = s.clients.map Client.post
  keys : t.tubes.keys = s.tubes.keys
  tubes : ∀ b ∈ t.tubes, ∃ a ∈ s.tubes, a.Stays s.now b

namespace SamePosts

variable {s t u : Engine}

theorem of_eq (hnow : t.now = s.now) (hclients : t.clients = s.clients)
    (htubes : t.tubes = s.tubes) : SamePosts s t :=
  ⟨hnow, by rw [hclients], by rw [htubes], fun b hb => ⟨b, htubes ▸ hb, .refl _ b⟩⟩

theorem refl (s : Engine) : SamePosts s s :=
  of_eq rfl rfl rfl

theorem trans (h₁ : SamePosts s t) (h₂ : SamePosts t u) : SamePosts s u := by
  refine ⟨h₂.now.trans h₁.now, h₂.clients.trans h₁.clients, h₂.keys.trans h₁.keys, fun c hc => ?_⟩
  obtain ⟨b, hb, hbc⟩ := h₂.tubes c hc
  obtain ⟨a, ha, hab⟩ := h₁.tubes b hb
  exact ⟨a, ha, hab.trans (h₁.now ▸ hbc)⟩

theorem adjustTube (s : Engine) (name : TubeName) {f : Tube → Tube}
    (hf : ∀ tube : Tube, tube.Stays s.now (f tube)) : SamePosts s (s.adjustTube name f) :=
  ⟨rfl, rfl, keys_adjustTube s name fun tube => (hf tube).name, fun _ hb =>
    Table.exists_of_mem_adjust (.refl s.now) (fun tube _ => hf tube) hb⟩

theorem of_map {f : Client → Client} (hclients : t.clients = s.clients.map f)
    (hf : ∀ client, (f client).post = client.post) (hnow : t.now = s.now)
    (htubes : t.tubes = s.tubes) : SamePosts s t := by
  refine ⟨hnow, ?_, by rw [htubes], fun b hb => ⟨b, htubes ▸ hb, .refl _ b⟩⟩
  rw [hclients, List.map_map]
  exact List.map_congr_left fun client _ => hf client

theorem adjustClient (s : Engine) (c : ClientId) {f : Client → Client}
    (hf : ∀ client, (f client).post = client.post) : SamePosts s (s.adjustClient c f) := by
  refine of_map rfl (fun client => ?_) rfl rfl
  split
  · exact hf client
  · rfl

theorem adjustHolder (s : Engine) (job : Job) {f : Client → Client}
    (hf : ∀ client, (f client).post = client.post) : SamePosts s (s.adjustHolder job f) := by
  unfold Engine.adjustHolder
  split
  · exact adjustClient s _ hf
  · exact refl s

/-! ## Jobs that move -/

theorem move (s : Engine) (id : JobId) (f : Job → Job) : SamePosts s (s.move id f) := by
  unfold Engine.move
  split
  · next job _ =>
    have hout : SamePosts s (s.withdraw job) :=
      (adjustTube s job.tube fun tube => .withdraw s.now tube job).trans
        (adjustHolder _ job fun _ => rfl)
    have hchange : SamePosts (s.withdraw job) ((s.withdraw job).adjustJob id fun _ => f job) :=
      of_eq rfl rfl rfl
    refine (hout.trans hchange).trans ?_
    exact (adjustTube _ (f job).tube fun tube => .enlist _ tube (f job)).trans
      (adjustHolder _ (f job) fun _ => rfl)
  · exact refl s

theorem watchDeadlines (s : Engine) (c : ClientId) : SamePosts s (s.watchDeadlines c) := by
  rw [watchDeadlines_eq]
  exact of_eq rfl rfl rfl

theorem finish (s : Engine) (q : Request) : SamePosts s (s.finish q) :=
  adjustClient s q.client fun _ => rfl

theorem grant (s : Engine) (q : Request) (id : JobId) : SamePosts s (s.grant q id) := by
  unfold Engine.grant
  dsimp only
  split
  · have hserved := ((finish s q).trans (move _ id (·.makeReserved s.now q.client))).trans
      (watchDeadlines _ q.client)
    exact hserved.trans (of_eq rfl rfl rfl)
  · exact finish s q

theorem serve (s : Engine) (r : RequestId) (id : JobId) : SamePosts s (s.serve r id) := by
  unfold Engine.serve
  split
  · split
    · exact grant s _ id
    · exact refl s
  · exact refl s

theorem offer (name : TubeName) : ∀ (queue : List RequestId) (s : Engine),
    SamePosts s (offer name queue s).2
  | [], s => refl s
  | r :: rest, s => by
    rw [Engine.offer]
    split
    · exact (serve s r _).trans (offer name rest _)
    · exact refl s

theorem drain (s : Engine) (name : TubeName) : SamePosts s (s.drain name) := by
  unfold Engine.drain
  split
  · exact (offer name _ s).trans (adjustTube _ name fun _ => ⟨rfl, rfl, rfl, Or.inl rfl⟩)
  · exact refl s

theorem enterReady (s : Engine) (job : Job) (f : Job → Job) : SamePosts s (s.enterReady job f) :=
  (move s job.id _).trans (drain _ job.tube)

theorem transition (s : Engine) (id : JobId) (isOpenTo : Job → Bool) {go : Job → Engine}
    (hgo : ∀ job, SamePosts s (go job)) : SamePosts s (s.transition id isOpenTo go).2 :=
  transition_cases (fun _ => refl s) fun job _ _ _ => hgo job

theorem transitionEach {go : Engine → JobId → Bool × Engine}
    (hgo : ∀ s id, SamePosts s (go s id).2) (s : Engine) (ids : List JobId) :
    SamePosts s (transitionEach go s ids).2 :=
  transitionEach_keeps (fun t id h => h.trans (hgo t id)) ids (refl s)

theorem kickJob (s : Engine) (id : JobId) : SamePosts s (s.kickJob id).2 :=
  transition s id _ fun job => enterReady s job _

theorem promote (s : Engine) (id : JobId) : SamePosts s (s.promote id).2 :=
  transition s id _ fun job => enterReady s job _

theorem kick (s : Engine) (name : TubeName) (bound : Nat) : SamePosts s (s.kick name bound).2 := by
  unfold Engine.kick
  split
  · exact transitionEach kickJob s _
  · exact refl s

theorem giveBackAll (s : Engine) (c : ClientId) : SamePosts s (s.giveBackAll c) :=
  giveBackAll_keeps (fun t id h => h.trans (transition t id _ fun job => enterReady t job _))
    (refl s)

/-! ## Sweeps -/

/-- Only a pause that has run out is taken off the record. -/
theorem resume (s : Engine) (name : TubeName) (hn : s.tubes.keys.Nodup) :
    SamePosts s (s.resume name) := by
  unfold Engine.resume
  split
  · next hover =>
    have hkeys := keys_adjustTube s name (f := ({ · with pausedUntil := none })) fun _ => rfl
    suffices hcut : SamePosts s (s.adjustTube name ({ · with pausedUntil := none })) from
      hcut.trans (drain _ name)
    refine ⟨rfl, rfl, hkeys, fun b hb => ?_⟩
    rcases Table.mem_adjust.1 hb with ⟨a, ha, hname, rfl⟩ | ⟨hb, -⟩
    · have hname : a.name = name := hname
      rw [(tube?_eq_some_iff hn).2 ⟨ha, hname⟩] at hover
      exact ⟨a, ha, rfl, rfl, rfl, Or.inr ⟨hover, rfl⟩⟩
    · exact ⟨b, hb, .refl _ b⟩
  · exact refl s

theorem sweepTube (s : Engine) (name : TubeName) (hn : s.tubes.keys.Nodup) :
    SamePosts s (s.sweepTube name).2 := by
  have hpromoted := transitionEach promote s ((s.dueJobs name).take promotionCap)
  exact hpromoted.trans (resume _ name (hpromoted.keys ▸ hn))

theorem sweepTubes (names : List TubeName) (n : Nat) (s : Engine) (hn : s.tubes.keys.Nodup) :
    SamePosts s (names.foldl (fun (total : Nat × Engine) name =>
      (total.1 + (total.2.sweepTube name).1, (total.2.sweepTube name).2)) (n, s)).2 := by
  refine foldl_keeps (fun n => n) (fun t name h => ?_) names n (refl s)
  exact h.trans (sweepTube t name (h.keys ▸ hn))

theorem delayedSweep (s : Engine) (hn : s.tubes.keys.Nodup) : SamePosts s s.delayedSweep.2 :=
  sweepTubes s.tubes.keys 0 s hn

theorem dropIdle (s : Engine) (c : ClientId) : SamePosts s (s.dropIdle c) := by
  unfold Engine.dropIdle
  split <;> exact of_eq rfl rfl rfl

theorem expireClient (s : Engine) (c : ClientId) : SamePosts s (s.expireClient c).2 := by
  have hexpired : SamePosts s (Engine.transitionEach expire s (s.overdueJobs c)).2 :=
    transitionEach (fun t id => transition t id _ fun job => enterReady t job _) s _
  exact hexpired.trans (dropIdle _ c)

theorem expirySweep (s : Engine) : SamePosts s s.expirySweep.2 := by
  refine foldl_keeps (fun n => n) (fun t c h => ?_) s.expiring 0 (refl s)
  exact h.trans (expireClient t c)

/-! ## Requests -/

theorem openRequest (s : Engine) (q : Request) : SamePosts s (s.openRequest q) :=
  (adjustClient s q.client (f := fun client => { client with tasks := client.tasks.start.2 })
    fun _ => rfl).trans (of_eq rfl rfl rfl)

theorem enqueueWaiters (r : RequestId) : ∀ (names : List TubeName) (s : Engine),
    SamePosts s (names.foldl (fun s name => s.enqueueWaiter r name) s)
  | [], s => refl s
  | name :: rest, s =>
    have hfirst : SamePosts s (s.enqueueWaiter r name) :=
      adjustTube s name fun _ => ⟨rfl, rfl, rfl, Or.inl rfl⟩
    hfirst.trans (enqueueWaiters r rest _)

theorem reserve (s : Engine) (c : ClientId) (timeout : Option Millis) :
    SamePosts s (s.reserve c timeout) := by
  unfold Engine.reserve
  split
  · exact refl s
  · next client _ =>
    refine (openRequest s (client.request s.nextRequest s.now timeout)).trans ?_
    dsimp only
    split
    · next t hsome =>
      obtain ⟨name, -, htake⟩ := List.exists_of_findSome?_eq_some hsome
      obtain ⟨id, -, rfl⟩ := Option.map_eq_some_iff.1 htake
      split
      · exact grant _ _ id
      · exact (grant _ _ id).trans (drain _ name)
    · split
      · exact (finish _ _).trans (of_eq rfl rfl rfl)
      · exact enqueueWaiters _ _ _

theorem fireTimer (target : Instant) (s : Engine) (q : Request) :
    SamePosts s (fireTimer target s q) := by
  unfold Engine.fireTimer
  split
  · split
    · exact (finish s q).trans (of_eq rfl rfl rfl)
    · exact refl s
  · exact refl s

theorem fireTimers (target : Instant) : ∀ (qs : List Request) (s : Engine),
    SamePosts s (qs.foldl (Engine.fireTimer target) s)
  | [], s => refl s
  | q :: rest, s => (fireTimer target s q).trans (fireTimers target rest _)

end SamePosts

end Engine

end WorkQueue
