import WorkQueue.Broker.Event
import WorkQueue.Proofs.Mirror

/-!
# Two engines in step

Whatever is done to two engines of which one mirrors the other, they answer alike and stay so : for
every transition of a job, every change of a client, the sweeps and the clock. A result and an
engine that come of it together are compared by `Engine.Agrees`.
-/

namespace WorkQueue

namespace Engine

variable {ρ : Renaming} {s t : Engine} {c : ClientId} {name : TubeName} {α β : Type}

theorem Agrees.foldl {f : α × Engine → β → α × Engine}
    (hf : ∀ x y b, Agrees ρ x y → Agrees ρ (f x b) (f y b)) :
    ∀ (list : List β) {x y : α × Engine}, Agrees ρ x y → Agrees ρ (list.foldl f x) (list.foldl f y)
  | [], _, _, h => h
  | b :: rest, _, _, h => foldl hf rest (hf _ _ b h)

/-- The results are counted. -/
theorem Agrees.add {x y : Nat × Engine} {m n : Nat} {u v : Engine} (h : Agrees ρ x y)
    (hnext : n = m) (hm : Mirrors ρ u v) : Agrees ρ (x.1 + m, u) (y.1 + n, v) :=
  ⟨by rw [h.result, hnext], hm⟩

namespace Mirrors

variable (h : Mirrors ρ s t)

include h

/-! ## Jobs -/

theorem create (name : TubeName) (pri : Nat) (delay ttr : Millis) (body : Bytes) :
    Mirrors ρ (s.create name pri delay ttr body) (t.create name pri delay ttr body) := by
  refine { h with jobs := ?_ }
  simp only [Engine.create, h.jobs, h.nextJob, h.now]

theorem enterReady (job : Job) (f : Job → Job) :
    Mirrors ρ (s.enterReady job f) (t.enterReady job f) :=
  (h.move job.id _).drain job.tube

theorem transition (id : JobId) (isOpenTo : Job → Bool) {go go' : Job → Engine}
    (hgo : ∀ job, Mirrors ρ (go job) (go' job)) :
    Agrees ρ (s.transition id isOpenTo go) (t.transition id isOpenTo go') := by
  unfold Engine.transition
  rw [h.job?]
  split
  · split
    · exact ⟨rfl, hgo _⟩
    · exact ⟨rfl, h⟩
  · exact ⟨rfl, h⟩

theorem enqueue (id : JobId) : Agrees ρ (s.enqueue id) (t.enqueue id) :=
  h.transition id _ fun job => by
    rw [h.now]
    split
    · exact h.enterReady job _
    · exact h.move id _

theorem reserveJob (c : ClientId) (id : JobId) :
    Agrees ρ (s.reserveJob c id) (t.reserveJob c id) := by
  have hgo (job : Job) : Mirrors ρ
      (if s.isConnected c then s.move id (·.makeReserved s.now c) else s.enterReady job (·))
      (if t.isConnected c then t.move id (·.makeReserved t.now c) else t.enterReady job (·)) := by
    rw [h.isConnected, h.now]
    split
    · exact h.move id _
    · exact h.enterReady job _
  have hdone := h.transition id isReservable hgo
  exact ⟨congrArg₂ (· && ·) hdone.result (h.isConnected c), hdone.mirrors⟩

theorem touch (c : ClientId) (id : JobId) : Agrees ρ (s.touch c id) (t.touch c id) :=
  h.transition id _ fun _ => h.now ▸ h.move id _

theorem giveBack (c : ClientId) (id : JobId) : Agrees ρ (s.giveBack c id) (t.giveBack c id) :=
  h.transition id _ fun job => h.enterReady job _

theorem bury (c : ClientId) (id : JobId) (pri : Nat) :
    Agrees ρ (s.bury c id pri) (t.bury c id pri) :=
  h.transition id _ fun _ => h.move id _

theorem release (c : ClientId) (id : JobId) (pri : Nat) (delay : Millis) :
    Agrees ρ (s.release c id pri delay) (t.release c id pri delay) :=
  h.transition id _ fun job => by
    rw [h.now]
    split
    · exact h.enterReady job _
    · exact h.move id _

theorem delete (c : ClientId) (id : JobId) : Agrees ρ (s.delete c id) (t.delete c id) :=
  h.transition id _ fun _ => h.move id _

theorem kickJob (id : JobId) : Agrees ρ (s.kickJob id) (t.kickJob id) :=
  h.transition id _ fun job => h.enterReady job _

theorem promote (id : JobId) : Agrees ρ (s.promote id) (t.promote id) := by
  unfold Engine.promote
  rw [h.now]
  exact h.transition id _ fun job => h.enterReady job _

theorem expire (id : JobId) : Agrees ρ (s.expire id) (t.expire id) := by
  unfold Engine.expire
  rw [h.now]
  exact h.transition id _ fun job => h.enterReady job _

theorem transitionEach {go : Engine → JobId → Bool × Engine}
    (hgo : ∀ {s t : Engine}, Mirrors ρ s t → ∀ id, Agrees ρ (go s id) (go t id))
    (ids : List JobId) : Agrees ρ (transitionEach go s ids) (transitionEach go t ids) := by
  refine Agrees.foldl (fun x y id hxy => ?_) ids ⟨rfl, h⟩
  have hnext := hgo hxy.mirrors id
  exact hxy.add (congrArg Bool.toNat hnext.result) hnext.mirrors

theorem kick (name : TubeName) (bound : Nat) :
    Agrees ρ (s.kick name bound) (t.kick name bound) := by
  unfold Engine.kick
  rw [h.tube?]
  cases s.tube? name with
  | none => exact ⟨rfl, h⟩
  | some tube => exact h.transitionEach (fun h => h.kickJob) (tube.kickable bound)

/-! ## Clients -/

theorem addUser (name : TubeName) : Mirrors ρ (s.addUser name) (t.addUser name) :=
  h.adjustTube name fun _ => rfl

theorem removeUser (name : TubeName) : Mirrors ρ (s.removeUser name) (t.removeUser name) :=
  h.adjustTube name fun _ => rfl

theorem addWatcher (name : TubeName) : Mirrors ρ (s.addWatcher name) (t.addWatcher name) :=
  h.adjustTube name fun _ => rfl

theorem removeWatcher (name : TubeName) :
    Mirrors ρ (s.removeWatcher name) (t.removeWatcher name) :=
  h.adjustTube name fun _ => rfl

theorem removeWatchers (names : List TubeName) :
    Mirrors ρ (names.foldl Engine.removeWatcher s) (names.foldl Engine.removeWatcher t) := by
  induction names generalizing s t with
  | nil => exact h
  | cons name rest ih => exact ih (h.removeWatcher name)

theorem ensureTube (name : TubeName) : Mirrors ρ (s.ensureTube name) (t.ensureTube name) := by
  unfold Engine.ensureTube
  rw [h.tube?, Option.isSome_map]
  split
  · exact h
  · exact { h with tubes := by simp only [h.tubes, List.map_append, List.map_singleton]; rfl }

theorem openClient : Mirrors ρ s.openClient t.openClient := by
  have hcounted := (h.addUser .default).addWatcher .default
  have hnew : Client.Like ρ { id := s.nextClient } { id := t.nextClient } := by
    rw [h.nextClient]
    exact .mk false 0 fun k => h.newcomers s.nextClient (Nat.lt_succ_self _) _
  refine { hcounted with
    clients := List.rel_append h.clients (.cons hnew .nil), newcomers := fun c hc => ?_ }
  refine h.newcomers c (Nat.lt_of_le_of_lt ?_ hc)
  rw [Engine.openClient, List.length_append]
  exact Nat.le_add_right _ _

theorem useTube (c : ClientId) (name : TubeName) :
    Mirrors ρ (s.useTube c name) (t.useTube c name) := by
  unfold Engine.useTube
  rcases h.client? c with ⟨hs, ht⟩ | ⟨a, b, hs, ht, worker, begun, hnext⟩
  · rw [hs, ht]
    exact h
  · rw [hs, ht]
    exact (((h.ensureTube name).addUser name).removeUser a.used).adjustClient c
      fun _ _ _ ⟨worker, begun, hnext⟩ => ⟨worker, begun, hnext⟩

theorem watch (c : ClientId) (name : TubeName) :
    Mirrors ρ (s.watch c name) (t.watch c name) := by
  have hmade := h.ensureTube name
  unfold Engine.watch
  rcases hmade.client? c with ⟨hs, ht⟩ | ⟨a, b, hs, ht, worker, begun, hnext⟩
  · simp only [hs, ht]
    exact hmade
  · simp only [hs, ht]
    split
    · exact hmade
    · exact (hmade.addWatcher name).adjustClient c
        fun _ _ _ ⟨worker, begun, hnext⟩ => ⟨worker, begun, hnext⟩

theorem watchCount (c : ClientId) : t.watchCount c = s.watchCount c := by
  unfold Engine.watchCount
  rcases h.client? c with ⟨hs, ht⟩ | ⟨a, b, hs, ht, worker, begun, hnext⟩
  · rw [hs, ht]
  · rw [hs, ht]
    rfl

theorem watchesOnly (c : ClientId) (name : TubeName) :
    t.watchesOnly c name = s.watchesOnly c name := by
  unfold Engine.watchesOnly
  rcases h.client? c with ⟨hs, ht⟩ | ⟨a, b, hs, ht, worker, begun, hnext⟩
  · rw [hs, ht]
  · rw [hs, ht]
    rfl

theorem ignore (c : ClientId) (name : TubeName) :
    Mirrors ρ (s.ignore c name) (t.ignore c name) := by
  unfold Engine.ignore
  rw [h.watchesOnly]
  rcases h.client? c with ⟨hs, ht⟩ | ⟨a, b, hs, ht, worker, begun, hnext⟩
  · rw [hs, ht]
    exact h
  · rw [hs, ht]
    dsimp only
    split
    · exact (h.removeWatcher name).adjustClient c
        fun _ _ _ ⟨worker, begun, hnext⟩ => ⟨worker, begun, hnext⟩
    · exact h

theorem finishAll (c : ClientId) : Mirrors ρ (s.finishAll c) (t.finishAll c) :=
  h.adjustClient c fun _ _ _ ⟨worker, begun, hnext⟩ => ⟨worker, begun, hnext⟩

theorem giveBacks (c : ClientId) (slots : List Slot) :
    Mirrors ρ (slots.foldl (fun s slot => (s.giveBack c slot.job).2) s)
      (slots.foldl (fun t slot => (t.giveBack c slot.job).2) t) := by
  induction slots generalizing s t with
  | nil => exact h
  | cons slot rest ih => exact ih (h.giveBack c slot.job).mirrors

theorem giveBackAll (c : ClientId) : Mirrors ρ (s.giveBackAll c) (t.giveBackAll c) := by
  unfold Engine.giveBackAll
  rcases h.client? c with ⟨hs, ht⟩ | ⟨a, b, hs, ht, worker, begun, hnext⟩
  · rw [hs, ht]
    exact h
  · rw [hs, ht]
    exact h.giveBacks c a.held

theorem close (c : ClientId) : Mirrors ρ (s.close c) (t.close c) := by
  unfold Engine.close
  rcases h.client? c with ⟨hs, ht⟩ | ⟨a, b, hs, ht, worker, begun, hnext⟩
  · rw [hs, ht]
    exact h
  · rw [hs, ht]
    have hgiven := (h.finishAll c).giveBackAll c
    exact ((hgiven.removeUser a.used).removeWatchers a.watching).adjustClient c
      fun _ _ _ ⟨worker, begun, hnext⟩ => ⟨worker, begun, hnext⟩

theorem markWorker (c : ClientId) : Mirrors ρ (Broker.markWorker s c) (Broker.markWorker t c) :=
  h.adjustClient c fun _ _ _ ⟨_, begun, hnext⟩ => ⟨true, begun, hnext⟩

/-! ## Time -/

theorem resume (name : TubeName) : Mirrors ρ (s.resume name) (t.resume name) := by
  unfold Engine.resume
  rw [h.tube?, h.now, Option.any_map]
  change Mirrors ρ _ (if (s.tube? name).any (·.pauseIsOver s.now) then _ else t)
  split
  · have hcut := h.adjustTube name (f := ({ · with pausedUntil := none }))
      (g := ({ · with pausedUntil := none })) fun _ => rfl
    exact hcut.drain name
  · exact h

theorem sweepTube (name : TubeName) : Agrees ρ (s.sweepTube name) (t.sweepTube name) := by
  have hdue : t.dueJobs name = s.dueJobs name := by
    rw [dueJobs, dueJobs, h.tube?, h.now, Option.map_map]
    rfl
  have hswept := h.transitionEach (fun h => h.promote) ((s.dueJobs name).take promotionCap)
  unfold Engine.sweepTube
  rw [hdue]
  exact ⟨hswept.result, hswept.mirrors.resume name⟩

theorem delayedSweep : Agrees ρ s.delayedSweep t.delayedSweep := by
  have hswept : Agrees ρ (s.sweepTubes s.tubes.keys) (t.sweepTubes s.tubes.keys) :=
    Agrees.foldl (fun x y name hxy =>
      hxy.add (hxy.mirrors.sweepTube name).result (hxy.mirrors.sweepTube name).mirrors) _ ⟨rfl, h⟩
  unfold Engine.delayedSweep
  rw [h.keys]
  exact ⟨by simp only [hswept.result], hswept.mirrors⟩

theorem dropIdle (c : ClientId) : Mirrors ρ (s.dropIdle c) (t.dropIdle c) := by
  have hidle : (t.client? c).all (·.held.isEmpty) = (s.client? c).all (·.held.isEmpty) := by
    rcases h.client? c with ⟨hs, ht⟩ | ⟨a, b, hs, ht, worker, begun, hnext⟩
    · rw [hs, ht]
    · rw [hs, ht]
      rfl
  unfold Engine.dropIdle
  rw [hidle]
  split
  · exact { h with expiring := congrArg (List.filter (· ≠ c)) h.expiring }
  · exact h

theorem expireClient (c : ClientId) : Agrees ρ (s.expireClient c) (t.expireClient c) := by
  have hoverdue : t.overdueJobs c = s.overdueJobs c := by
    unfold overdueJobs
    rw [h.now]
    rcases h.client? c with ⟨hs, ht⟩ | ⟨a, b, hs, ht, worker, begun, hnext⟩
    · rw [hs, ht]
    · rw [hs, ht]
      rfl
  have hswept := h.transitionEach (fun h => h.expire) (s.overdueJobs c)
  unfold Engine.expireClient
  rw [hoverdue]
  exact ⟨hswept.result, hswept.mirrors.dropIdle c⟩

theorem expirySweep : Agrees ρ s.expirySweep t.expirySweep := by
  unfold Engine.expirySweep
  rw [h.expiring]
  exact Agrees.foldl (fun x y c hxy =>
    hxy.add (hxy.mirrors.expireClient c).result (hxy.mirrors.expireClient c).mirrors) _ ⟨rfl, h⟩

theorem fireTimer (target : Instant) (q : Request) :
    Mirrors ρ (fireTimer target s q) (fireTimer target t (q.rename ρ)) := by
  unfold Engine.fireTimer
  rw [h.isOpen]
  rw [show (q.rename ρ).timer = q.timer from rfl]
  cases q.timer with
  | none => exact h
  | some timer =>
    dsimp only
    split
    · exact (h.finish q).deliver q.id timer.outcome timer.due
    · exact h

theorem fireTimers (target : Instant) {qs ps : List Request} (hamong : Among ρ qs ps) :
    Mirrors ρ (qs.foldl (Engine.fireTimer target) s) (ps.foldl (Engine.fireTimer target) t) := by
  induction hamong generalizing s t with
  | nil => exact h
  | same q _ ih => exact ih (h.fireTimer target q)
  | extra p htimer _ _ ih =>
    have hidle : Engine.fireTimer target t p = t := by
      unfold Engine.fireTimer
      rw [htimer]
    rw [List.foldl_cons, hidle]
    exact ih h

theorem advance (span : Millis) : Mirrors ρ (s.advance span) (t.advance span) := by
  have hfired := h.fireTimers (s.now + span) h.requests
  unfold Engine.advance
  rw [h.now]
  exact { hfired with now := rfl }

end Mirrors

end Engine

end WorkQueue
