import WorkQueue.Proofs.Lockstep

/-!
# Brokers that answer alike

A broker whose engine mirrors that of another gives the same replies, apart from what `stats` tells
of the commands and of the current workers (`Response.withoutCounts`), and requests are answered
under their other numbers (`Reply.Like`). Whatever happens to both, the one mirrors the other still
(`Broker.Mirrors.step`).
-/

namespace WorkQueue

variable {ρ : Renaming}

/-- A response without the counts of the commands and the number of current workers. -/
def Response.withoutCounts : Response → Response
  | .serverStats stats =>
    .serverStats { CommandCounts.fill {} stats with currentWorkers := 0 }
  | response => response

/-- The same reply, with requests under their other numbers. -/
inductive Reply.Like (ρ : Renaming) : Reply → Reply → Prop
  | now {a b : Response} (h : b.withoutCounts = a.withoutCounts) : Like ρ (.now a) (.now b)
  | later (request : RequestId) : Like ρ (.later request) (.later (ρ.request request))
  | close : Like ρ .close .close

theorem Reply.Like.of_eq {a b : Response} (h : b = a) : Reply.Like ρ (.now a) (.now b) :=
  .now (congrArg Response.withoutCounts h)

namespace Engine.Mirrors

variable {s t : Engine} (h : Mirrors ρ s t)

include h

/-! ## Reports -/

theorem totals : t.totals = s.totals := by
  rw [Engine.totals, h.tubes, List.foldl_map]
  rfl

theorem waitingCount (tube : Tube) : t.waitingCount (tube.rename ρ) = s.waitingCount tube := by
  simp only [Engine.waitingCount, Tube.rename, List.filter_map, List.length_map]
  exact congrArg List.length (List.filter_congr fun r _ => h.isPending r)

theorem tubeStats (tube : Tube) : t.tubeStats (tube.rename ρ) = s.tubeStats tube := by
  simp only [Engine.tubeStats, h.waitingCount, h.now]
  rfl

end Engine.Mirrors

namespace Broker

/-- A broker that is another one under other numbers, but for the commands that it has counted. -/
structure Mirrors (ρ : Renaming) (b b' : Broker) : Prop where
  engine : Engine.Mirrors ρ b.engine b'.engine
  config : b'.config = b.config
  jobTimeouts : b'.jobTimeouts = b.jobTimeouts
  totalJobs : b'.totalJobs = b.totalJobs
  totalConnections : b'.totalConnections = b.totalConnections

/-- What comes of a command in both. -/
structure Alike (ρ : Renaming) (x y : Reply × Broker) : Prop where
  reply : Reply.Like ρ x.1 y.1
  broker : Mirrors ρ x.2 y.2

namespace Mirrors

open Engine

variable {b b' : Broker} {s t : Engine} {c : ClientId} (h : Mirrors ρ b b')

include h

theorem of_engine (hm : Engine.Mirrors ρ s t) :
    Mirrors ρ { b with engine := s } { b' with engine := t } :=
  { h with engine := hm }

theorem record (verb verb' : Verb) : Mirrors ρ (b.record verb) (b'.record verb') :=
  { h with }

theorem clients : List.Forall₂ (Client.Like ρ) b.clients b'.clients := by
  refine List.rel_filter (fun x y hxy => ?_) h.engine.clients
  cases hxy
  exact Iff.rfl

/-- Clients that are counted by what they have in common are as many. -/
theorem count (p : Client → Bool) (hp : ∀ x y, Client.Like ρ x y → p y = p x) :
    (b'.clients.filter p).length = (b.clients.filter p).length := by
  refine (List.Forall₂.length_eq (List.rel_filter (fun x y hxy => ?_) h.clients)).symm
  exact iff_of_eq (congrArg (· = true) (hp x y hxy).symm)

theorem stats : (Response.serverStats b'.stats).withoutCounts =
    (Response.serverStats b.stats).withoutCounts := by
  have hproducers := h.count (·.producer) fun x y hxy => by cases hxy; rfl
  have hwaiting := h.count (·.isWaiting) fun x y hxy => by
    cases hxy
    simp only [Client.isWaiting, Tasks.openCount, List.length_map]
    rfl
  have hconnections := h.clients.length_eq
  have htubes : b'.engine.tubes.length = b.engine.tubes.length := by
    rw [h.engine.tubes, List.length_map]
  simp only [Response.withoutCounts, Broker.stats, CommandCounts.fill, h.engine.totals,
    h.jobTimeouts, h.totalJobs, h.config, htubes, hconnections, hproducers, hwaiting,
    h.totalConnections, h.engine.now]

/-! ## Commands -/

theorem onJob (id : JobId) (f : Engine → JobId → Bool × Engine)
    (hf : Agrees ρ (f b.engine id) (f b'.engine id)) :
    Agrees ρ (b.onJob id f) (b'.onJob id f) := by
  unfold Broker.onJob
  rw [h.engine.find?]
  split
  · exact hf
  · exact ⟨rfl, h.engine⟩

theorem acknowledge (notice : Notice) {x y : Bool × Engine} (hxy : Agrees ρ x y) :
    Alike ρ (b.acknowledge notice x) (b'.acknowledge notice y) := by
  refine ⟨.of_eq ?_, h.of_engine hxy.mirrors⟩
  rw [hxy.result]

theorem show? (job : Option Job) : Alike ρ (b.show? job) (b'.show? job) := by
  unfold Broker.show?
  split <;> exact ⟨.of_eq rfl, h⟩

theorem usedTube? (c : ClientId) : b'.usedTube? c = (b.usedTube? c).map (Tube.rename ρ) := by
  unfold Broker.usedTube?
  rcases h.engine.client? c with ⟨hs, ht⟩ | ⟨x, y, hs, ht, worker, begun, hnext⟩
  · rw [hs, ht]
    rfl
  · rw [hs, ht]
    exact h.engine.tube? x.used

theorem peekTube (c : ClientId) (first : Tube → Option JobId)
    (hfirst : ∀ tube, first (tube.rename ρ) = first tube) :
    Alike ρ (b.peekTube c first) (b'.peekTube c first) := by
  have hjob : ((b'.usedTube? c).bind first).bind b'.engine.job? =
      ((b.usedTube? c).bind first).bind b.engine.job? := by
    rw [h.usedTube?, Option.bind_map]
    have hsame : first ∘ Tube.rename ρ = first := funext hfirst
    rw [hsame]
    exact congrArg _ (funext h.engine.job?)
  unfold Broker.peekTube
  rw [hjob]
  exact h.show? _

theorem put (c : ClientId) (pri : Nat) (delay ttr : Millis) (body : Bytes) :
    Alike ρ (b.put c pri delay ttr body) (b'.put c pri delay ttr body) := by
  unfold Broker.put
  rcases h.engine.client? c with ⟨hs, ht⟩ | ⟨x, y, hs, ht, worker, begun, hnext⟩
  · rw [hs, ht]
    exact ⟨.of_eq rfl, h⟩
  · rw [hs, ht]
    have hmarked := h.engine.adjustClient c
      (f := fun client => { client with producer := true })
      (g := fun client => { client with producer := true })
      fun _ _ _ ⟨worker, begun, hnext⟩ => ⟨worker, begun, hnext⟩
    have hmade := (hmarked.create x.used pri delay ttr body).adjustTube x.used
      (f := fun tube => { tube with totalJobs := tube.totalJobs + 1 })
      (g := fun tube => { tube with totalJobs := tube.totalJobs + 1 }) fun _ => rfl
    have hplaced := (hmade.enqueue b.engine.nextJob).mirrors
    dsimp only
    rw [h.engine.nextJob]
    exact ⟨.of_eq rfl, { h with engine := hplaced, totalJobs := congrArg (· + 1) h.totalJobs }⟩

theorem reserve (c : ClientId) (timeout : Option Millis) :
    Alike ρ (b.reserve c timeout) (b'.reserve c timeout) := by
  refine ⟨?_, h.of_engine ((h.engine.markWorker c).reserve c timeout)⟩
  simp only [Broker.reserve, h.engine.nextRequest]
  exact .later _

theorem reserveJob (c : ClientId) (id : JobId) :
    Alike ρ (b.reserveJob c id) (b'.reserveJob c id) := by
  have hdone := h.onJob id (·.reserveJob c) (h.engine.reserveJob c id)
  unfold Broker.reserveJob
  dsimp only
  rw [hdone.result, h.engine.find?]
  split
  · exact ⟨.of_eq rfl, h.of_engine ((hdone.mirrors.markWorker c).watchDeadlines c)⟩
  · exact ⟨.of_eq rfl, h.of_engine hdone.mirrors⟩

theorem delete (c : ClientId) (id : JobId) : Alike ρ (b.delete c id) (b'.delete c id) := by
  have hdone := h.onJob id (·.delete c) (h.engine.delete c id)
  unfold Broker.delete
  dsimp only
  rw [hdone.result, h.engine.find?]
  split
  · next job _ _ =>
    have hcounted := (hdone.mirrors.adjustJob id fun job => { job with registered := false })
      |>.adjustTube job.tube (f := fun tube => { tube with cmdDelete := tube.cmdDelete + 1 })
        (g := fun tube => { tube with cmdDelete := tube.cmdDelete + 1 }) fun _ => rfl
    exact ⟨.of_eq rfl, h.of_engine hcounted⟩
  · exact ⟨.of_eq rfl, h.of_engine hdone.mirrors⟩

theorem kick (c : ClientId) (bound : Nat) : Alike ρ (b.kick c bound) (b'.kick c bound) := by
  unfold Broker.kick
  rcases h.engine.client? c with ⟨hs, ht⟩ | ⟨x, y, hs, ht, worker, begun, hnext⟩
  · rw [hs, ht]
    exact ⟨.of_eq rfl, h⟩
  · rw [hs, ht]
    have hkicked := h.engine.kick x.used bound
    exact ⟨.of_eq (congrArg Response.kickedCount hkicked.result), h.of_engine hkicked.mirrors⟩

theorem ignore (c : ClientId) (name : TubeName) :
    Alike ρ (b.ignore c name) (b'.ignore c name) := by
  unfold Broker.ignore
  rw [h.engine.watchesOnly]
  split
  · exact ⟨.of_eq rfl, h⟩
  · have hleft := h.engine.ignore c name
    exact ⟨.of_eq (congrArg Response.watching (hleft.watchCount c)), h.of_engine hleft⟩

theorem pauseTube (name : TubeName) (span : Millis) :
    Alike ρ (b.pauseTube name span) (b'.pauseTube name span) := by
  unfold Broker.pauseTube
  rw [h.engine.tube?, Option.isSome_map, h.engine.now]
  split
  · exact ⟨.of_eq rfl, h.of_engine (h.engine.adjustTube name fun _ => rfl)⟩
  · exact ⟨.of_eq rfl, h⟩

theorem perform (c : ClientId) (command : Command) (body : Option Bytes) :
    Alike ρ (b.perform c command body) (b'.perform c command body) := by
  cases command with
  | put pri delay ttr size =>
    cases body with
    | none => exact ⟨.of_eq rfl, h⟩
    | some body => exact h.put c _ _ _ body
  | reserve => exact h.reserve c none
  | reserveWithTimeout timeout => exact h.reserve c _
  | reserveJob id => exact h.reserveJob c id.toNat
  | release id pri delay =>
    exact h.acknowledge .released (h.onJob id.toNat _ (h.engine.release c _ _ _))
  | delete id => exact h.delete c id.toNat
  | bury id pri => exact h.acknowledge .buried (h.onJob id.toNat _ (h.engine.bury c _ _))
  | touch id => exact h.acknowledge .touched (h.onJob id.toNat _ (h.engine.touch c _))
  | watch name =>
    have hwatched := h.engine.watch c name
    exact ⟨.of_eq (congrArg Response.watching (hwatched.watchCount c)), h.of_engine hwatched⟩
  | ignore name => exact h.ignore c name
  | peek id =>
    simp only [Broker.perform, h.engine.find?]
    exact h.show? _
  | peekReady | peekDelayed | peekBuried => exact h.peekTube c _ fun _ => rfl
  | kick bound => exact h.kick c bound.toNat
  | kickJob id => exact h.acknowledge .kicked (h.onJob id.toNat _ (h.engine.kickJob _))
  | statsJob id =>
    simp only [Broker.perform, h.engine.find?, h.engine.now]
    split <;> exact ⟨.of_eq rfl, h⟩
  | statsTube name =>
    simp only [Broker.perform, h.engine.tube?]
    cases b.engine.tube? name with
    | none => exact ⟨.of_eq rfl, h⟩
    | some tube => exact ⟨.of_eq (congrArg Response.tubeStats (h.engine.tubeStats tube)), h⟩
  | stats => exact ⟨.now h.stats, h⟩
  | listTubes => exact ⟨.of_eq (congrArg Response.tubes h.engine.keys), h⟩
  | listTubeUsed | listTubesWatched =>
    unfold Broker.perform
    dsimp only
    rcases h.engine.client? c with ⟨hs, ht⟩ | ⟨x, y, hs, ht, worker, begun, hnext⟩
    · rw [hs, ht]
      exact ⟨.of_eq rfl, h⟩
    · rw [hs, ht]
      exact ⟨.of_eq rfl, h⟩
  | quit => exact ⟨.close, h⟩
  | pauseTube name delay => exact h.pauseTube name _
  | useTube name => exact ⟨.of_eq rfl, h.of_engine (h.engine.useTube c name)⟩

theorem dispatch (c : ClientId) (command : Command) (body : Option Bytes) :
    Alike ρ (b.dispatch c command body) (b'.dispatch c command body) :=
  (h.record command.verb command.verb).perform c command body

/-- Whatever happens to both, the one mirrors the other still. -/
theorem step (event : Event) : Mirrors ρ (b.step event) (b'.step event) := by
  cases event with
  | connect =>
    exact { h with
      engine := h.engine.openClient, totalConnections := congrArg (· + 1) h.totalConnections }
  | command c command body =>
    have hcon : b'.isConnected c = b.isConnected c := h.engine.isConnected c
    rw [Broker.step, Broker.step, hcon]
    split
    · exact (h.dispatch c command body).broker
    · exact h
  | disconnect c =>
    have hcon : b'.isConnected c = b.isConnected c := h.engine.isConnected c
    rw [Broker.step, Broker.step, hcon]
    split
    · exact h.of_engine (h.engine.close c)
    · exact h
  | advance span => exact h.of_engine (h.engine.advance span)
  | delayedSweep => exact h.of_engine h.engine.delayedSweep.mirrors
  | expirySweep =>
    have hswept := h.engine.expirySweep
    exact { h with
      engine := hswept.mirrors, jobTimeouts := congrArg₂ (· + ·) h.jobTimeouts hswept.result }

end Mirrors

end Broker

end WorkQueue
