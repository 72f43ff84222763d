import WorkQueue.Proofs.Answers
import WorkQueue.Proofs.History

/-!
# Who waits at a tube

The open entries in the queue of a tube are the requests that a run tells of, without those that
have been answered, whose client has gone or did not watch the tube when it asked
(`Broker.waiters_represent`). What the client watches now makes no difference, and neither do the
jobs that its tubes were offered. A request that has to be answered still waits somewhere, since a
client always watches a tube.
-/

namespace WorkQueue

namespace Engine

variable {s : Engine}

/-- A request is open as long as it has no answer and its client is connected. -/
theorem Sound.isOpen_eq (h : Sound none none s) {q : Request} (hq : q ∈ s.requests) :
    s.isOpen q = (s.isConnected q.client && (s.outcome? q.id).isNone) := by
  cases hcon : s.isConnected q.client with
  | true =>
    rw [Bool.eq_iff_iff, h.accounted.pending q hq hcon, Bool.true_and, Option.isNone_iff_eq_none]
  | false =>
    by_contra hopen
    have hopen : s.isOpen q = true := by simpa using hopen
    rw [h.tracked.isConnected_of_isOpen hopen] at hcon
    cases hcon

end Engine

namespace Broker

variable {b : Broker}

/-- Whether a client is still to get the answer to a request. -/
def awaits (b : Broker) (asking : Asking) : Bool :=
  b.isConnected asking.client && (b.engine.outcome? asking.request).isNone

/-- The queues of the tubes, by what a run tells of the requests. -/
structure Represents (b : Broker) (told : List Asking) : Prop where
  waiters : ∀ tube ∈ b.engine.tubes, tube.waiters.filter b.engine.isPending =
    (told.filter fun asking => b.awaits asking && asking.watched.contains tube.name).map (·.request)
  inOrder : ∀ tube ∈ b.engine.tubes, (tube.waiters.filter b.engine.isPending).Pairwise (· < ·)
  currentWaiting : ∀ tube ∈ b.engine.tubes, (b.engine.tubeStats tube).currentWaiting =
    told.countP fun asking => b.awaits asking && asking.watched.contains tube.name
  kept : ∀ asking ∈ told, b.awaits asking = true →
    ∃ tube ∈ b.engine.tubes, tube.name ∈ asking.watched ∧ asking.request ∈ tube.waiters

/-- Whoever asks watches a tube. -/
theorem watched_ne_nil (config : Config) (events : List Event) :
    ∀ asking ∈ (start config).history asking? events, asking.watched ≠ [] := by
  induction events using List.reverseRecOn with
  | nil => exact List.forall_mem_nil _
  | append_singleton earlier event ih =>
    rw [history_append]
    refine List.forall_mem_append.2 ⟨ih, fun asking hasking => ?_⟩
    rw [Option.mem_toList, asking?_eq] at hasking
    obtain ⟨asks, -, hif⟩ := Option.bind_eq_some_iff.1 hasking
    obtain ⟨hc, hsome⟩ := Option.ite_none_right_eq_some.1 hif
    obtain rfl := Option.some.inj hsome
    have hb := (Reachable.start config).after earlier
    obtain ⟨client, hid, hclient, hopen⟩ := Engine.client?_of_isConnected hc
    have hwatching := hb.tended.watches client (Table.mem_of_lookup hclient) hopen
    simpa [watchedBy, hclient] using hwatching

/-- In every run, the queues of the tubes have the requests that are still to be answered, each in
its place. -/
theorem waiters_represent (config : Config) (events : List Event) :
    ((start config).after events).Represents ((start config).history asking? events) := by
  have hs := ((Reachable.start config).after events).sound
  have htold := requests_history config events
  have hwatched := watched_ne_nil config events
  set b := (start config).after events
  rw [← htold] at hwatched ⊢
  have hopen {q : Request} (hq : q ∈ b.engine.requests) :
      b.awaits q.asking = b.engine.isOpen q := (hs.isOpen_eq hq).symm
  have hwaiters (tube : Tube) (ht : tube ∈ b.engine.tubes) :
      tube.waiters.filter b.engine.isPending = ((b.engine.requests.map Request.asking).filter
        fun asking => b.awaits asking && asking.watched.contains tube.name).map (·.request) := by
    rw [hs.queued.turns tube ht, Engine.turns, List.filter_map, List.map_map]
    refine congrArg (List.map _) (List.filter_congr fun q hq => ?_)
    rw [Function.comp, hopen hq, List.contains_eq_mem]
    rfl
  refine ⟨hwaiters, fun tube ht => ?_, fun tube ht => ?_, fun asking hasking hawaits => ?_⟩
  · rw [hs.queued.turns tube ht]
    exact Engine.pairwise_turns hs.tracked.numbered tube.name
  · rw [List.countP_eq_length_filter, ← List.length_map, ← hwaiters tube ht]
    rfl
  · obtain ⟨q, hq, rfl⟩ := List.mem_map.1 hasking
    obtain ⟨name, hname⟩ := List.exists_mem_of_ne_nil _ (hwatched q.asking hasking)
    obtain ⟨tube, ht, rfl⟩ := List.mem_map.1 (hs.posted.requests q hq hname)
    refine ⟨tube, ht, hname, List.mem_of_mem_filter (p := b.engine.isPending) ?_⟩
    rw [hs.queued.turns tube ht]
    exact Engine.mem_turns_iff.2 ⟨q, hq, hopen hq ▸ hawaits, hname, rfl⟩

/-- The first client watches two tubes when it asks, and ignores one of them while it waits. -/
def ignoredLate : List Event :=
  [.connect, .connect, .command 1 (.watch ⟨ascii "mail", by decide⟩) none,
    .command 1 .reserve none, .command 1 (.ignore .default) none, .command 2 .reserve none]

example : ((start {}).history asking? ignoredLate).map (·.request) = [1, 2] ∧
    ((start {}).after ignoredLate).engine.tubes.map (·.waiters) = [[1, 2], [1]] := by decide

end Broker

end WorkQueue
