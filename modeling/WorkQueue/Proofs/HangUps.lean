import WorkQueue.Proofs.Conversation
import WorkQueue.Proofs.Leaving
import WorkQueue.Proofs.Sessions

/-!
# Clients that hang up while they wait

A connection that waits for the answer to a reservation reads on, so the end of its stream closes
it and disconnects its client, at its next turn if no answer comes in before : then the client holds
no job and gets no answer any more (`Server.Ends`). But behind a line that is held back nothing is
read, and the end of the stream comes to nothing before the reservation is answered, with a job that
the client will not see perhaps. Nothing else keeps a connection open whose stream has ended
(`Server.Rests`). `Server.Reachable.hangUp_ends_iff` has it all.
-/

namespace WorkQueue

open Broker Connection

open Yaml (Writer)

/-! ## The end of a stream -/

/-- A call that has been given up for want of more comes to the end of the stream, if that is what
arrives next. -/
theorem LineBuffer.readLine_hangUp {buffer : LineBuffer} {inbox : List Read}
    (harrived : ∀ read ∈ inbox, ∃ bytes, read = .bytes bytes)
    (h : (buffer.readLine .givesUp (inbox ++ [.notReady])).1 = .givenUp) :
    (buffer.readLine .givesUp (inbox ++ [.bytes []] ++ [.notReady])).1 = .ended := by
  induction inbox generalizing buffer with
  | nil =>
    rw [readLine.eq_def] at h ⊢
    cases htake : buffer.takeLine with
    | line | tooLong =>
      rw [htake] at h
      cases h
    | unfinished => rfl
  | cons read rest ih =>
    obtain ⟨bytes, rfl⟩ := harrived read List.mem_cons_self
    rw [List.cons_append, readLine.eq_def] at h
    rw [List.cons_append, List.cons_append, readLine.eq_def]
    cases htake : buffer.takeLine with
    | line | tooLong =>
      rw [htake] at h
      cases h
    | unfinished =>
      rw [htake] at h
      cases bytes with
      | nil => cases h
      | cons => exact ih (fun read hread => harrived read (List.mem_cons_of_mem _ hread)) h

/-- A connection that reads on while it waits is closed when its stream ends. -/
theorem Connection.turn_hangUp [Writer] {k : Connection} {b : Broker} {request : RequestId}
    (ha : k.Attached b) (hd : k.doing = .waiting request none) {first : Branch}
    (hstill : k.turn first b = none) : ∃ k' : Connection, k'.client = k.client ∧
      turn { k with inbox := k.inbox ++ [.bytes []] } first b = some (k'.close b) := by
  obtain ⟨hnone, hahead⟩ := (turn_waiting_eq_none_iff hd).1 hstill
  rw [readAhead_none, readLine_eq_none_iff] at hahead
  have hended := LineBuffer.readLine_hangUp ha.arrived hahead
  have hanswer (k : Connection) : k.takeAnswer b request none = none :=
    takeAnswer_eq_none_iff.2 (takeAnswer_eq_none_iff.1 hnone)
  refine ⟨after { k with inbox := k.inbox ++ [.bytes []] }
    (k.buffer.readLine .givesUp (k.inbox ++ [.bytes []] ++ [.notReady])), rfl, ?_⟩
  unfold turn
  simp only [hd, hanswer, readAhead_none, Connection.readLine, reads, hended]
  cases first <;> rfl

namespace Connection

variable {k : Connection} {b : Broker} {first : Branch} {result : Connection × Broker}

/-- The stream of a connection has ended, and if it is open the end is still to be read. -/
def HungUp (k : Connection) : Prop :=
  k.doing = .closed ∨ LineBuffer.Ending k.inbox

theorem HungUp.turned (h : k.HungUp) (ht : Turned k b result) : result.1.HungUp :=
  h.elim (fun hclosed => absurd hclosed ht.wasOpen) ht.ending

/-- Only a line that is held back keeps a connection from the end of its stream. -/
theorem HungUp.rests [Writer] (h : k.HungUp) (hstill : k.turn first b = none) : k.doing = .closed ∨
    ∃ request line, k.doing = .waiting request (some line) ∧ b.response? request = none := by
  rcases h with hclosed | hend
  · exact Or.inl hclosed
  have hreads : LineBuffer.Ending k.reads := hend.append _
  have hline : (k.buffer.readLine .givesUp k.reads).1 ≠ .givenUp :=
    ((LineBuffer.spends_readLine ..).ending hreads).1
  cases hd : k.doing with
  | reading held =>
    unfold turn at hstill
    simp only [hd] at hstill
    cases held with
    | some line => cases hstill
    | none => exact absurd (readLine_eq_none_iff.1 hstill) hline
  | receiving command size =>
    unfold turn at hstill
    simp only [hd] at hstill
    split at hstill
    case h_5 hgiven => exact absurd hgiven ((LineBuffer.spends_readExact ..).ending hreads).1
    all_goals cases hstill
  | skipping size =>
    unfold turn at hstill
    simp only [hd] at hstill
    split at hstill
    case h_5 hgiven => exact absurd hgiven ((LineBuffer.spends_discard ..).ending hreads).1
    all_goals cases hstill
  | waiting request held =>
    obtain ⟨hnone, hahead⟩ := (turn_waiting_eq_none_iff hd).1 hstill
    cases held with
    | some line => exact Or.inr ⟨request, line, rfl, takeAnswer_eq_none_iff.1 hnone⟩
    | none =>
      rw [readAhead_none] at hahead
      exact absurd (readLine_eq_none_iff.1 hahead) hline
  | closed => exact Or.inl rfl

end Connection

namespace Server

variable {s : Server} {k : Connection} {c : ClientId} {request : RequestId}
  {held : Option Bytes} {line : Bytes}

theorem doing?_of_mem (hkeys : s.connections.keys.Nodup) (hk : k ∈ s.connections) :
    s.doing? k.client = some k.doing :=
  congrArg (Option.map Connection.doing) (Table.lookup_of_mem hkeys hk)

/-- The connection of a client that has gone is closed. -/
theorem Sound.doing?_of_gone (h : Sound s) (hc : c ∈ s.connections.keys)
    (hgone : s.broker.isConnected c = false) : s.doing? c = some .closed := by
  obtain ⟨k, hk, rfl⟩ := List.mem_map.1 hc
  have hclosed : decide (k.doing ≠ .closed) = false := (h.attached k hk).connected.symm.trans hgone
  have hdoing : k.doing = .closed := not_not.1 (of_decide_eq_false hclosed)
  exact (doing?_of_mem h.keys hk).trans (congrArg some hdoing)

theorem Sound.isConnected_of_doing? {d : Doing} (h : Sound s) (hd : s.doing? c = some d) :
    s.broker.isConnected c = decide (d ≠ .closed) := by
  obtain ⟨k, hlookup, rfl⟩ := Option.map_eq_some_iff.1 hd
  obtain rfl : k.client = c := Table.key_of_lookup hlookup
  exact (h.attached k (Table.mem_of_lookup hlookup)).connected

theorem Sound.mem_arrive (h : Sound s) (hk : k ∈ s.connections) (read : Read)
    {other : Connection} : other ∈ (s.arrive k.client read).connections ↔
      other = { k with inbox := k.inbox ++ [read] } ∨
        other ∈ s.connections ∧ other.client ≠ k.client := by
  refine Table.mem_adjust.trans (or_congr_left ⟨?_, fun heq => ⟨k, hk, rfl, heq⟩⟩)
  rintro ⟨old, hold, hkey, rfl⟩
  rw [Table.eq_of_key_eq h.keys hold hk hkey]

theorem doing?_arrive (s : Server) (c d : ClientId) (read : Read) :
    (s.arrive d read).doing? c = s.doing? c := by
  have hkey (k : Connection) : Keyed.key { k with inbox := k.inbox ++ [read] } = Keyed.key k := rfl
  unfold doing? arrive
  by_cases hcd : c = d
  · subst hcd
    rw [Table.lookup_adjust_self _ _ _ hkey, Option.map_map]
    rfl
  · rw [Table.lookup_adjust_ne _ hcd _ hkey]

/-- The stream of the client has ended. -/
def HungUp (s : Server) (c : ClientId) : Prop :=
  ∀ k ∈ s.connections, k.client = c → k.HungUp

theorem HungUp.arrive (h : s.HungUp c) (d : ClientId) (read : Read) :
    (s.arrive d read).HungUp c := by
  intro k hk hclient
  rcases Table.mem_adjust.1 hk with ⟨old, hold, -, rfl⟩ | ⟨hmem, -⟩
  · exact (h old hold hclient).imp id fun hend => hend.append _
  · exact h k hmem hclient

theorem Sound.hungUp_hangUp (h : Sound s) (c : ClientId) : (s.hangUp c).HungUp c := by
  intro k hk hclient
  rcases Table.mem_adjust.1 hk with ⟨old, hold, -, rfl⟩ | ⟨-, hne⟩
  · exact Or.inr (.of_arrived (h.attached old hold).arrived)
  · exact absurd hclient hne

variable [Writer]

/-! ## Behind a line -/

/-- A connection with a line held back makes no turn until its request is answered. -/
theorem turn_behind_line (hd : s.doing? c = some (.waiting request (some line)))
    (hnone : s.broker.response? request = none) (first : Branch) : s.turn c first = s := by
  obtain ⟨k, hlookup, hdoing⟩ := Option.map_eq_some_iff.1 hd
  have hturn : k.turn first s.broker = none :=
    (turn_waiting_eq_none_iff hdoing).2 ⟨takeAnswer_eq_none_iff.2 hnone, rfl⟩
  rw [turn, hlookup, Option.bind_some, hturn]

/-- Until its request is answered it waits, whatever happens. -/
theorem Sound.waits_event (h : Sound s) (hd : s.doing? c = some (.waiting request (some line)))
    (event : Event) (hnone : (s.step event).broker.response? request = none) :
    (s.step event).doing? c = some (.waiting request (some line)) := by
  -- no answer is taken back, so there is none yet
  have hbefore := (h.event event).2.unanswered h.broker hnone
  obtain ⟨k, hlookup, hdoing⟩ := Option.map_eq_some_iff.1 hd
  have hk := Table.mem_of_lookup hlookup
  obtain rfl : k.client = c := Table.key_of_lookup hlookup
  cases event with
  | accept => exact hdoing ▸ doing?_of_mem h.accept.keys (List.mem_append_left _ hk)
  | receive d bytes =>
    rw [Server.step, receive]
    split
    · exact hd
    · exact (doing?_arrive ..).trans hd
  | hangUp d => exact (doing?_arrive ..).trans hd
  | turn d first =>
    rw [Server.step]
    rcases turn_eq_or s d first with hsame | hturns
    · rw [hsame]
      exact hd
    · have hkeys := hturns.keys ▸ h.keys
      obtain ⟨other, hother, first', result, hturn, heq⟩ := hturns
      rw [heq] at hkeys ⊢
      have hne : Keyed.key k ≠ other.client := fun hkey => by
        obtain rfl := Table.eq_of_key_eq h.keys hk hother hkey
        have hnoTurn : k.turn first' s.broker = none :=
          (turn_waiting_eq_none_iff hdoing).2 ⟨takeAnswer_eq_none_iff.2 hbefore, rfl⟩
        cases hnoTurn.symm.trans hturn
      exact hdoing ▸ doing?_of_mem hkeys (Table.mem_adjust.2 (Or.inr ⟨hk, hne⟩))
  | advance | delayedSweep | expirySweep => exact hd

theorem Reachable.waits (h : Reachable s) (hd : s.doing? c = some (.waiting request (some line)))
    (events : List Event) (hnone : (s.after events).broker.response? request = none) :
    (s.after events).doing? c = some (.waiting request (some line)) := by
  induction events generalizing s with
  | nil => exact hd
  | cons event rest ih =>
    have hnext := h.step event
    have hbefore := (hnext.leads rest).unanswered hnext.sound.broker hnone
    exact ih hnext (h.sound.waits_event hd event hbefore) hnone

/-! ## Behind the end -/

namespace HungUp

theorem event (h : s.HungUp c) (hs : Sound s) (hc : c ∈ s.connections.keys) (event : Event) :
    (s.step event).HungUp c := by
  cases event with
  | accept =>
    intro k hk hclient
    rcases List.mem_append.1 hk with hk | hk
    · exact h k hk hclient
    · rw [List.mem_singleton.1 hk] at hclient
      obtain rfl : s.broker.nextClient = c := hclient
      exact absurd hc hs.nextClient_not_mem
  | receive d bytes =>
    rw [step, receive]
    split
    · exact h
    · exact h.arrive d _
  | hangUp d => exact h.arrive d _
  | turn d first =>
    rw [step]
    rcases turn_eq_or s d first with hsame | ⟨k, hk, first', result, hturn, heq⟩
    · rw [hsame]
      exact h
    · rw [heq]
      intro other hother hclient
      rcases Table.mem_adjust.1 hother with ⟨_, -, -, rfl⟩ | ⟨hmem, -⟩
      · have hturned := turned hturn
        exact (h k hk (hturned.client.symm.trans hclient)).turned hturned
      · exact h other hmem hclient
  | advance | delayedSweep | expirySweep => exact h

theorem after (h : s.HungUp c) (hs : Reachable s) (hc : c ∈ s.connections.keys)
    (events : List Event) : (s.after events).HungUp c := by
  induction events generalizing s with
  | nil => exact h
  | cons event rest ih =>
    exact ih (h.event hs.sound hc event) (hs.step event) (keys_step_subset s event hc)

end HungUp

/-- The connection of a client is closed, or waits behind a line for an answer that has not come. -/
def Rests (s : Server) (c : ClientId) : Prop :=
  s.doing? c = some .closed ∨ ∃ request line,
    s.doing? c = some (.waiting request (some line)) ∧ s.broker.response? request = none

/-- A connection whose stream has ended rests when it can make no turn. -/
theorem Reachable.rests (h : Reachable s) (hc : c ∈ s.connections.keys) (events : List Event)
    (hstill : ((s.hangUp c).after events).Still) : ((s.hangUp c).after events).Rests c := by
  have hnext := h.step (.hangUp c)
  have hkeys := keys_step_subset s (.hangUp c) hc
  have hup := (h.sound.hungUp_hangUp c).after hnext hkeys events
  obtain ⟨k, hk, rfl⟩ := List.mem_map.1 (keys_after_subset (s.step (.hangUp c)) events hkeys)
  have hdoing := doing?_of_mem (hnext.after events).sound.keys hk
  refine ((hup k hk rfl).rests (hstill k hk .answer)).imp (fun hclosed => ?_) ?_
  · exact hdoing.trans (congrArg some hclosed)
  · rintro ⟨request, line, hwaiting, hnone⟩
    exact ⟨request, line, hdoing.trans (congrArg some hwaiting), hnone⟩

/-! ## What comes of it -/

/-- The connection of a client is closed for good, and from `s` on no job is held by the client or
given to it as an answer. -/
structure Ends (s s' : Server) (c : ClientId) : Prop where
  closed : ∀ events, (s'.after events).doing? c = some .closed
  gone : ∀ events, (s'.after events).broker.isConnected c = false
  empty : ∀ events, ∀ job ∈ (s'.after events).broker.engine.jobs, job.isHeldBy c = false
  silent : ∀ events, ∃ fresh, (s'.after events).broker.engine.deliveries =
    s.broker.engine.deliveries ++ fresh ∧ ∀ d ∈ fresh,
      ∀ q ∈ (s'.after events).broker.engine.requests, q.id = d.request → q.client ≠ c

namespace Reachable

/-- At its next turn the connection disconnects its client. -/
theorem broker_hangUp (h : Reachable s) (hk : k ∈ s.connections)
    (hd : k.doing = .waiting request none) (first : Branch)
    (hstill : k.turn first s.broker = none) :
    ((s.hangUp k.client).turn k.client first).broker =
      s.broker.step (.disconnect k.client) := by
  have ha := h.sound.attached k hk
  obtain ⟨k', hclient, hturn⟩ := turn_hangUp ha hd hstill
  have hcon : s.broker.isConnected k.client = true := ha.connected.trans (by rw [hd]; rfl)
  have hdisconnect : s.broker.step (.disconnect k.client) = s.broker.disconnect k.client :=
    if_pos hcon
  have hk' := (h.sound.mem_arrive hk (.bytes [])).2 (Or.inl rfl)
  rw [hangUp, turn_of_mem (h.sound.arrive k.client []).keys hk' hturn, hdisconnect, ← hclient]
  rfl

theorem ends (h : Reachable s) (hk : k ∈ s.connections) (hd : k.doing = .waiting request none)
    (first : Branch) (hstill : k.turn first s.broker = none) :
    Ends s ((s.hangUp k.client).turn k.client first) k.client := by
  have ha := h.sound.attached k hk
  have hb := h.sound.broker
  have hcon : s.broker.isConnected k.client = true := ha.connected.trans (by rw [hd]; rfl)
  have hnext : Reachable ((s.hangUp k.client).turn k.client first) :=
    (h.step (.hangUp k.client)).step (.turn k.client first)
  have htold (events : List Event) : ∃ told,
      (((s.hangUp k.client).turn k.client first).after events).broker =
        s.broker.after (.disconnect k.client :: told) := by
    obtain ⟨told, heq, -⟩ := hnext.leads events
    rw [h.broker_hangUp hk hd first hstill] at heq
    exact ⟨told, heq⟩
  have hgone (events : List Event) :
      (((s.hangUp k.client).turn k.client first).after events).broker.isConnected k.client =
        false := by
    obtain ⟨told, heq⟩ := htold events
    rw [heq]
    refine (hb.step _).gone_after ((hb.progress _).clients k.client ha.known).1 ?_ told
    exact (hb.isConnected_step _ ha.known).trans (by simp [leaves])
  obtain ⟨-, hempty, hsilent⟩ := hb.leaves_nothing hcon
  refine ⟨fun events => ?_, hgone, fun events => ?_, fun events => ?_⟩
  · have hkeys : k.client ∈
        (((s.hangUp k.client).turn k.client first).after events).connections.keys :=
      keys_after_subset s (.hangUp k.client :: .turn k.client first :: events)
        (List.mem_map_of_mem hk)
    exact (hnext.after events).sound.doing?_of_gone hkeys (hgone events)
  · obtain ⟨told, heq⟩ := htold events
    rw [heq]
    exact hempty told
  · obtain ⟨told, heq⟩ := htold events
    rw [heq]
    exact hsilent told

/-- If a connection waits and has nothing to read, its next turn after the end of its stream ends it
just if no line is held back. If one is, it makes no turn until the request is answered. -/
theorem hangUp_ends_iff (h : Reachable s) (hk : k ∈ s.connections)
    (hd : k.doing = .waiting request held) (hstill : ∀ first, k.turn first s.broker = none) :
    (∀ first, Ends s ((s.hangUp k.client).turn k.client first) k.client ↔ held = none) ∧
    (∀ line, held = some line → ∀ events,
      let later := (s.hangUp k.client).after events
      later.broker.response? request = none →
        later.doing? k.client = some (.waiting request (some line)) ∧
          later.broker.isConnected k.client = true) ∧
    ∀ events, ((s.hangUp k.client).after events).Still →
      ((s.hangUp k.client).after events).Rests k.client := by
  have hc : k.client ∈ s.connections.keys := List.mem_map_of_mem hk
  cases held with
  | none => exact ⟨fun first => ⟨fun _ => rfl, fun _ => h.ends hk hd first (hstill first)⟩, nofun,
      h.rests hc⟩
  | some line =>
    have hdoing := hd ▸ doing?_of_mem h.sound.keys hk
    have hnone := takeAnswer_eq_none_iff.1 ((turn_waiting_eq_none_iff hd).1 (hstill .answer)).1
    have hwaits (events : List Event)
        (hnone : ((s.hangUp k.client).after events).broker.response? request = none) :
        ((s.hangUp k.client).after events).doing? k.client =
          some (.waiting request (some line)) :=
      h.waits hdoing (.hangUp k.client :: events) hnone
    refine ⟨fun first => ⟨fun hends => ?_, nofun⟩, fun _ hline events hnone => ?_, h.rests hc⟩
    · have hself := turn_behind_line (s := s.hangUp k.client) (hwaits [] hnone) hnone first
      have hclosed : (s.hangUp k.client).doing? k.client = some .closed := hself ▸ hends.closed []
      cases (hwaits [] hnone).symm.trans hclosed
    · obtain rfl := Option.some.inj hline
      have hlater := (h.after (.hangUp k.client :: events)).sound
      exact ⟨hwaits events hnone, hlater.isConnected_of_doing? (hwaits events hnone)⟩

end Reachable

end Server

/-- Of two clients that wait for a second and hang up, the second one has sent another request
behind. A job that is put afterwards is given to it all the same, and if none is, it is told after
the second that none has come. -/
example :
    let s := [.accept, .receive 1 (ascii "reserve-with-timeout 1\r\n"), .turn 1 .stream,
      .accept, .receive 2 (ascii "reserve-with-timeout 1\r\nlist-tube-used\r\n"),
      .turn 2 .stream, .turn 2 .stream, .hangUp 1, .hangUp 2, .turn 1 .stream,
      .turn 2 .stream].foldl Server.step (.start {})
    let served := ((s.accept.receive 3 (ascii "put 0 0 60 1\r\nx\r\n")).settle)
    s.doing? 1 = some .closed ∧ s.doing? 2 = some (.waiting 2 (some (ascii "list-tube-used"))) ∧
    served.broker.engine.outcome? 2 = some (.reserved 1) ∧
    (s.run 1000).sent 2 = ascii "TIMED_OUT\r\nUSING default\r\n" := by decide +kernel

end WorkQueue
