import WorkQueue.Proofs.Turns
import WorkQueue.Yaml.Style

/-!
# Conversations

A connection gives the replies of the transcript of its stream, in whatever chunks the bytes arrive
and whenever it makes its turns, and no others when its client hangs up
(`Server.answers_transcript`). A reservation that is not answered in its own step is the last
request that is seen to. If a line has come in behind it, the connection is not closed, and neither
is its client disconnected.

A client that hangs up before it has been sent all replies may lose some, but only if the first one
of them is the answer to a reservation : no other reply can be overtaken by the end of the stream.

A request that is refused before it gets to be carried out leaves the broker as it was.
-/

namespace WorkQueue

open Yaml (Writer)

variable {toCome stream : Bytes} {gone : Bool} {n : Nat}

/-! ## One connection of a server -/

namespace Server

variable {c : ClientId} {k : Connection} {s : Server}

/-- What a connection is about to do. -/
def doing? (s : Server) (c : ClientId) : Option Doing :=
  (s.connections.lookup c).map (·.doing)

theorem sent_single (hs : s.connections = [k]) (hc : k.client = c) : s.sent c = k.sent := by
  simp [sent, Table.lookup, Keyed.key, hs, hc]

theorem doing?_single (hs : s.connections = [k]) (hc : k.client = c) :
    s.doing? c = some k.doing := by
  simp [doing?, Table.lookup, Keyed.key, hs, hc]

theorem arrive_single {read : Read} (hs : s.connections = [k]) (hc : k.client = c) :
    s.arrive c read =
      { s with connections := [{ k with inbox := k.inbox ++ [read] }] } := by
  have hadjust (f : Connection → Connection) : s.connections.adjust c f = [f k] :=
    hs ▸ congrArg (fun k' => [k']) (if_pos hc)
  rw [arrive, hadjust]

theorem sent_hangUp_single (hs : s.connections = [k]) (hc : k.client = c) :
    (s.hangUp c).sent c = s.sent c := by
  rw [hangUp, arrive_single hs hc, sent_single hs hc]
  exact sent_single (k := { k with inbox := k.inbox ++ [.bytes []] }) rfl hc

end Server

section Turns

variable [Writer]

namespace Connection

variable {k : Connection} {b b₀ : Broker} {c : ClientId}

theorem follows_start (c : ClientId) (stream : Bytes) (b : Broker) :
    Follows c stream b false stream { client := c } b := by
  have hunread : Unread { client := c } [] false := ⟨Or.inl rfl, [], .nil, rfl⟩
  have hreached : (Doing.reading none).Reached c stream b [] ([] ++ stream) b :=
    .reading nofun (.nil stream b)
  exact .onTheWay hunread rfl rfl hreached

theorem Follows.arrive {chunk : Bytes} (h : Follows c stream b₀ false (chunk ++ toCome) k b)
    (hne : chunk ≠ []) :
    Follows c stream b₀ false toCome { k with inbox := k.inbox ++ [.bytes chunk] } b := by
  cases h with
  | closed hc isClosed hsent hdone => exact .closed hc isClosed hsent hdone
  | cutShort hgone => cases hgone
  | @onTheWay bytes _ _ h hc hsent reached =>
    obtain ⟨later, hlater, hbytes⟩ := h.inbox
    rw [← List.append_assoc] at reached
    refine .onTheWay ⟨h.marked, later ++ chunk, hlater.concat hne, ?_⟩ hc hsent reached
    rw [← List.append_assoc, hbytes]

theorem Follows.hangUp (h : Follows c stream b₀ false [] k b) :
    Follows c stream b₀ true [] { k with inbox := k.inbox ++ [.bytes []] } b := by
  cases h with
  | closed hc isClosed hsent hdone => exact .closed hc isClosed hsent hdone
  | cutShort hgone => cases hgone
  | onTheWay h hc hsent reached =>
    obtain ⟨later, hlater, hbytes⟩ := h.inbox
    exact .onTheWay ⟨h.marked, later, hlater.append, hbytes⟩ hc hsent reached

end Connection

namespace Server

open Connection

variable {c : ClientId} {k : Connection} {b b₀ : Broker} {s s' : Server}

/-- The one connection of a server goes on with its stream. -/
def Follows (c : ClientId) (stream : Bytes) (b₀ : Broker) (gone : Bool) (toCome : Bytes)
    (s : Server) : Prop :=
  ∃ k, s.connections = [k] ∧ Connection.Follows c stream b₀ gone toCome k s.broker

namespace Follows

/-- A turn keeps to the stream and to what has been sent. -/
theorem turns (h : s.Follows c stream b₀ gone toCome) (hlines : ShortLines stream)
    (hend : gone = true → toCome = []) (hturn : s.Turns s') :
    s'.Follows c stream b₀ gone toCome ∧ s.sent c <+: s'.sent c := by
  obtain ⟨k, hs, hfollows⟩ := h
  obtain ⟨other, hother, first, result, hresult, rfl⟩ := hturn
  obtain rfl : other = k := List.mem_singleton.1 (hs ▸ hother)
  have hs' : s.connections.adjust other.client (fun _ => result.1) = [result.1] :=
    hs ▸ congrArg (fun k' => [k']) (if_pos rfl)
  have hfollows' := hfollows.turn hlines hend hresult
  refine ⟨⟨result.1, hs', hfollows'⟩, ?_⟩
  rw [sent_single hs hfollows.client, sent_single hs' hfollows'.client]
  exact (turned hresult).sent

theorem turn (h : s.Follows c stream b₀ gone toCome) (hlines : ShortLines stream)
    (hend : gone = true → toCome = []) (d : ClientId) (first : Branch) :
    (s.turn d first).Follows c stream b₀ gone toCome ∧ s.sent c <+: (s.turn d first).sent c := by
  rcases turn_eq_or s d first with hsame | hturns
  · exact hsame.symm ▸ ⟨h, List.prefix_refl _⟩
  · exact h.turns hlines hend hturns

theorem settle (h : s.Follows c stream b₀ gone toCome) (hlines : ShortLines stream)
    (hend : gone = true → toCome = []) :
    s.settle.Follows c stream b₀ gone toCome ∧ s.sent c <+: s.settle.sent c := by
  refine settle_eq s ▸ steps_keeps
    (P := fun t => t.Follows c stream b₀ gone toCome ∧ s.sent c <+: t.sent c)
    (fun t u ht hturn => ?_) s.work ⟨h, List.prefix_refl _⟩
  obtain ⟨hu, hsent⟩ := ht.1.turns hlines hend hturn
  exact ⟨hu, ht.2.trans hsent⟩

theorem receive {bytes : Bytes} (h : s.Follows c stream b₀ false (bytes ++ toCome)) :
    (s.receive c bytes).Follows c stream b₀ false toCome := by
  cases bytes with
  | nil => exact h
  | cons byte bytes =>
    obtain ⟨k, hs, hfollows⟩ := h
    rw [Server.receive, if_neg nofun, arrive_single hs hfollows.client]
    exact ⟨_, rfl, hfollows.arrive nofun⟩

theorem hangUp (h : s.Follows c stream b₀ false []) :
    (s.hangUp c).Follows c stream b₀ true [] ∧ s.sent c <+: (s.hangUp c).sent c := by
  obtain ⟨k, hs, hfollows⟩ := h
  rw [sent_hangUp_single hs hfollows.client, Server.hangUp, arrive_single hs hfollows.client]
  exact ⟨⟨_, rfl, hfollows.hangUp⟩, List.prefix_refl _⟩

theorem keys (h : s.Follows c stream b₀ gone toCome) : s.connections.keys = [c] := by
  obtain ⟨k, hs, hfollows⟩ := h
  rw [hs]
  exact congrArg (fun d => [d]) hfollows.client

theorem keys_nodup (h : s.Follows c stream b₀ gone toCome) : s.connections.keys.Nodup :=
  h.keys ▸ List.nodup_singleton c

end Follows

/-! ## Runs of one connection -/

/-- Bytes of a client arrive, or its connection makes a turn. -/
inductive Event.Converses (c : ClientId) : Event → Prop
  | receive (bytes : Bytes) : Converses c (.receive c bytes)
  | turn (first : Branch) : Converses c (.turn c first)

/-- The bytes that an event brings. -/
def Event.bytes : Event → Bytes
  | receive _ bytes => bytes
  | _ => []

theorem Follows.after {events : List Event} (hlines : ShortLines stream)
    (h : s.Follows c stream b₀ false (events.flatMap Event.bytes ++ toCome))
    (hevents : ∀ event ∈ events, event.Converses c) :
    (s.after events).Follows c stream b₀ false toCome := by
  induction events generalizing s with
  | nil => exact h
  | cons event rest ih =>
    rw [List.flatMap_cons, List.append_assoc] at h
    refine ih ?_ fun event hevent => hevents event (List.mem_cons_of_mem _ hevent)
    cases hevents event List.mem_cons_self with
    | receive bytes => exact h.receive
    | turn first => exact (h.turn hlines nofun c first).1

/-- A connection makes turns when its stream has ended, and looks first at what it may. -/
def finish (s : Server) (c : ClientId) (firsts : List Branch) : Server :=
  (s.hangUp c).after (firsts.map (.turn c))

theorem Follows.finish (hlines : ShortLines stream) (h : s.Follows c stream b₀ false [])
    (firsts : List Branch) :
    (s.finish c firsts).Follows c stream b₀ true [] ∧ s.sent c <+: (s.finish c firsts).sent c := by
  suffices ∀ t : Server, t.Follows c stream b₀ true [] ∧ s.sent c <+: t.sent c →
      (t.after (firsts.map (.turn c))).Follows c stream b₀ true [] ∧
        s.sent c <+: (t.after (firsts.map (.turn c))).sent c from this _ h.hangUp
  induction firsts with
  | nil => exact fun t ht => ht
  | cons first rest ih =>
    intro t ⟨ht, hsent⟩
    obtain ⟨hu, hmore⟩ := ht.turn hlines (fun _ => rfl) c first
    exact ih _ ⟨hu, hsent.trans hmore⟩

/-! ## What has been sent -/

/-- All replies have been sent. The connection is closed, or holds back a line behind a reservation
and has not seen that its stream has ended. -/
structure Finished (s : Server) (c : ClientId) (all : List Response × Broker) : Prop where
  sent : s.sent c = all.1.flatMap Response.wire
  ended : s.doing? c = some .closed ∧ s.broker = all.2.disconnect c ∨
    (∃ request line, s.doing? c = some (.waiting request (some line))) ∧ s.broker = all.2

namespace Follows

theorem sent_prefix (h : s.Follows c stream b₀ gone toCome) :
    s.sent c <+: (transcript c stream b₀).1.flatMap Response.wire := by
  obtain ⟨k, hs, hfollows⟩ := h
  exact sent_single hs hfollows.client ▸ hfollows.sent_prefix

theorem answered (h : s.Follows c stream b₀ false []) (hlines : ShortLines stream)
    (hstill : s.Still) :
    s.sent c = (transcript c stream b₀).1.flatMap Response.wire ∧
      s.broker = if s.doing? c = some .closed then (transcript c stream b₀).2.disconnect c
        else (transcript c stream b₀).2 := by
  obtain ⟨k, hs, hfollows⟩ := h
  have hturn := hstill k (hs ▸ List.mem_singleton_self k) .answer
  rw [sent_single hs hfollows.client, doing?_single hs hfollows.client]
  rcases hfollows.atRest hlines hturn with hsettled | ⟨hgone, -⟩
  · refine ⟨hsettled.sent, ?_⟩
    simp only [Option.some.injEq]
    exact hsettled.broker
  · cases hgone

theorem finished (h : s.Follows c stream b₀ true []) (hlines : ShortLines stream)
    (hstill : s.Still) : s.Finished c (transcript c stream b₀) ∨
      s.doing? c = some .closed ∧ CutShort c stream b₀ (s.sent c) s.broker := by
  obtain ⟨k, hs, hfollows⟩ := h
  have hturn := hstill k (hs ▸ List.mem_singleton_self k) .answer
  rw [sent_single hs hfollows.client, doing?_single hs hfollows.client]
  rcases hfollows.atRest hlines hturn with hsettled | ⟨-, hclosed, hcut⟩
  · refine Or.inl ⟨(sent_single hs hfollows.client).trans hsettled.sent, ?_⟩
    have hbroker := hsettled.broker
    rw [doing?_single hs hfollows.client]
    rcases hsettled.ended rfl with hclosed | ⟨request, line, hwaiting⟩
    · rw [if_pos hclosed] at hbroker
      exact Or.inl ⟨congrArg some hclosed, hbroker⟩
    · rw [if_neg (hwaiting ▸ nofun)] at hbroker
      exact Or.inr ⟨⟨request, line, congrArg some hwaiting⟩, hbroker⟩
  · exact Or.inr ⟨congrArg some hclosed, hcut⟩

end Follows

end Server

end Turns

/-! ## Refusals -/

/-- The answers to requests that are not carried out. -/
def Notice.refusals : List Notice :=
  [.badFormat, .unknownCommand, .jobTooBig, .expectedCrlf]

/-- A reply that does not bring a refusal, now or later. -/
def Reply.Carried (reply : Reply) : Prop :=
  ∀ b, ∀ notice ∈ Notice.refusals, reply.response? b ≠ some (.notice notice)

section Carried

variable {b : Broker} {response : Response} {notice : Notice}

theorem carried_of_ne (h : ∀ notice ∈ Notice.refusals, response ≠ .notice notice) :
    (Reply.now response).Carried :=
  fun _ notice hmem heq => h notice hmem (Option.some.inj heq)

theorem carried_notice (h : notice ∉ Notice.refusals) : (Reply.now (.notice notice)).Carried :=
  carried_of_ne fun _ hmem heq => h (Response.notice.inj heq ▸ hmem)

theorem carried_notFound : (Reply.now (.notice .notFound)).Carried :=
  carried_notice (by decide)

theorem carried_later (request : RequestId) : (Reply.later request).Carried := by
  intro b notice hmem heq
  obtain ⟨outcome, -, heq⟩ := Option.map_eq_some_iff.1 heq
  cases outcome with
  | reserved id => cases heq
  | _ =>
    cases heq
    revert hmem
    decide

theorem carried_acknowledge {result : Bool × Engine} (h : notice ∉ Notice.refusals) :
    (b.acknowledge notice result).1.Carried := by
  unfold Broker.acknowledge
  dsimp only
  split
  · exact carried_notice h
  · exact carried_notFound

theorem carried_show? (job : Option Job) : (b.show? job).1.Carried := by
  cases job with
  | none => exact carried_notFound
  | some job => exact carried_of_ne nofun

/-- What is carried out is not refused. -/
theorem carried_dispatch (c : ClientId) (command : Command) (body : Option Bytes) :
    (b.dispatch c command body).1.Carried := by
  unfold Broker.dispatch
  generalize b.record command.verb = b
  cases command with
  | put =>
    cases body with
    | none => exact carried_notice (by decide)
    | some body =>
      simp only [Broker.perform, Broker.put]
      split
      · exact carried_of_ne nofun
      · exact carried_notFound
  | reserve => exact carried_later _
  | reserveWithTimeout => exact carried_later _
  | reserveJob =>
    simp only [Broker.perform, Broker.reserveJob]
    split
    · exact carried_of_ne nofun
    · exact carried_notFound
  | delete =>
    simp only [Broker.perform, Broker.delete]
    split
    · exact carried_notice (by decide)
    · exact carried_notFound
  | release => exact carried_acknowledge (by decide)
  | bury => exact carried_acknowledge (by decide)
  | touch => exact carried_acknowledge (by decide)
  | kickJob => exact carried_acknowledge (by decide)
  | peek => exact carried_show? _
  | peekReady => exact carried_show? _
  | peekDelayed => exact carried_show? _
  | peekBuried => exact carried_show? _
  | ignore =>
    simp only [Broker.perform, Broker.ignore]
    split
    · exact carried_notice (by decide)
    · exact carried_of_ne nofun
  | pauseTube =>
    simp only [Broker.perform, Broker.pauseTube]
    split
    · exact carried_notice (by decide)
    · exact carried_notFound
  | kick =>
    simp only [Broker.perform, Broker.kick]
    split
    · exact carried_of_ne nofun
    · exact carried_notFound
  | quit => exact fun _ _ _ => nofun
  | watch => exact carried_of_ne nofun
  | stats => exact carried_of_ne nofun
  | listTubes => exact carried_of_ne nofun
  | useTube => exact carried_of_ne nofun
  | statsJob | statsTube | listTubeUsed | listTubesWatched =>
    simp only [Broker.perform]
    split
    · exact carried_of_ne nofun
    · exact carried_notFound

/-- A request that is refused has changed nothing. -/
theorem Piece.answer_refused {piece : Piece} {c : ClientId} (hmem : notice ∈ Notice.refusals)
    (h : (piece.answer b c).1.response? (piece.answer b c).2 = some (.notice notice)) :
    (piece.answer b c).2 = b := by
  cases piece with
  | line text =>
    simp only [Piece.answer] at h ⊢
    cases hparse : Command.parse text with
    | error error => rfl
    | ok command =>
      rw [hparse] at h
      exact absurd h (carried_dispatch c command none _ notice hmem)
  | withBody command size block =>
    simp only [Piece.answer] at h ⊢
    split at h
    · rw [if_pos ‹_›]
    · rw [if_neg ‹_›]
      split at h
      · exact absurd h (carried_dispatch c command _ _ notice hmem)
      · rw [if_neg ‹_›]

end Carried

/-! ## Whole conversations -/

namespace Server

open Connection

section Conversations

variable [Writer]

theorem follows_accept (b : Broker) (stream : Bytes) :
    (accept { broker := b }).Follows b.nextClient stream b.connect false stream :=
  ⟨_, rfl, follows_start ..⟩

/-- A connection that is opened to a broker gives the replies of the transcript of its stream. In
whatever way the bytes arrive and the turns are made, what has been sent is the first of them, there
are only so many turns to make, and when no more can be made all replies have been sent. There are
no others when the client hangs up. If it hangs up before, the answer to a reservation may be the
first reply that it is not sent. What is refused has changed nothing. -/
theorem answers_transcript (b : Broker) (events : List Event)
    (hevents : ∀ event ∈ events, event.Converses b.nextClient)
    (hlines : ShortLines (events.flatMap Event.bytes)) :
    let c := b.nextClient
    let stream := events.flatMap Event.bytes
    let all := transcript c stream b.connect
    let replies := all.1.flatMap Response.wire
    let s := (accept { broker := b }).after events
    s.sent c <+: replies ∧
    (s.Still → s.sent c = replies ∧
      s.broker = if s.doing? c = some .closed then all.2.disconnect c else all.2) ∧
    (∀ n s', TurnsOn n s s' → n ≤ s.work) ∧
    (∃ turns : List ClientId, s.settle = s.after (turns.map (.turn · .answer)) ∧ s.settle.Still) ∧
    (∀ firsts, let s' := s.finish c firsts
      s'.sent c <+: replies ∧
      (s'.Still → s'.Finished c all ∨
        s'.doing? c = some .closed ∧ CutShort c stream b.connect (s'.sent c) s'.broker) ∧
      (s.sent c = replies → s'.sent c = replies ∧ (s'.Still → s'.Finished c all))) ∧
    (converse { broker := b } stream).1 = replies ∧
    ∀ (piece : Piece) (b : Broker), ∀ notice ∈ Notice.refusals,
      (piece.answer b c).1.response? (piece.answer b c).2 = some (.notice notice) →
        (piece.answer b c).2 = b := by
  intro c stream all replies s
  have hstart : (accept { broker := b }).Follows c stream b.connect false (stream ++ []) := by
    rw [List.append_nil]
    exact follows_accept b stream
  have hs : s.Follows c stream b.connect false [] := hstart.after hlines hevents
  refine ⟨hs.sent_prefix, hs.answered hlines,
    fun n s' hturns => hturns.length_le_work hs.keys_nodup, ?_, fun firsts => ?_, ?_,
    fun piece b notice => Piece.answer_refused⟩
  · obtain ⟨turns, hturns⟩ := settle_eq_after hs.keys_nodup
    exact ⟨turns, hturns, settle_still hs.keys_nodup⟩
  · obtain ⟨hs', hsent⟩ := hs.finish hlines firsts
    have hfinished := hs'.finished hlines
    refine ⟨hs'.sent_prefix, hfinished, fun hall => ?_⟩
    rw [hall] at hsent
    have hall' := hs'.sent_prefix.eq_of_length_le hsent.length_le
    exact ⟨hall', fun hstill => (hfinished hstill).resolve_right fun hcut => hcut.2.sent_ne hall'⟩
  · obtain ⟨ht, -⟩ := hstart.receive.settle hlines nofun
    have hall := (ht.answered hlines (settle_still hstart.receive.keys_nodup)).1
    obtain ⟨hu, hsent⟩ := ht.hangUp
    obtain ⟨hv, hmore⟩ := hu.settle hlines fun _ => rfl
    exact hv.sent_prefix.eq_of_length_le (hall ▸ (hsent.trans hmore).length_le)

end Conversations

/-- Requests that are cut in two anywhere. The first has a request for its body, the second is too
big, the third does not end where it should, the fourth is unknown, and the last but one waits. -/
def cutRequests : List Bytes :=
  [ascii "put 0 0 60 6\r", ascii "\nqu", ascii "it\r\n\r\nput 0 0 60 7\r\n1234", ascii "567\r",
    ascii "\nput 0 0 60 1\r\nabcbogus\r\nres", ascii "erve\r\nreserve\r\nstats\r\n"]

/-- The requests arrive, with turns in between that look at the stream first. -/
def cutEvents : List Event :=
  cutRequests.flatMap fun chunk => .receive 1 chunk :: List.replicate 5 (.turn 1 .stream)

theorem answers_transcript_cutRequests :
    let s := (accept { broker := Broker.start { maxJobSize := 6 } }).after cutEvents
    let replies := ascii ("INSERTED 1\r\nJOB_TOO_BIG\r\nEXPECTED_CRLF\r\nUNKNOWN_COMMAND\r\n" ++
      "RESERVED 1 6\r\nquit\r\n\r\n")
    (∀ event ∈ cutEvents, event.Converses 1) ∧ ShortLines (cutEvents.flatMap Event.bytes) ∧
    s.Still ∧ s.sent 1 = replies ∧ (s.finish 1 [.stream, .answer]).sent 1 = replies := by
  intro s replies
  have hevents : ∀ event ∈ cutEvents, event.Converses 1 := by
    intro event hevent
    obtain ⟨chunk, -, hevent⟩ := List.mem_flatMap.1 hevent
    rcases List.mem_cons.1 hevent with rfl | hevent
    · exact .receive chunk
    · exact List.eq_of_mem_replicate hevent ▸ .turn .stream
  have hlines : ShortLines (cutEvents.flatMap Event.bytes) := by decide +kernel
  have hstill : s.Still := step?_eq_none_iff.1 (by decide +kernel)
  obtain ⟨-, hall, -, -, hfinish, -⟩ :=
    answers_transcript (Broker.start { maxJobSize := 6 }) cutEvents hevents hlines
  have hsent := (hall hstill).1
  have hreplies : s.sent 1 = replies := hsent.trans (by decide +kernel)
  exact ⟨hevents, hlines, hstill, hreplies,
    ((hfinish [.stream, .answer]).2.2 hsent).1.trans (hsent.symm.trans hreplies)⟩

/-- A client hangs up when the answer to its reservation is there. It is sent the answer or not. -/
example :
    let s := (accept { broker := .start {} }).after (.receive 1 (ascii
      "put 0 0 60 1\r\nx\r\nreserve-with-timeout 0\r\n") :: List.replicate 3 (.turn 1 .answer))
    (s.finish 1 [.answer, .answer]).sent 1 = ascii "INSERTED 1\r\nRESERVED 1 1\r\nx\r\n" ∧
      (s.finish 1 [.stream, .answer]).sent 1 = ascii "INSERTED 1\r\n" := by decide +kernel

end Server

end WorkQueue
