import WorkQueue.Proofs.Framing
import WorkQueue.Proofs.Messages
import WorkQueue.Proofs.Settling

/-!
# The turns of a connection

At each moment a connection has sent the answers to the first requests of its stream, the bytes to
come included, and has the next request in hand (`Doing.Reached`). Whatever turn it makes, it has
then, too (`Connection.Follows.turn`). A connection that can make no turn has sent the replies to
all that has arrived (`Connection.Follows.atRest`).

Only the end of the stream can change this, and only while a connection waits : the connection may
see the end before it sees an answer that is there, and it closes without sending the answer
(`CutShort`).
-/

namespace WorkQueue

open Yaml (Writer)

variable {α : Type} {bytes stream toCome line : Bytes} {gone : Bool} {n : Nat}

/-- A line that is held back stands before what is behind it. -/
def restore (held : Option Bytes) (stream : Bytes) : Bytes :=
  match held with
  | some line => line ++ crlf ++ stream
  | none => stream

/-- The first requests of a stream are answered. Of the next one, a connection has in hand what is
not in the rest. -/
inductive Doing.Reached (c : ClientId) (stream : Bytes) (b₀ : Broker) (responses : List Response)
    (rest : Bytes) : Doing → Broker → Prop
  | reading {held : Option Bytes} {b : Broker} (hheld : ∀ line ∈ held, IsLine line)
      (h : Answered c stream b₀ responses (restore held rest) b) :
      Reached c stream b₀ responses rest (.reading held) b
  | receiving {line : Bytes} {pri delay ttr size : UInt32} {b : Broker} (hline : IsLine line)
      (hparse : Command.parse line = .ok (.put pri delay ttr size))
      (hfits : ¬b.config.maxJobSize < size.toNat)
      (h : Answered c stream b₀ responses (line ++ crlf ++ rest) b) :
      Reached c stream b₀ responses rest (.receiving (.put pri delay ttr size) size.toNat) b
  | skipping {line : Bytes} {pri delay ttr size : UInt32} {b : Broker} (hline : IsLine line)
      (hparse : Command.parse line = .ok (.put pri delay ttr size))
      (hbig : b.config.maxJobSize < size.toNat)
      (h : Answered c stream b₀ responses (line ++ crlf ++ rest) b) :
      Reached c stream b₀ responses rest (.skipping size.toNat) b
  | waiting {request : RequestId} {held : Option Bytes} {piece : Piece} {left : Bytes}
      {before b : Broker} (hheld : ∀ line ∈ held, IsLine line)
      (hfirst : Piece.first? left = some (piece, restore held rest))
      (hanswer : piece.answer before c = (.later request, b))
      (h : Answered c stream b₀ responses left before) :
      Reached c stream b₀ responses rest (.waiting request held) b

namespace Connection

variable {k : Connection}

/-! ## What has arrived -/

/-- The read behind all bytes, once the client has hung up. -/
def ending (gone : Bool) : List Read :=
  if gone then [.bytes []] else []

/-- What a call comes to that has not got what it was made for. -/
def atEnd (gone : Bool) : CallResult α :=
  if gone then .ended else .givenUp

/-- The bytes that have arrived and that no request has taken, in the buffer and in the inbox. -/
structure Unread (k : Connection) (bytes : Bytes) (gone : Bool) : Prop where
  marked : k.buffer.Marked
  inbox : ∃ later, Brings (ending gone) k.inbox later ∧ k.buffer.bytes ++ later = bytes

/-- A connection has read on. -/
structure ReadsOn (k k' : Connection) (left : Bytes) (gone : Bool) : Prop where
  client : k'.client = k.client
  doing : k'.doing = k.doing
  sent : k'.sent = k.sent
  unread : k'.Unread left gone

/-- A call that is done leaves the bytes behind its own. -/
theorem readsOn_after {result : CallResult α × LineBuffer × List Read} {got : α}
    (hmarked : result.2.1.Marked)
    (hgets : Gets (ending gone ++ [.notReady]) (withoutMark result) got bytes) :
    k.ReadsOn (k.after result) bytes gone := by
  obtain ⟨later, hlater, hbytes⟩ := hgets.left
  exact ⟨rfl, rfl, rfl, hmarked, later, hlater.dropLast, hbytes⟩

section Calls

variable (h : k.Unread bytes gone)

include h

theorem readLine_found (hfirst : findCrlf? bytes = some n) (hn : n + 2 ≤ lineLimit) :
    (k.buffer.readLine .givesUp k.reads).1 = .done (bytes.take n) ∧
      k.ReadsOn (k.after (k.buffer.readLine .givesUp k.reads)) (bytes.drop (n + 2)) gone := by
  obtain ⟨later, hlater, rfl⟩ := h.inbox
  have hgets : Gets _ (PlainBuffer.readLine .givesUp k.buffer.bytes k.reads) _ _ :=
    PlainBuffer.readLine_gets hlater.append hfirst hn
  rw [← h.marked.intact.readLine_plain] at hgets
  exact ⟨hgets.answer, readsOn_after h.marked.readLine hgets⟩

theorem readLine_missing (hnone : findCrlf? bytes = none) (hlen : bytes.length ≤ lineLimit) :
    (k.buffer.readLine .givesUp k.reads).1 = atEnd gone := by
  obtain ⟨later, hlater, rfl⟩ := h.inbox
  have hplain : PlainBuffer.readLine .givesUp k.buffer.bytes k.reads = _ :=
    PlainBuffer.readLine_unfinished hlater.append hnone hlen
  rw [← h.marked.intact.readLine_plain] at hplain
  refine (congrArg Prod.fst hplain).trans ?_
  rw [PlainBuffer.readLine.eq_def, hnone]
  cases gone <;> exact congrArg Prod.fst (if_neg (Nat.not_lt_of_le hlen))

theorem readExact_found (hn : n ≤ bytes.length) :
    (k.buffer.readExact .givesUp n k.reads).1 = .done (bytes.take n) ∧
      k.ReadsOn (k.after (k.buffer.readExact .givesUp n k.reads)) (bytes.drop n) gone := by
  obtain ⟨later, hlater, rfl⟩ := h.inbox
  have hgets : Gets _ (PlainBuffer.readExact .givesUp n k.buffer.bytes k.reads) _ _ :=
    PlainBuffer.readExact_gets hlater.append hn
  rw [← LineBuffer.readExact_plain] at hgets
  exact ⟨hgets.answer, readsOn_after h.marked.readExact hgets⟩

theorem readExact_missing (hn : ¬n ≤ bytes.length) :
    (k.buffer.readExact .givesUp n k.reads).1 = atEnd gone := by
  obtain ⟨later, hlater, rfl⟩ := h.inbox
  have hplain : PlainBuffer.readExact .givesUp n k.buffer.bytes k.reads = _ :=
    PlainBuffer.readExact_unfinished hlater.append hn
  rw [← LineBuffer.readExact_plain] at hplain
  refine (congrArg Prod.fst hplain).trans ?_
  rw [PlainBuffer.readExact.eq_def, if_neg hn]
  cases gone <;> rfl

theorem discard_found (hn : n ≤ bytes.length) :
    (k.buffer.discard .givesUp n k.reads).1 = .done () ∧
      k.ReadsOn (k.after (k.buffer.discard .givesUp n k.reads)) (bytes.drop n) gone := by
  obtain ⟨later, hlater, rfl⟩ := h.inbox
  have hgets : Gets _ (PlainBuffer.discard .givesUp n k.buffer.bytes k.reads) _ _ :=
    PlainBuffer.discard_gets hlater.append hn
  rw [← LineBuffer.discard_plain] at hgets
  refine ⟨hgets.answer, readsOn_after ?_ hgets⟩
  rcases LineBuffer.discard_marked_or_empty with ⟨-, hmarked⟩ | ⟨hbroken, -⟩
  · exact hmarked
  · have hdone := congrArg CallResult.isDone hgets.answer
    exact absurd (hbroken.symm.trans hdone) nofun

theorem discard_missing (hn : ¬n ≤ bytes.length) :
    (k.buffer.discard .givesUp n k.reads).1 = atEnd gone := by
  obtain ⟨later, hlater, rfl⟩ := h.inbox
  have hplain : PlainBuffer.discard .givesUp n k.buffer.bytes k.reads = _ :=
    PlainBuffer.discard_unfinished hlater.append hn
  rw [← LineBuffer.discard_plain] at hplain
  refine (congrArg Prod.fst hplain).trans ?_
  rw [PlainBuffer.discard.eq_def, if_neg hn]
  cases gone <;> rfl

end Calls

end Connection

/-! ## Turns -/

variable [Writer]

/-- The connection has been closed while an answer to a reservation was there. Of the replies to
the first requests of the stream, this is the last one, and only those before it have been sent. -/
def CutShort (c : ClientId) (stream : Bytes) (b₀ : Broker) (sent : Bytes) (b : Broker) : Prop :=
  ∃ n responses response request last,
    transcriptUpTo c n stream b₀ = (responses ++ [response], last) ∧
    last.response? request = some response ∧ sent = responses.flatMap Response.wire ∧
    b = last.disconnect c

/-- Then not all replies have been sent. -/
theorem CutShort.sent_ne {c : ClientId} {b₀ b : Broker} {sent : Bytes}
    (h : CutShort c stream b₀ sent b) :
    sent ≠ (transcript c stream b₀).1.flatMap Response.wire := by
  obtain ⟨n, responses, response, request, last, hreplies, -, rfl, -⟩ := h
  obtain ⟨rest, hall⟩ := transcriptUpTo_prefix_transcript c n stream b₀
  have hwire : 0 < response.wire.length := List.length_pos_iff.2 response.message.wire_ne_nil
  intro heq
  have hlen := congrArg List.length heq
  rw [← hall, hreplies] at hlen
  simp only [List.flatMap_append, List.flatMap_singleton, List.length_append] at hlen
  omega

namespace Connection

variable {k : Connection} {b b₀ : Broker}

/-- A connection is on its way to have answered its stream, or has answered it and is closed, or it
has been closed before. -/
inductive Follows (c : ClientId) (stream : Bytes) (b₀ : Broker) (gone : Bool) (toCome : Bytes) :
    Connection → Broker → Prop
  | onTheWay {k : Connection} {b : Broker} {bytes : Bytes} {responses : List Response}
      (unread : k.Unread bytes gone) (client : k.client = c)
      (sent : k.sent = responses.flatMap Response.wire)
      (reached : k.doing.Reached c stream b₀ responses (bytes ++ toCome) b) :
      Follows c stream b₀ gone toCome k b
  | closed {k : Connection} {b : Broker} {responses : List Response} (client : k.client = c)
      (isClosed : k.doing = .closed) (sent : k.sent = responses.flatMap Response.wire)
      (completes : transcript c stream b₀ = (responses, b)) :
      Follows c stream b₀ gone toCome k (b.disconnect c)
  | cutShort {k : Connection} {b : Broker} {responses : List Response} {response : Response}
      {request : RequestId} {left : Bytes} (hasGone : gone = true) (client : k.client = c)
      (isClosed : k.doing = .closed) (sent : k.sent = responses.flatMap Response.wire)
      (answered : Answered c stream b₀ (responses ++ [response]) left b)
      (hresponse : b.response? request = some response) :
      Follows c stream b₀ gone toCome k (b.disconnect c)

section Follows

variable {c : ClientId} {responses : List Response}

theorem sent_send (hsent : k.sent = responses.flatMap Response.wire) (response : Response) :
    (k.send response).sent = (responses ++ [response]).flatMap Response.wire := by
  rw [send, hsent, List.flatMap_append, List.flatMap_singleton]

theorem follows_close (hc : k.client = c) (hsent : k.sent = responses.flatMap Response.wire)
    (hdone : transcript c stream b₀ = (responses, b)) :
    Follows c stream b₀ gone toCome (k.close b).1 (k.close b).2 := by
  subst hc
  exact .closed rfl rfl hsent hdone

section Unread

variable (h : k.Unread bytes gone) (hc : k.client = c)
  (hsent : k.sent = responses.flatMap Response.wire)

include h hc hsent

variable {piece : Piece} {left : Bytes} {before : Broker}

theorem follows_respond {response : Response} (hleft : Answered c stream b₀ responses left before)
    (hfirst : Piece.first? left = some (piece, bytes ++ toCome))
    (hanswer : piece.answer before c = (.now response, b)) :
    Follows c stream b₀ gone toCome (k.respond response) b :=
  .onTheWay ⟨h.marked, h.inbox⟩ hc (sent_send hsent response)
    (.reading nofun (hleft.concat hfirst hanswer rfl))

theorem follows_dispatch {command : Command} {body : Option Bytes}
    (hleft : Answered c stream b₀ responses left before)
    (hfirst : Piece.first? left = some (piece, bytes ++ toCome))
    (hanswer : piece.answer before c = before.dispatch c command body) :
    Follows c stream b₀ gone toCome (k.dispatch before command body).1
      (k.dispatch before command body).2 := by
  subst hc
  unfold dispatch
  cases hresult : before.dispatch k.client command body with
  | mk reply b' =>
    rw [hresult] at hanswer
    cases reply with
    | now response => exact follows_respond h rfl hsent hleft hfirst hanswer
    | later request =>
      exact .onTheWay ⟨h.marked, h.inbox⟩ rfl hsent (.waiting nofun hfirst hanswer hleft)
    | close =>
      exact follows_close rfl hsent (hleft.transcript_of_unanswered hfirst hanswer rfl)

theorem follows_handle (hline : IsLine line)
    (hleft : Answered c stream b₀ responses (line ++ crlf ++ (bytes ++ toCome)) b) :
    Follows c stream b₀ gone toCome (k.handle b line).1 (k.handle b line).2 := by
  have hfirst := @Piece.first?_line _ (bytes ++ toCome) hline
  unfold handle
  cases hparse : Command.parse line with
  | error error =>
    simp only [hparse] at hfirst
    refine follows_respond h hc hsent hleft hfirst ?_
    simp only [Piece.answer, hparse]
  | ok command =>
    cases command with
    | put pri delay ttr size =>
      by_cases hbig : b.config.maxJobSize < size.toNat
      · simp only [if_pos hbig]
        exact .onTheWay ⟨h.marked, h.inbox⟩ hc hsent (.skipping hline hparse hbig hleft)
      · simp only [if_neg hbig]
        exact .onTheWay ⟨h.marked, h.inbox⟩ hc hsent (.receiving hline hparse hbig hleft)
    | _ =>
      simp only [hparse] at hfirst
      refine follows_dispatch h hc hsent hleft hfirst ?_
      simp only [Piece.answer, hparse]

theorem follows_handleBody {command : Command} {size : Nat} {block : Bytes}
    (hleft : Answered c stream b₀ responses left b) (hfits : ¬b.config.maxJobSize < size)
    (hfirst : Piece.first? left = some (.withBody command size block, bytes ++ toCome)) :
    Follows c stream b₀ gone toCome (k.handleBody b command size block).1
      (k.handleBody b command size block).2 := by
  unfold handleBody
  split
  · next hend =>
    refine follows_dispatch h hc hsent hleft hfirst ?_
    rw [Piece.answer, if_neg hfits, if_pos hend]
  · next hend =>
    refine follows_respond h hc hsent hleft hfirst ?_
    rw [Piece.answer, if_neg hfits, if_neg hend]

end Unread

/-! ### Reading -/

/-- A connection that reads a line finds it, or the end of its stream. -/
theorem readLine_eq_some (h : k.Unread bytes gone) (hlines : ShortLines (bytes ++ toCome))
    {go : Connection → Bytes → Connection × Broker} {result : Connection × Broker}
    (hturn : k.readLine b go = some result) :
    (∃ n k', findCrlf? bytes = some n ∧ k.ReadsOn k' (bytes.drop (n + 2)) gone ∧
      result = go k' (bytes.take n)) ∨
    findCrlf? bytes = none ∧ gone = true ∧
      ∃ k' : Connection, k'.client = k.client ∧ k'.sent = k.sent ∧ result = k'.close b := by
  unfold readLine at hturn
  cases hfirst : findCrlf? bytes with
  | none =>
    have hmissing := readLine_missing h hfirst (hlines.length_le_lineLimit hfirst)
    simp only [hmissing] at hturn
    cases gone with
    | true =>
      obtain rfl := Option.some.inj hturn
      exact Or.inr ⟨rfl, rfl, k.after _, rfl, rfl, rfl⟩
    | false => cases hturn
  | some n =>
    obtain ⟨hfound, hon⟩ := readLine_found h hfirst
      (hlines.length_le_of_some (findCrlf?_append hfirst))
    simp only [hfound] at hturn
    exact Or.inl ⟨n, _, rfl, hon, (Option.some.inj hturn).symm⟩

/-- A connection that finds no line goes on wanting it if the stream has not ended. -/
theorem readLine_eq_none (h : k.Unread bytes gone) (hlines : ShortLines (bytes ++ toCome))
    {go : Connection → Bytes → Connection × Broker} (hturn : k.readLine b go = none) :
    findCrlf? bytes = none ∧ gone = false := by
  unfold readLine at hturn
  cases hfirst : findCrlf? bytes with
  | none =>
    have hmissing := readLine_missing h hfirst (hlines.length_le_lineLimit hfirst)
    simp only [hmissing] at hturn
    cases gone with
    | true => cases hturn
    | false => exact ⟨rfl, rfl⟩
  | some n =>
    obtain ⟨hfound, -⟩ := readLine_found h hfirst
      (hlines.length_le_of_some (findCrlf?_append hfirst))
    simp only [hfound] at hturn
    cases hturn

/-! ### Each turn -/

variable {first : Branch} {result : Connection × Broker}

section Doing

variable (h : k.Unread bytes gone) (hc : k.client = c)
  (hsent : k.sent = responses.flatMap Response.wire)

include h hc hsent

theorem follows_reading (hend : gone = true → toCome = []) {held : Option Bytes}
    (hd : k.doing = .reading held)
    (hheld : ∀ line ∈ held, IsLine line) (hlines : ShortLines (restore held (bytes ++ toCome)))
    (hleft : Answered c stream b₀ responses (restore held (bytes ++ toCome)) b)
    (hturn : k.turn first b = some result) :
    Follows c stream b₀ gone toCome result.1 result.2 := by
  unfold turn at hturn
  simp only [hd] at hturn
  cases held with
  | some line =>
    obtain rfl := Option.some.inj hturn
    exact follows_handle h hc hsent (hheld line rfl) hleft
  | none =>
    rcases readLine_eq_some h hlines hturn with
      ⟨n, k', hfirst, hon, rfl⟩ | ⟨hnone, hgone, k', hclient, hsame, rfl⟩
    · refine follows_handle hon.unread (hon.client.trans hc) (hon.sent.trans hsent)
        (isLine_take hfirst) ?_
      rw [← List.append_assoc, take_append_crlf hfirst]
      exact hleft
    · rw [hend hgone, List.append_nil] at hleft
      exact follows_close (hclient.trans hc) (hsame.trans hsent)
        (hleft.transcript_of_incomplete (Piece.first?_eq_none hnone))

theorem follows_receiving (hend : gone = true → toCome = []) {pri delay ttr size : UInt32}
    (hd : k.doing = .receiving (.put pri delay ttr size) size.toNat) (hline : IsLine line)
    (hparse : Command.parse line = .ok (.put pri delay ttr size))
    (hfits : ¬b.config.maxJobSize < size.toNat)
    (hleft : Answered c stream b₀ responses (line ++ crlf ++ (bytes ++ toCome)) b)
    (hturn : k.turn first b = some result) :
    Follows c stream b₀ gone toCome result.1 result.2 := by
  unfold turn at hturn
  simp only [hd] at hturn
  by_cases hle : size.toNat + 2 ≤ bytes.length
  · obtain ⟨hfound, hon⟩ := readExact_found h hle
    simp only [hfound] at hturn
    obtain rfl := Option.some.inj hturn
    exact follows_handleBody hon.unread (hon.client.trans hc) (hon.sent.trans hsent) hleft hfits
      (Piece.first?_put_of_le hline hparse hle toCome)
  · have hmissing := readExact_missing h hle
    simp only [hmissing] at hturn
    cases gone with
    | false => cases hturn
    | true =>
      obtain rfl := Option.some.inj hturn
      rw [hend rfl, List.append_nil] at hleft
      refine follows_close hc hsent (hleft.transcript_of_incomplete ?_)
      rw [Piece.first?_put hline hparse, if_neg hle]

theorem follows_skipping (hend : gone = true → toCome = []) {pri delay ttr size : UInt32}
    (hd : k.doing = .skipping size.toNat) (hline : IsLine line)
    (hparse : Command.parse line = .ok (.put pri delay ttr size))
    (hbig : b.config.maxJobSize < size.toNat)
    (hleft : Answered c stream b₀ responses (line ++ crlf ++ (bytes ++ toCome)) b)
    (hturn : k.turn first b = some result) :
    Follows c stream b₀ gone toCome result.1 result.2 := by
  unfold turn at hturn
  simp only [hd] at hturn
  by_cases hle : size.toNat + 2 ≤ bytes.length
  · obtain ⟨hfound, hon⟩ := discard_found h hle
    simp only [hfound] at hturn
    obtain rfl := Option.some.inj hturn
    refine follows_respond hon.unread (hon.client.trans hc) (hon.sent.trans hsent) hleft
      (Piece.first?_put_of_le hline hparse hle toCome) ?_
    rw [Piece.answer, if_pos hbig]
  · have hmissing := discard_missing h hle
    simp only [hmissing] at hturn
    cases gone with
    | false => cases hturn
    | true =>
      obtain rfl := Option.some.inj hturn
      rw [hend rfl, List.append_nil] at hleft
      refine follows_close hc hsent (hleft.transcript_of_incomplete ?_)
      rw [Piece.first?_put hline hparse, if_neg hle]

theorem follows_waiting {request : RequestId} {held : Option Bytes} {piece : Piece} {left : Bytes}
    {before : Broker} (hd : k.doing = .waiting request held) (hheld : ∀ line ∈ held, IsLine line)
    (hlines : ShortLines (restore held (bytes ++ toCome)))
    (hfirst : Piece.first? left = some (piece, restore held (bytes ++ toCome)))
    (hanswer : piece.answer before c = (.later request, b))
    (hleft : Answered c stream b₀ responses left before) (hturn : k.turn first b = some result) :
    Follows c stream b₀ gone toCome result.1 result.2 := by
  rcases turn_waiting hd hturn with htake | hahead
  · obtain ⟨response, hresponse, rfl⟩ := takeAnswer_eq_some htake
    exact .onTheWay ⟨h.marked, h.inbox⟩ hc (sent_send hsent response)
      (.reading hheld (hleft.concat hfirst hanswer hresponse))
  · cases held with
    | some line => cases hahead
    | none =>
      rw [readAhead_none] at hahead
      rcases readLine_eq_some h hlines hahead with
        ⟨n, k', hnext, hon, rfl⟩ | ⟨hnone, hgone, k', hclient, hsame, rfl⟩
      · refine .onTheWay ⟨hon.unread.marked, hon.unread.inbox⟩ (hon.client.trans hc)
          (hon.sent.trans hsent) (.waiting ?_ ?_ hanswer hleft)
        · exact fun line hline => Option.some.inj hline ▸ isLine_take hnext
        · rw [restore, ← List.append_assoc, take_append_crlf hnext]
          exact hfirst
      · obtain rfl := hclient.trans hc
        cases hresponse : b.response? request with
        | none =>
          exact follows_close rfl (hsame.trans hsent)
            (hleft.transcript_of_unanswered hfirst hanswer hresponse)
        | some response =>
          exact .cutShort hgone rfl rfl (hsame.trans hsent)
            (hleft.concat hfirst hanswer hresponse) hresponse

end Doing

/-- Whatever turn a connection makes, it goes on with its stream. -/
theorem Follows.turn (h : Follows c stream b₀ gone toCome k b) (hlines : ShortLines stream)
    (hend : gone = true → toCome = []) (hturn : k.turn first b = some result) :
    Follows c stream b₀ gone toCome result.1 result.2 := by
  cases h with
  | closed _ isClosed | cutShort _ _ isClosed => exact absurd isClosed (turned hturn).wasOpen
  | @onTheWay _ bytes responses h hc hsent reached =>
    generalize hd : k.doing = d at reached
    cases reached with
    | reading hheld hleft =>
      exact follows_reading h hc hsent hend hd hheld (hlines.left hleft) hleft hturn
    | receiving hline hparse hfits hleft =>
      exact follows_receiving h hc hsent hend hd hline hparse hfits hleft hturn
    | skipping hline hparse hbig hleft =>
      exact follows_skipping h hc hsent hend hd hline hparse hbig hleft hturn
    | waiting hheld hfirst hanswer hleft =>
      exact follows_waiting h hc hsent hd hheld ((hlines.left hleft).behind hfirst) hfirst
        hanswer hleft hturn

/-! ## Where a connection gets to -/

theorem Follows.client (h : Follows c stream b₀ gone toCome k b) : k.client = c := by
  cases h with
  | onTheWay _ hc => exact hc
  | closed hc => exact hc
  | cutShort _ hc => exact hc

/-- What has been sent is the first of the replies. -/
theorem Follows.sent_prefix (h : Follows c stream b₀ gone toCome k b) :
    k.sent <+: (transcript c stream b₀).1.flatMap Response.wire := by
  have hanswered {responses : List Response} {left : Bytes} {last : Broker}
      (h : Answered c stream b₀ responses left last) : responses.flatMap Response.wire <+:
        (transcript c stream b₀).1.flatMap Response.wire := by
    rw [h.transcript_eq, List.flatMap_append]
    exact List.prefix_append ..
  cases h with
  | closed _ _ hsent hdone => exact hsent ▸ hdone ▸ List.prefix_refl _
  | cutShort _ _ _ hsent h =>
    have hprefix := hanswered h
    rw [List.flatMap_append, ← hsent] at hprefix
    exact (List.prefix_append ..).trans hprefix
  | onTheWay _ _ hsent reached =>
    rw [hsent]
    generalize k.doing = d at reached
    cases reached with
    | reading _ h => exact hanswered h
    | receiving _ _ _ h => exact hanswered h
    | skipping _ _ _ h => exact hanswered h
    | waiting _ _ _ h => exact hanswered h

/-- A connection has sent all replies. If its client has hung up, it is closed or holds back a line
behind a reservation. -/
structure Settled (c : ClientId) (all : List Response × Broker) (gone : Bool) (k : Connection)
    (b : Broker) : Prop where
  sent : k.sent = all.1.flatMap Response.wire
  broker : b = if k.doing = .closed then all.2.disconnect c else all.2
  ended : gone = true → k.doing = .closed ∨ ∃ request line, k.doing = .waiting request (some line)

theorem settled_of_open {all : List Response × Broker} (hall : all = (responses, b))
    (hsent : k.sent = responses.flatMap Response.wire) (hdoing : k.doing ≠ .closed)
    (hended : gone = true → ∃ request line, k.doing = .waiting request (some line)) :
    Settled c all gone k b where
  sent := hall ▸ hsent
  broker := by rw [if_neg hdoing, hall]
  ended := fun h => Or.inr (hended h)

/-- A connection that can make no turn has sent all replies, or it has been closed before. -/
theorem Follows.atRest (h : Follows c stream b₀ gone [] k b) (hlines : ShortLines stream)
    (hstill : k.turn first b = none) : Settled c (transcript c stream b₀) gone k b ∨
      gone = true ∧ k.doing = .closed ∧ CutShort c stream b₀ k.sent b := by
  cases h with
  | closed _ hclosed hsent hdone =>
    refine Or.inl ⟨hdone ▸ hsent, ?_, fun _ => Or.inl hclosed⟩
    rw [if_pos hclosed, hdone]
  | cutShort hgone _ hclosed hsent hanswered hresponse =>
    exact Or.inr ⟨hgone, hclosed, _, _, _, _, _, hanswered.transcriptUpTo_eq, hresponse, hsent, rfl⟩
  | @onTheWay _ bytes responses h hc hsent reached =>
    rw [List.append_nil] at reached
    refine Or.inl ?_
    generalize hd : k.doing = d at reached
    cases reached with
    | @reading held _ hheld hleft =>
      have hlines := hlines.left hleft
      unfold Connection.turn at hstill
      simp only [hd] at hstill
      cases held with
      | some line => cases hstill
      | none =>
        have hlines : ShortLines (bytes ++ []) := (List.append_nil bytes).symm ▸ hlines
        obtain ⟨hnone, rfl⟩ := readLine_eq_none h hlines hstill
        exact settled_of_open (hleft.transcript_of_incomplete (Piece.first?_eq_none hnone)) hsent
          (hd ▸ nofun) nofun
    | @receiving line pri delay ttr size _ hline hparse hfits hleft =>
      unfold Connection.turn at hstill
      simp only [hd] at hstill
      by_cases hle : size.toNat + 2 ≤ bytes.length
      · simp only [(readExact_found h hle).1] at hstill
        cases hstill
      · simp only [readExact_missing h hle] at hstill
        cases gone with
        | true => cases hstill
        | false =>
          refine settled_of_open (hleft.transcript_of_incomplete ?_) hsent (hd ▸ nofun) nofun
          rw [Piece.first?_put hline hparse, if_neg hle]
    | @skipping line pri delay ttr size _ hline hparse hbig hleft =>
      unfold Connection.turn at hstill
      simp only [hd] at hstill
      by_cases hle : size.toNat + 2 ≤ bytes.length
      · simp only [(discard_found h hle).1] at hstill
        cases hstill
      · simp only [discard_missing h hle] at hstill
        cases gone with
        | true => cases hstill
        | false =>
          refine settled_of_open (hleft.transcript_of_incomplete ?_) hsent (hd ▸ nofun) nofun
          rw [Piece.first?_put hline hparse, if_neg hle]
    | @waiting request held piece left before _ hheld hfirst hanswer hleft =>
      obtain ⟨hnone, hahead⟩ := (turn_waiting_eq_none_iff hd).1 hstill
      have hall := hleft.transcript_of_unanswered hfirst hanswer (takeAnswer_eq_none_iff.1 hnone)
      refine settled_of_open hall hsent (hd ▸ nofun) fun hgone => ?_
      cases held with
      | some line => exact ⟨request, line, hd⟩
      | none =>
        have hlines : ShortLines (bytes ++ []) := by
          rw [List.append_nil]
          exact (hlines.left hleft).behind hfirst
        rw [readAhead_none] at hahead
        cases hgone.symm.trans (readLine_eq_none h hlines hahead).2

end Follows

end Connection

end WorkQueue
