import WorkQueue.Connection
import WorkQueue.Proofs.Splitting
import WorkQueue.Yaml.Style

/-!
# Bytes that are dropped

Bytes can be dropped one read after another, or gathered until they can be taken all at once. What
is left is the same (`discard_passes`) : the two calls are done or not alike, they make the same
reads, and once they are done the buffers are equal, whatever mark was on them before. If the bytes
come in by other reads as well, the reads that are left may differ, but what they bring does not,
and calls for lines within the limit cannot tell (`answers_after_discard`).

So a connection that lets a body go by and one that takes it get to the next request at the same
place (`abreast_put`).
-/

namespace WorkQueue

/-- A call that drops bytes has got past the same bytes as one that takes them. -/
structure PassesLike (dropped : CallResult Unit × LineBuffer × List Read)
    (taken : CallResult Bytes × LineBuffer × List Read) : Prop where
  answer : dropped.1 = taken.1.map fun _ => ()
  position : dropped.1.isDone = true → dropped.2 = taken.2

/-- Two readers answer calls alike. -/
def AnswerAlike (reader reader' : LineBuffer × List Read) (calls : List Call) : Prop :=
  (runCalls LineBuffer.call reader.1 reader.2 calls).1 =
    (runCalls LineBuffer.call reader'.1 reader'.2 calls).1

namespace LineBuffer

variable {buffer gathered : LineBuffer} {reads reads' : List Read} {stream : Bytes} {n : Nat}
  {patience : Patience} {c : Call} {calls : List Call}

/-! ## The same reads -/

/-- What one call has dropped so far is what the other has gathered more. -/
theorem discard_passes_gathered : ∀ (dropped : Bytes) (gathered : LineBuffer),
    gathered.bytes = dropped ++ buffer.bytes →
      PassesLike (buffer.discard patience n reads)
        (gathered.readExact patience (dropped.length + n) reads) := by
  have hshort {n : Nat} {dropped : Bytes} {buffer gathered : LineBuffer}
      (h : gathered.bytes = dropped ++ buffer.bytes) :
      dropped.length + n ≤ gathered.bytes.length ↔ n ≤ buffer.bytes.length := by
    rw [h, List.length_append, Nat.add_le_add_iff_left]
  have hmore {n : Nat} {dropped : Bytes} {buffer : LineBuffer} (hlt : ¬n ≤ buffer.bytes.length) :
      dropped.length + n = (dropped ++ buffer.bytes).length + (n - buffer.bytes.length) := by
    rw [List.length_append]
    omega
  fun_induction discard patience n buffer reads with
  | case1 reads n buffer hle =>
    intro dropped gathered h
    have hrest : gathered.bytes.drop (dropped.length + n) = buffer.bytes.drop n := by
      rw [h, List.drop_length_add_append]
    rw [readExact.eq_def, if_pos ((hshort h).2 hle)]
    exact ⟨rfl, fun _ => congrArg (fun bytes => (LineBuffer.mk bytes 0, reads)) hrest.symm⟩
  | case4 n buffer hlt left rest arrived reads hsome ih =>
    intro dropped gathered h
    obtain ⟨b, arrived, rfl⟩ := List.exists_cons_of_ne_nil hsome
    rw [readExact.eq_def, if_neg (mt (hshort h).1 hlt), hmore hlt]
    refine ih _ _ ?_
    have hrest : rest.bytes = [] := bytes_drop_of_lt hlt
    simp only [append, h, hrest, List.nil_append]
  | case6 n buffer hlt left rest reads hpatience ih =>
    subst hpatience
    intro dropped gathered h
    rw [readExact.eq_def, if_neg (mt (hshort h).1 hlt), hmore hlt]
    refine ih _ _ ?_
    rw [h, bytes_drop_of_lt hlt, List.append_nil]
  | case2 n buffer hlt | case3 n buffer hlt | case5 n buffer hlt =>
    intro dropped gathered h
    rw [readExact.eq_def, if_neg (mt (hshort h).1 hlt)]
    exact ⟨rfl, fun h => absurd h Bool.false_ne_true⟩
  | case7 n buffer hlt =>
    subst patience
    intro dropped gathered h
    rw [readExact.eq_def, if_neg (mt (hshort h).1 hlt)]
    exact ⟨rfl, fun h => absurd h Bool.false_ne_true⟩

theorem discard_passes (patience : Patience) (n : Nat) (buffer : LineBuffer)
    (reads : List Read) :
    PassesLike (buffer.discard patience n reads) (buffer.readExact patience n reads) := by
  have hgathered : PassesLike (buffer.discard patience n reads)
      (buffer.readExact patience (([] : Bytes).length + n) reads) :=
    discard_passes_gathered [] buffer rfl
  rwa [List.length_nil, Nat.zero_add] at hgathered

/-! ## Other reads of the same bytes -/

theorem readLine_waits : (buffer.readLine .waits reads).1 ≠ .givenUp := by
  fun_induction readLine .waits buffer reads with
  | case5 _ _ _ _ _ ih => exact ih
  | case7 _ _ _ _ ih => exact ih
  | case8 _ _ _ h => cases h
  | _ => exact fun h => by cases h

theorem readExact_waits : (buffer.readExact .waits n reads).1 ≠ .givenUp := by
  fun_induction readExact .waits n buffer reads with
  | case4 _ _ _ _ _ ih => exact ih
  | case6 _ _ _ _ ih => exact ih
  | case7 _ _ _ h => cases h
  | _ => exact fun h => by cases h

theorem discard_waits : (buffer.discard .waits n reads).1 ≠ .givenUp := by
  intro h
  rw [(discard_passes ..).answer] at h
  cases hanswer : (buffer.readExact .waits n reads).1 with
  | givenUp => exact readExact_waits hanswer
  | _ => simp [hanswer, CallResult.map] at h

theorem call_waits (h : c.patience = .waits) : (buffer.call reads c).1 ≠ .givenUp := by
  have hmap {α β : Type} {f : α → β} {result : CallResult α} (h : result ≠ .givenUp) :
      result.map f ≠ .givenUp := by
    cases result with
    | givenUp => exact absurd rfl h
    | _ => nofun
  cases c with
  | line patience =>
    obtain rfl : patience = .waits := h
    exact hmap readLine_waits
  | exact patience n =>
    obtain rfl : patience = .waits := h
    exact hmap readExact_waits
  | discard patience n =>
    obtain rfl : patience = .waits := h
    exact hmap discard_waits

/-- Calls that wait answer what the stream answers that they are made on. -/
theorem runCalls_waits (hholds : Holds stream buffer.bytes reads)
    (hmark : buffer.Marked ∨ stream = []) (hwaits : ∀ c ∈ calls, c.patience = .waits)
    (hfit : AllFit stream (calls.map (·.ask))) :
    (runCalls call buffer reads calls).1 = wholeAnswers stream (calls.map (·.ask)) := by
  induction calls generalizing buffer reads stream with
  | nil => rfl
  | cons c calls ih =>
    obtain ⟨hwait, hwaits⟩ := List.forall_mem_cons.1 hwaits
    obtain ⟨hfit, hfitLater⟩ := hfit
    obtain ⟨hanswer, hleft⟩ := call_met hholds hmark hfit (call_waits hwait)
    exact congrArg₂ _ hanswer (ih hleft (marked_or_ended hmark hanswer) hwaits hfitLater)

theorem isDone_answer {ask : Ask} (h : ask = .exact n ∨ ask = .discard n) :
    (ask.answer stream).isDone = decide (n ≤ stream.length) := by
  by_cases hle : n ≤ stream.length
  all_goals rcases h with rfl | rfl
  all_goals simp only [Ask.answer, hle, if_true, if_false, decide_true, decide_false]
  all_goals rfl

/-- A number of bytes is met by the stream, whatever mark is on the buffer. -/
theorem count_met (buffer : LineBuffer) (c : Call) (hreads : Delivers reads stream)
    (hline : c.ask ≠ .line) (hwait : c.patience = .waits) :
    (buffer.call reads c).1 = c.ask.answer (buffer.bytes ++ stream) ∧
      Holds ((buffer.bytes ++ stream).drop (c.ask.size (buffer.bytes ++ stream)))
        (buffer.call reads c).2.1.bytes (buffer.call reads c).2.2 := by
  have hplain : withoutMark (buffer.call reads c) = PlainBuffer.call buffer.bytes reads c :=
    call_plain fun _ hc => absurd (congrArg Call.ask hc) hline
  have hmet : (PlainBuffer.call buffer.bytes reads c).1 ≠ .givenUp :=
    hplain ▸ call_waits hwait
  have hsettles : Settles (buffer.bytes ++ stream) c (withoutMark (buffer.call reads c)) :=
    hplain ▸ PlainBuffer.settles_call hreads (absurd · hmet) fun _ h => absurd h hline
  cases hsettles with
  | givenUp hpatience => cases hwait.symm.trans hpatience
  | met hanswer hleft => exact ⟨hanswer, hleft⟩

/-- However the bytes come in, dropping them and taking them are done or not alike, and nothing that
is asked for later tells which of the two it was. -/
theorem answers_after_discard (hreads : Delivers reads stream) (hreads' : Delivers reads' stream)
    (n : Nat) : let dropped := buffer.discard .waits n reads
    let taken := buffer.readExact .waits n reads'
    dropped.1.isDone = taken.1.isDone ∧ (dropped.1.isDone = true → ∀ calls,
      (∀ c ∈ calls, c.patience = .waits) →
      AllFit ((buffer.bytes ++ stream).drop n) (calls.map (·.ask)) →
      AnswerAlike dropped.2 taken.2 calls) := by
  intro dropped taken
  obtain ⟨hdropped, hleft⟩ := count_met buffer (.discard .waits n) hreads nofun rfl
  obtain ⟨htaken, hleft'⟩ := count_met buffer (.exact .waits n) hreads' nofun rfl
  have hdone : dropped.1.isDone = decide (n ≤ (buffer.bytes ++ stream).length) :=
    (isDone_map _ _).symm.trans ((congrArg CallResult.isDone hdropped).trans
      (isDone_answer (Or.inr rfl)))
  have hdone' : taken.1.isDone = decide (n ≤ (buffer.bytes ++ stream).length) :=
    (isDone_map _ _).symm.trans ((congrArg CallResult.isDone htaken).trans
      (isDone_answer (Or.inl rfl)))
  refine ⟨hdone.trans hdone'.symm, fun h calls hwaits hfit => ?_⟩
  have hle : n ≤ (buffer.bytes ++ stream).length := of_decide_eq_true (hdone.symm.trans h)
  have hmark : dropped.2.1.Marked := by
    have hdiscard : dropped.1.isDone = true ∧ _ ∨ _ := discard_marked_or_empty
    rcases hdiscard with ⟨-, hmark⟩ | ⟨hbroken, -⟩
    · exact hmark
    · cases h.symm.trans hbroken
  have hmark' : taken.2.1.Marked :=
    marked_readExact_of_isDone (hdone'.trans (decide_eq_true hle))
  simp only [Call.ask, Ask.size, Nat.min_eq_left hle, if_pos hle] at hleft hleft'
  exact (runCalls_waits hleft (Or.inl hmark) hwaits hfit).trans
    (runCalls_waits hleft' (Or.inl hmark') hwaits hfit).symm

end LineBuffer

/-! ## The body of a put -/

section Puts

variable [Yaml.Writer]

namespace Connection

variable {k : Connection} {b b' : Broker} {line : Bytes} {pri delay ttr size : UInt32}

/-- Two turns have got past the same bytes : neither could be made, or both end the connection, or
both come to the next request with the same bytes behind it. -/
inductive Abreast : Option (Connection × Broker) → Option (Connection × Broker) → Prop
  | unmade : Abreast none none
  | closed {k k' : Connection} {b b' : Broker} (h : k.doing = .closed) (h' : k'.doing = .closed) :
    Abreast (some (k, b)) (some (k', b'))
  | next {k k' : Connection} {b b' : Broker} (h : k.doing = .reading none)
    (h' : k'.doing = .reading none) (hbuffer : k.buffer = k'.buffer) (hinbox : k.inbox = k'.inbox) :
    Abreast (some (k, b)) (some (k', b'))

/-- A put is answered at once, whatever its body. -/
theorem handleBody_put (k : Connection) (b : Broker) (pri delay ttr size : UInt32) (n : Nat)
    (block : Bytes) : ∃ response b',
      k.handleBody b (.put pri delay ttr size) n block = (k.respond response, b') := by
  unfold handleBody
  split
  · have hreply : ∃ response b', b.dispatch k.client (.put pri delay ttr size)
        (some (block.take n)) = (.now response, b') := by
      simp only [Broker.dispatch, Broker.perform, Broker.put]
      split <;> exact ⟨_, _, rfl⟩
    obtain ⟨response, b', hreply⟩ := hreply
    exact ⟨response, b', by rw [dispatch, hreply]⟩
  · exact ⟨_, _, rfl⟩

theorem abreast_handled {k' : Connection} (hbuffer : k.buffer = k'.buffer)
    (hinbox : k.inbox = k'.inbox) (response : Response) (n : Nat) (block : Bytes) :
    Abreast (some (k.respond response, b))
      (some (k'.handleBody b' (.put pri delay ttr size) n block)) := by
  obtain ⟨_, _, hbody⟩ := k'.handleBody_put b' pri delay ttr size n block
  rw [hbody]
  exact .next rfl rfl hbuffer hinbox

/-- A body that has to go by, and one that has to be taken. -/
theorem abreast_body (k : Connection) (b b' : Broker) (first first' : Branch)
    (pri delay ttr size : UInt32) (n : Nat) :
    Abreast (Connection.turn { k with doing := .skipping n } first b)
      (Connection.turn { k with doing := .receiving (.put pri delay ttr size) n } first' b') := by
  obtain ⟨hanswer, hposition⟩ := LineBuffer.discard_passes .givesUp (n + 2) k.buffer k.reads
  simp only [turn, reads] at hanswer hposition ⊢
  cases htaken : (k.buffer.readExact .givesUp (n + 2) (k.inbox ++ [.notReady])).1 with
  | done block =>
    simp only [htaken, CallResult.map] at hanswer
    have hleft := hposition (hanswer ▸ rfl)
    simp only [hanswer]
    exact abreast_handled (congrArg Prod.fst hleft)
      (congrArg (fun left => left.2.dropLast) hleft) _ n block
  | ended | failure | lineTooLong =>
    simp only [hanswer, htaken, CallResult.map]
    exact .closed rfl rfl
  | givenUp =>
    simp only [hanswer, htaken, CallResult.map]
    exact .unmade

/-- A put that is too big for one broker and not for another. -/
theorem abreast_put (k : Connection) (first first' : Branch)
    (hparse : Command.parse line = .ok (.put pri delay ttr size))
    (hbig : b.config.maxJobSize < size.toNat) (hfits : size.toNat ≤ b'.config.maxJobSize) :
    Abreast ((k.handle b line).1.turn first (k.handle b line).2)
      ((k.handle b' line).1.turn first' (k.handle b' line).2) := by
  simp only [handle, hparse, if_pos hbig, if_neg (Nat.not_lt_of_le hfits)]
  exact abreast_body k b b' first first' pri delay ttr size size.toNat

end Connection

namespace LineBuffer

/-- Dropping a number of bytes is done just if taking them is, and leaves the reader in the same
place, whatever its state, and also if the same bytes come in by other reads. So a put that is too
big leaves a connection in the same place as one that is not. -/
theorem discard_like_readExact :
    (∀ patience n buffer reads,
      let dropped := discard patience n buffer reads
      let taken := readExact patience n buffer reads
      dropped.1.isDone = taken.1.isDone ∧ (dropped.1.isDone = true → dropped.2 = taken.2 ∧
        ∀ calls, AnswerAlike dropped.2 taken.2 calls)) ∧
    (∀ n buffer reads reads' stream, Delivers reads stream → Delivers reads' stream →
      let dropped := discard .waits n buffer reads
      let taken := readExact .waits n buffer reads'
      dropped.1.isDone = taken.1.isDone ∧ (dropped.1.isDone = true → ∀ calls,
        (∀ c ∈ calls, c.patience = .waits) →
        AllFit ((buffer.bytes ++ stream).drop n) (calls.map (·.ask)) →
        AnswerAlike dropped.2 taken.2 calls)) ∧
    ∀ (k : Connection) (b b' : Broker) (first first' : Branch) line pri delay ttr size,
      Command.parse line = .ok (.put pri delay ttr size) →
      b.config.maxJobSize < size.toNat → size.toNat ≤ b'.config.maxJobSize →
      Connection.Abreast ((k.handle b line).1.turn first (k.handle b line).2)
        ((k.handle b' line).1.turn first' (k.handle b' line).2) := by
  refine ⟨fun patience n buffer reads => ?_, fun n buffer reads reads' stream hreads hreads' =>
    answers_after_discard hreads hreads' n,
    fun k b b' first first' line pri delay ttr size hparse hbig hfits =>
      k.abreast_put first first' hparse hbig hfits⟩
  obtain ⟨hanswer, hposition⟩ := discard_passes patience n buffer reads
  refine ⟨(congrArg CallResult.isDone hanswer).trans (isDone_map _ _), fun hdone => ?_⟩
  have hsame := hposition hdone
  exact ⟨hsame, fun calls => by rw [AnswerAlike, hsame]⟩

end LineBuffer

end Puts

namespace LineBuffer

/-- What a search for a line has left, with its mark behind a carriage return. -/
def searchedBuffer : LineBuffer :=
  ⟨ascii "ab\r", 2⟩

/-- The bytes to come, in two ways. The next five from the buffer on have a line end in them. -/
def bodyReads : List Read :=
  [.bytes (ascii "\nc"), .notReady, .bytes (ascii "d\r\nef\r\n")]

def bodyReads' : List Read :=
  [.bytes (ascii "\n"), .bytes (ascii "cd\r"), .notReady, .bytes (ascii "\nef\r"),
    .bytes (ascii "\n")]

def bodyCalls : List Call :=
  [.line .waits, .line .waits, .exact .waits 1]

/-- A put of two bytes, and what has arrived behind it. -/
def putLine : Bytes :=
  ascii "put 0 0 60 2"

def putConnection : Connection where
  client := 1
  buffer := ⟨ascii "a", 0⟩
  inbox := [.bytes (ascii "\r\n\r"), .bytes (ascii "\nquit\r\n")]

/-- Bytes with a line end in them are dropped and taken by different reads. -/
theorem discard_like_readExact_cutBody :
    let dropped := discard .waits 5 searchedBuffer bodyReads
    let taken := readExact .waits 5 searchedBuffer bodyReads'
    let small : Broker := { config := { maxJobSize := 1 } }
    taken.1 = .done (ascii "ab\r\nc") ∧ AnswerAlike dropped.2 taken.2 bodyCalls ∧
    (runCalls call taken.2.1 taken.2.2 bodyCalls).1 =
      [.done (some (ascii "d")), .done (some (ascii "ef")), .ended] ∧
    Connection.Abreast
      ((putConnection.handle small putLine).1.turn .answer (putConnection.handle small putLine).2)
      ((putConnection.handle {} putLine).1.turn .stream (putConnection.handle {} putLine).2) := by
  intro dropped taken small
  obtain ⟨-, hsplit, hput⟩ := discard_like_readExact
  have hreads : Delivers bodyReads (ascii "\ncd\r\nef\r\n") :=
    .cons (by decide) (.notReady (.cons (by decide) .nil))
  have hreads' : Delivers bodyReads' (ascii "\ncd\r\nef\r\n") :=
    .cons (by decide) (.cons (by decide) (.notReady (.cons (by decide) (.cons (by decide) .nil))))
  have hparse : Command.parse putLine = .ok (.put 0 0 60 2) := by rfl
  exact ⟨by decide, (hsplit 5 searchedBuffer _ _ _ hreads hreads').2 (by decide) bodyCalls
    (by decide) (by decide), by decide,
    hput putConnection small {} .answer .stream putLine 0 0 60 2 hparse (by decide) (by decide)⟩

end LineBuffer

end WorkQueue
