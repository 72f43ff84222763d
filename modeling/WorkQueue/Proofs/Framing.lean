import WorkQueue.Connection.Transcript
import WorkQueue.Proofs.LineEnds

/-!
# How a stream is cut

A request ends where its bytes do : at its line end, or two bytes behind its body. Every request is
of two bytes at least, so `transcript` gets to the end of its stream and may be read as a recursion
on what is behind the first request (`transcript_eq`).

The first requests of a stream may be answered and others be left (`Answered`).

The lines that requests start with may be short (`ShortLines`). The blocks between them may be of
any length, and have in them what they will.
-/

namespace WorkQueue

variable {bytes line stream rest : Bytes} {n : Nat} {piece : Piece}

/-! ## Lines -/

/-- Bytes with no line end in them, nor one begun. -/
def IsLine (line : Bytes) : Prop :=
  findCrlf? (line ++ crlf) = some line.length

/-- A line that is found is put back by its line end. -/
theorem take_append_crlf (h : findCrlf? bytes = some n) :
    bytes.take n ++ crlf ++ bytes.drop (n + 2) = bytes := by
  obtain ⟨⟨rest, hrest⟩, -⟩ := findCrlf?_eq_some_iff.1 h
  have hdrop : bytes.drop (n + 2) = rest := by
    rw [← List.drop_drop, ← hrest]
    rfl
  rw [hdrop, List.append_assoc, hrest, List.take_append_drop]

theorem isLine_take (h : findCrlf? bytes = some n) : IsLine (bytes.take n) := by
  obtain ⟨hend, hbefore⟩ := findCrlf?_eq_some_iff.1 h
  have hle := hend.length_le
  have hlen : (bytes.take n).length = n := List.length_take_of_le (by omega)
  have hsplit : bytes = (bytes.take n ++ crlf) ++ bytes.drop (n + 2) := (take_append_crlf h).symm
  have hshort : n + 2 ≤ (bytes.take n ++ crlf).length := by
    rw [List.length_append, hlen]
    exact Nat.le_refl _
  rw [IsLine, hlen, findCrlf?_eq_some_iff]
  rw [hsplit] at hend hbefore
  exact ⟨(lineEndAt_append hshort).1 hend, fun k hk =>
    (lineEndAt_append (by omega)).not.1 (hbefore k hk)⟩

theorem IsLine.findCrlf?_eq (h : IsLine line) :
    findCrlf? (line ++ crlf ++ stream) = some line.length :=
  findCrlf?_append h

/-! ## Requests -/

namespace Piece

/-- A line and what is behind it are cut by what the line says. -/
theorem first?_line (h : IsLine line) :
    first? (line ++ crlf ++ stream) =
      match Command.parse line with
      | .ok (.put pri delay ttr size) =>
        if size.toNat + 2 ≤ stream.length then
          some (withBody (.put pri delay ttr size) size.toNat (stream.take (size.toNat + 2)),
            stream.drop (size.toNat + 2))
        else none
      | _ => some (.line line, stream) := by
  have htake : (line ++ crlf ++ stream).take line.length = line := by
    rw [List.append_assoc, List.take_left]
  have hdrop : (line ++ crlf ++ stream).drop (line.length + 2) = stream :=
    List.drop_left' (by simp [crlf])
  cases hparse : Command.parse line with
  | error error =>
    simp only [first?, h.findCrlf?_eq, Option.bind_some, htake, hdrop, hparse]
  | ok command =>
    cases command <;> simp only [first?, h.findCrlf?_eq, Option.bind_some, htake, hdrop, hparse]

/-- The line of a `put` with its block. -/
theorem first?_put {pri delay ttr size : UInt32} (hline : IsLine line)
    (hparse : Command.parse line = .ok (.put pri delay ttr size)) :
    first? (line ++ crlf ++ rest) = if size.toNat + 2 ≤ rest.length then
      some (.withBody (.put pri delay ttr size) size.toNat (rest.take (size.toNat + 2)),
        rest.drop (size.toNat + 2)) else none := by
  have hfirst := @first?_line _ rest hline
  simpa only [hparse] using hfirst

/-- The block of a `put` stays as it is when more arrives. -/
theorem first?_put_of_le {pri delay ttr size : UInt32} (hline : IsLine line)
    (hparse : Command.parse line = .ok (.put pri delay ttr size))
    (hle : size.toNat + 2 ≤ bytes.length) (more : Bytes) :
    first? (line ++ crlf ++ (bytes ++ more)) =
      some (.withBody (.put pri delay ttr size) size.toNat (bytes.take (size.toNat + 2)),
        bytes.drop (size.toNat + 2) ++ more) := by
  have hall : size.toNat + 2 ≤ (bytes ++ more).length := by
    rw [List.length_append]
    exact Nat.le_add_right_of_le hle
  rw [first?_put hline hparse, if_pos hall, List.take_append_of_le_length hle,
    List.drop_append_of_le_length hle]

theorem first?_eq_none (h : findCrlf? stream = none) : first? stream = none := by
  rw [first?, h]
  rfl

/-- A request takes two bytes of a stream at least. -/
theorem length_of_first? (h : first? stream = some (piece, rest)) :
    rest.length + 2 ≤ stream.length := by
  rw [first?, Option.bind_eq_some_iff] at h
  obtain ⟨n, hn, h⟩ := h
  have hle := (findCrlf?_eq_some_iff.1 hn).1.length_le
  dsimp only at h
  split at h
  · split at h
    · obtain ⟨-, rfl⟩ := Prod.mk.inj (Option.some.inj h)
      simp only [List.length_drop]
      omega
    · cases h
  · obtain ⟨-, rfl⟩ := Prod.mk.inj (Option.some.inj h)
    simp only [List.length_drop]
    omega

end Piece

/-! ## Transcripts -/

/-- What comes of a reply : if it is there at once the requests behind are answered, too. -/
def thereafter (c : ClientId) (response : Option Response) (rest : Bytes) (b : Broker) :
    List Response × Broker :=
  match response with
  | none => ([], b)
  | some response => ((response :: (transcript c rest b).1), (transcript c rest b).2)

/-- As many requests as two bytes each would make are enough. -/
theorem transcriptUpTo_of_le {c : ClientId} {b : Broker} (h : stream.length ≤ n) :
    transcriptUpTo c n stream b = transcript c stream b := by
  suffices ∀ m n : Nat, ∀ (stream : Bytes) (b : Broker), stream.length ≤ m → stream.length ≤ n →
      transcriptUpTo c m stream b = transcriptUpTo c n stream b from
    this n _ stream b h (Nat.le_refl _)
  intro m
  induction m with
  | zero =>
    intro n stream b hm _
    obtain rfl : stream = [] := List.eq_nil_of_length_eq_zero (Nat.le_zero.1 hm)
    cases n <;> rfl
  | succ m ih =>
    intro n stream b hm hn
    cases n with
    | zero =>
      obtain rfl : stream = [] := List.eq_nil_of_length_eq_zero (Nat.le_zero.1 hn)
      rfl
    | succ n =>
      rw [transcriptUpTo, transcriptUpTo]
      cases hfirst : Piece.first? stream with
      | none => rfl
      | some cut =>
        obtain ⟨piece, rest⟩ := cut
        have hlen := Piece.length_of_first? hfirst
        simp only [ih n rest _ (by omega) (by omega)]

/-- The first request is answered, and then those behind it. -/
theorem transcript_eq (c : ClientId) (stream : Bytes) (b : Broker) :
    transcript c stream b =
      match Piece.first? stream with
      | none => ([], b)
      | some (piece, rest) =>
        thereafter c ((piece.answer b c).1.response? (piece.answer b c).2) rest
          (piece.answer b c).2 := by
  rw [← transcriptUpTo_of_le (Nat.le_succ stream.length), transcriptUpTo]
  cases hfirst : Piece.first? stream with
  | none => rfl
  | some cut =>
    obtain ⟨piece, rest⟩ := cut
    have hlen := Piece.length_of_first? hfirst
    simp only [transcriptUpTo_of_le (Nat.le_of_add_right_le hlen)]
    cases (piece.answer b c).1.response? (piece.answer b c).2 <;> rfl

/-- The replies to fewer requests come first. -/
theorem transcriptUpTo_prefix {c : ClientId} {b : Broker} {m n : Nat} (h : m ≤ n) :
    (transcriptUpTo c m stream b).1 <+: (transcriptUpTo c n stream b).1 := by
  induction m generalizing n stream b with
  | zero => exact List.nil_prefix
  | succ m ih =>
    obtain ⟨n, rfl⟩ := Nat.exists_eq_add_one_of_ne_zero (Nat.ne_zero_of_lt h)
    rw [transcriptUpTo, transcriptUpTo]
    cases hfirst : Piece.first? stream with
    | none => exact List.prefix_refl _
    | some cut =>
      dsimp only
      split
      · exact List.prefix_refl _
      · exact (List.prefix_cons_inj _).2 (ih (Nat.le_of_succ_le_succ h))

theorem transcriptUpTo_prefix_transcript (c : ClientId) (n : Nat) (stream : Bytes) (b : Broker) :
    (transcriptUpTo c n stream b).1 <+: (transcript c stream b).1 := by
  rw [← transcriptUpTo_of_le (Nat.le_max_right n stream.length)]
  exact transcriptUpTo_prefix (Nat.le_max_left n stream.length)

/-! ## Requests that are answered -/

/-- The first requests of a stream are answered with these responses, and the rest of the stream is
left to a broker that has come to be as it is by them. -/
inductive Answered (c : ClientId) : Bytes → Broker → List Response → Bytes → Broker → Prop
  | nil (stream : Bytes) (b : Broker) : Answered c stream b [] stream b
  | cons {stream rest left : Bytes} {b b' last : Broker} {piece : Piece} {reply : Reply}
      {response : Response} {responses : List Response}
      (hfirst : Piece.first? stream = some (piece, rest))
      (hanswer : piece.answer b c = (reply, b')) (hresponse : reply.response? b' = some response)
      (h : Answered c rest b' responses left last) :
      Answered c stream b (response :: responses) left last

namespace Answered

variable {c : ClientId} {left : Bytes} {b last b' : Broker} {responses : List Response}
  {reply : Reply}

/-- One more request is answered. -/
theorem concat {response : Response} (h : Answered c stream b responses left last)
    (hfirst : Piece.first? left = some (piece, rest)) (hanswer : piece.answer last c = (reply, b'))
    (hresponse : reply.response? b' = some response) :
    Answered c stream b (responses ++ [response]) rest b' := by
  induction h with
  | nil => exact .cons hfirst hanswer hresponse (.nil _ _)
  | cons hnext hanswer' hresponse' _ ih =>
    exact .cons hnext hanswer' hresponse' (ih hfirst hanswer)

theorem transcript_eq (h : Answered c stream b responses left last) : transcript c stream b =
    (responses ++ (transcript c left last).1, (transcript c left last).2) := by
  induction h with
  | nil => rfl
  | cons hfirst hanswer hresponse _ ih =>
    rw [WorkQueue.transcript_eq, hfirst]
    simp only [hanswer, hresponse, thereafter, ih, List.cons_append]

/-- These are the replies to as many requests. -/
theorem transcriptUpTo_eq (h : Answered c stream b responses left last) :
    transcriptUpTo c responses.length stream b = (responses, last) := by
  induction h with
  | nil => rfl
  | cons hfirst hanswer hresponse _ ih =>
    simp only [List.length_cons, transcriptUpTo, hfirst, hanswer, hresponse, ih]

/-- There is nothing more to answer if the next request is not complete. -/
theorem transcript_of_incomplete (h : Answered c stream b responses left last)
    (hnone : Piece.first? left = none) : transcript c stream b = (responses, last) := by
  rw [h.transcript_eq, WorkQueue.transcript_eq, hnone, List.append_nil]

/-- Nor is there if the next request has no answer. -/
theorem transcript_of_unanswered (h : Answered c stream b responses left last)
    (hfirst : Piece.first? left = some (piece, rest)) (hanswer : piece.answer last c = (reply, b'))
    (hnone : reply.response? b' = none) : transcript c stream b = (responses, b') := by
  rw [h.transcript_eq, WorkQueue.transcript_eq, hfirst]
  simp only [hanswer, hnone, thereafter, List.append_nil]

end Answered

/-! ## Short lines -/

/-- The lines that the requests of a stream start with are within the limit, and so is one that is
not finished at its end. -/
inductive ShortLines : Bytes → Prop
  | unfinished {stream : Bytes} (h : findCrlf? stream = none) (hlen : stream.length ≤ lineLimit) :
      ShortLines stream
  | line {stream : Bytes} {n : Nat} (h : findCrlf? stream = some n) (hlen : n + 2 ≤ lineLimit)
      (hrest : ∀ piece rest, Piece.first? stream = some (piece, rest) → ShortLines rest) :
      ShortLines stream

namespace ShortLines

theorem length_le_of_none (h : ShortLines stream) (hnone : findCrlf? stream = none) :
    stream.length ≤ lineLimit := by
  cases h with
  | unfinished _ hlen => exact hlen
  | line hsome => exact absurd (hnone.symm.trans hsome) nofun

theorem length_le_of_some (h : ShortLines stream) (hsome : findCrlf? stream = some n) :
    n + 2 ≤ lineLimit := by
  cases h with
  | unfinished hnone => exact absurd (hnone.symm.trans hsome) nofun
  | line hsome' hlen =>
    obtain rfl := Option.some.inj (hsome.symm.trans hsome')
    exact hlen

theorem behind (h : ShortLines stream) (hfirst : Piece.first? stream = some (piece, rest)) :
    ShortLines rest := by
  cases h with
  | unfinished hnone =>
    rw [Piece.first?_eq_none hnone] at hfirst
    cases hfirst
  | line _ _ hrest => exact hrest piece rest hfirst

/-- A short line that is not there yet is not too long yet. -/
theorem length_le_lineLimit {toCome : Bytes} (h : ShortLines (bytes ++ toCome))
    (hnone : findCrlf? bytes = none) :
    bytes.length ≤ lineLimit := by
  cases hfirst : findCrlf? (bytes ++ toCome) with
  | none =>
    have hlen := h.length_le_of_none hfirst
    rw [List.length_append] at hlen
    omega
  | some n =>
    have hn := h.length_le_of_some hfirst
    by_contra hlt
    have hend := (lineEndAt_append (by omega)).1 (findCrlf?_eq_some_iff.1 hfirst).1
    exact findCrlf?_eq_none_iff.1 hnone n hend

/-- What is left behind requests that are answered has short lines, too. -/
theorem left {c : ClientId} {left : Bytes} {b last : Broker} {responses : List Response}
    (h : ShortLines stream) (hanswered : Answered c stream b responses left last) :
    ShortLines left := by
  induction hanswered with
  | nil => exact h
  | cons hfirst _ _ _ ih => exact ih (h.behind hfirst)

end ShortLines

/-- Goes through `n` requests at most. -/
def hasShortLines : Nat → Bytes → Bool
  | 0, _ => false
  | n + 1, stream =>
    match findCrlf? stream with
    | none => stream.length ≤ lineLimit
    | some m =>
      m + 2 ≤ lineLimit && match Piece.first? stream with
        | none => true
        | some (_, rest) => hasShortLines n rest

theorem hasShortLines_iff (h : stream.length < n) :
    hasShortLines n stream = true ↔ ShortLines stream := by
  induction n generalizing stream with
  | zero => exact absurd h (Nat.not_lt_zero _)
  | succ n ih =>
    cases hfirst : findCrlf? stream with
    | none =>
      simp only [hasShortLines, hfirst, decide_eq_true_eq]
      exact ⟨.unfinished hfirst, fun h => h.length_le_of_none hfirst⟩
    | some m =>
      simp only [hasShortLines, hfirst, Bool.and_eq_true, decide_eq_true_eq]
      cases hcut : Piece.first? stream with
      | none =>
        exact ⟨fun hm => .line hfirst hm.1 fun _ _ hcut' => absurd (hcut.symm.trans hcut') nofun,
          fun h => ⟨h.length_le_of_some hfirst, rfl⟩⟩
      | some cut =>
        obtain ⟨piece, rest⟩ := cut
        have hlen := Piece.length_of_first? hcut
        have hrest : hasShortLines n rest = true ↔ ShortLines rest := ih (by omega)
        refine ⟨fun hm => .line hfirst hm.1 fun piece' rest' hcut' => ?_,
          fun h => ⟨h.length_le_of_some hfirst, hrest.2 (h.behind hcut)⟩⟩
        obtain ⟨-, rfl⟩ := Prod.mk.inj (Option.some.inj (hcut.symm.trans hcut'))
        exact hrest.1 hm.2

instance (stream : Bytes) : Decidable (ShortLines stream) :=
  decidable_of_iff (hasShortLines (stream.length + 1) stream = true)
    (hasShortLines_iff (Nat.lt_succ_self _))

end WorkQueue
