import WorkQueue.Proofs.SearchMark
import WorkQueue.Stream.Whole

/-!
# However a stream is split

A stream comes in by reads, and where one read ends, where none is ready, and how often a call for a
line or for a number of bytes is given up there and made again is all the same : the calls that are
not given up answer what the whole stream answers (`completed_eq_whole`). A call that is given up
leaves all bytes where they are (`Settles.givenUp`), and any other takes the next piece
(`Settles.met`).

The length of a line is checked only after a search, so a line that fits is found however it comes
in. The mark of the search can be stale only at the end of the stream, when nothing is left that it
could hide.
-/

namespace WorkQueue

/-- The buffer and the reads to come have these bytes, in this order. -/
def Holds (stream buffer : Bytes) (reads : List Read) : Prop :=
  ∃ unread, Delivers reads unread ∧ buffer ++ unread = stream

/-- What a call does to the stream it is made on. -/
inductive Settles (stream : Bytes) (c : Call) (result : Answer × Bytes × List Read) : Prop
  | givenUp (hpatience : c.patience = .givesUp) (hanswer : result.1 = .givenUp)
      (hleft : Holds stream result.2.1 result.2.2)
  | met (hanswer : result.1 = c.ask.answer stream)
      (hleft : Holds (stream.drop (c.ask.size stream)) result.2.1 result.2.2)

namespace PlainBuffer

variable {buffer unread chunk : Bytes} {reads : List Read} {patience : Patience} {n : Nat}

/-- What comes of a call that needs more than the bytes it keeps : it is made again with what the
next read brings. -/
def readOn (kept : Bytes) (again : Bytes → List Read → Answer × Bytes × List Read)
    (patience : Patience) : List Read → Answer × Bytes × List Read
  | [] => (.ended, kept, [])
  | .bytes [] :: reads => (.ended, kept, reads)
  | .bytes arrived :: reads => again (kept ++ arrived) reads
  | .failure message :: reads => (.failure message, kept, reads)
  | .notReady :: reads =>
    match patience with
    | .waits => again kept reads
    | .givesUp => (.givenUp, kept, reads)

/-! ## A line -/

theorem call_line_of_some (h : findCrlf? buffer = some n) :
    call buffer reads (.line patience) =
      (.done (some (buffer.take n)), buffer.drop (n + 2), reads) := by
  rw [call, readLine.eq_def, h]
  rfl

theorem call_line_of_none (reads : List Read) (patience : Patience)
    (h : findCrlf? buffer = none) (hlen : buffer.length ≤ lineLimit) :
    call buffer reads (.line patience) =
      readOn buffer (fun buffer reads => call buffer reads (.line patience)) patience reads := by
  rw [call, readLine.eq_def, h]
  simp only [if_neg (Nat.not_lt_of_le hlen)]
  cases reads with
  | nil => rfl
  | cons read reads =>
    cases read with
    | bytes arrived => cases arrived <;> rfl
    | failure => rfl
    | notReady => cases patience <;> rfl

/-- The bytes that have arrived of a line that fits are not too many. -/
theorem length_le_of_lineSize (hnone : findCrlf? buffer = none)
    (h : lineSize (buffer ++ unread) ≤ lineLimit) : buffer.length ≤ lineLimit := by
  unfold lineSize at h
  split at h
  · rename_i n hsome
    by_contra hlong
    have hend := (lineEndAt_append (by omega)).1 (findCrlf?_eq_some_iff.1 hsome).1
    exact findCrlf?_eq_none_iff.1 hnone n hend
  · rw [List.length_append] at h
    omega

theorem length_le_of_call_line (hnone : findCrlf? buffer = none)
    (h : (call buffer reads (.line patience)).1 ≠ .givenUp →
      lineSize (buffer ++ unread) ≤ lineLimit) : buffer.length ≤ lineLimit := by
  by_contra hlong
  have htooLong : (call buffer reads (.line patience)).1 = .lineTooLong := by
    rw [call, readLine.eq_def, hnone]
    simp only [if_pos (Nat.lt_of_not_le hlong)]
    rfl
  exact hlong (length_le_of_lineSize hnone (h (by simp [htooLong])))

theorem settles_line_of_some (hunread : Delivers reads unread) (h : findCrlf? buffer = some n) :
    Settles (buffer ++ unread) (.line patience) (call buffer reads (.line patience)) := by
  have hle := (findCrlf?_eq_some_iff.1 h).1.length_le
  have htake : (buffer ++ unread).take n = buffer.take n :=
    List.take_append_of_le_length (by omega)
  have hdrop : (buffer ++ unread).drop (n + 2) = buffer.drop (n + 2) ++ unread :=
    List.drop_append_of_le_length hle
  rw [call_line_of_some h]
  refine .met ?_ ⟨unread, hunread, ?_⟩
  · simp only [Call.ask, Ask.answer, findCrlf?_append h, htake]
  · simp only [Call.ask, Ask.size, findCrlf?_append h, hdrop]

theorem settles_line (hunread : Delivers reads unread)
    (hfits : (call buffer reads (.line patience)).1 ≠ .givenUp →
      lineSize (buffer ++ unread) ≤ lineLimit) :
    Settles (buffer ++ unread) (.line patience) (call buffer reads (.line patience)) := by
  induction hunread generalizing buffer with
  | nil =>
    cases hfirst : findCrlf? buffer with
    | some n => exact settles_line_of_some .nil hfirst
    | none =>
      have hanswer := call_line_of_none [] patience hfirst (length_le_of_call_line hfirst hfits)
      rw [List.append_nil, hanswer]
      refine .met ?_ ⟨[], .nil, ?_⟩
      · simp only [Call.ask, Ask.answer, hfirst, readOn]
      · simp only [Call.ask, Ask.size, hfirst, readOn, List.append_nil, List.drop_zero]
  | @notReady reads unread hunread ih =>
    cases hfirst : findCrlf? buffer with
    | some n => exact settles_line_of_some hunread.notReady hfirst
    | none =>
      have hstep := call_line_of_none (.notReady :: reads) patience hfirst
        (length_le_of_call_line hfirst hfits)
      cases patience with
      | waits =>
        rw [hstep] at hfits ⊢
        exact ih hfits
      | givesUp =>
        rw [hstep]
        exact .givenUp rfl rfl ⟨unread, hunread, rfl⟩
  | @cons reads chunk unread hne hunread ih =>
    cases hfirst : findCrlf? buffer with
    | some n => exact settles_line_of_some (hunread.cons hne) hfirst
    | none =>
      have hstep := call_line_of_none (.bytes chunk :: reads) patience hfirst
        (length_le_of_call_line hfirst hfits)
      obtain ⟨b, chunk, rfl⟩ := List.exists_cons_of_ne_nil hne
      rw [hstep, ← List.append_assoc] at hfits
      rw [hstep, ← List.append_assoc]
      exact ih hfits

/-! ## A number of bytes -/

theorem call_exact_of_le (h : n ≤ buffer.length) :
    call buffer reads (.exact patience n) =
      (.done (some (buffer.take n)), buffer.drop n, reads) := by
  rw [call, readExact.eq_def, if_pos h]
  rfl

theorem call_exact_of_lt (h : buffer.length < n) :
    call buffer reads (.exact patience n) =
      readOn buffer (fun buffer reads => call buffer reads (.exact patience n)) patience reads := by
  rw [call, readExact.eq_def, if_neg (Nat.not_le_of_lt h)]
  cases reads with
  | nil => rfl
  | cons read reads =>
    cases read with
    | bytes arrived => cases arrived <;> rfl
    | failure => rfl
    | notReady => cases patience <;> rfl

theorem settles_exact_of_le (hunread : Delivers reads unread) (h : n ≤ buffer.length) :
    Settles (buffer ++ unread) (.exact patience n) (call buffer reads (.exact patience n)) := by
  have hle : n ≤ (buffer ++ unread).length := by
    rw [List.length_append]
    omega
  rw [call_exact_of_le h]
  refine .met ?_ ⟨unread, hunread, ?_⟩
  · simp only [Call.ask, Ask.answer, if_pos hle, List.take_append_of_le_length h]
  · simp only [Call.ask, Ask.size, if_pos hle, List.drop_append_of_le_length h]

theorem settles_exact (hunread : Delivers reads unread) :
    Settles (buffer ++ unread) (.exact patience n) (call buffer reads (.exact patience n)) := by
  induction hunread generalizing buffer with
  | nil =>
    rcases Nat.lt_or_ge buffer.length n with hlt | hle
    · have hnot : ¬n ≤ (buffer ++ []).length := by
        rwa [List.append_nil, Nat.not_le]
      rw [call_exact_of_lt hlt]
      refine .met ?_ ⟨[], .nil, ?_⟩
      · simp only [Call.ask, Ask.answer, if_neg hnot, readOn]
      · simp only [Call.ask, Ask.size, if_neg hnot, readOn, List.drop_zero]
    · exact settles_exact_of_le .nil hle
  | @notReady reads unread hunread ih =>
    rcases Nat.lt_or_ge buffer.length n with hlt | hle
    · cases patience with
      | waits =>
        rw [call_exact_of_lt hlt]
        exact ih
      | givesUp =>
        rw [call_exact_of_lt hlt]
        exact .givenUp rfl rfl ⟨unread, hunread, rfl⟩
    · exact settles_exact_of_le hunread.notReady hle
  | @cons reads chunk unread hne hunread ih =>
    rcases Nat.lt_or_ge buffer.length n with hlt | hle
    · obtain ⟨b, chunk, rfl⟩ := List.exists_cons_of_ne_nil hne
      rw [call_exact_of_lt hlt, ← List.append_assoc]
      exact ih
    · exact settles_exact_of_le (hunread.cons hne) hle

/-! ## Bytes to drop -/

theorem call_discard_of_le (h : n ≤ buffer.length) :
    call buffer reads (.discard patience n) = (.done none, buffer.drop n, reads) := by
  rw [call, discard.eq_def, if_pos h]
  rfl

theorem call_discard_of_lt (h : buffer.length < n) :
    call buffer reads (.discard patience n) =
      readOn [] (fun arrived reads => call arrived reads (.discard patience (n - buffer.length)))
        patience reads := by
  rw [call, discard.eq_def, if_neg (Nat.not_le_of_lt h)]
  cases reads with
  | nil => rfl
  | cons read reads =>
    cases read with
    | bytes arrived => cases arrived <;> rfl
    | failure => rfl
    | notReady => cases patience <;> rfl

theorem settles_discard_of_le (hunread : Delivers reads unread) (h : n ≤ buffer.length) :
    Settles (buffer ++ unread) (.discard patience n)
      (call buffer reads (.discard patience n)) := by
  have hle : n ≤ (buffer ++ unread).length := by
    rw [List.length_append]
    omega
  rw [call_discard_of_le h]
  refine .met ?_ ⟨unread, hunread, ?_⟩
  · simp only [Call.ask, Ask.answer, if_pos hle]
  · simp only [Call.ask, Ask.size, Nat.min_eq_left hle, List.drop_append_of_le_length h]

/-- The bytes of a buffer that is too short are dropped, and the others are dropped of what is to
come. -/
theorem settles_discard_rest {rest : Bytes} {result : Answer × Bytes × List Read}
    (hlt : buffer.length < n) (hanswer : result.1 ≠ .givenUp)
    (h : Settles rest (.discard patience (n - buffer.length)) result) :
    Settles (buffer ++ rest) (.discard patience n) result := by
  cases h with
  | givenUp _ hgivenUp => exact absurd hgivenUp hanswer
  | met hmet hleft =>
    refine .met (hmet.trans ?_) ?_
    · simp only [Call.ask, Ask.answer, List.length_append, Nat.sub_le_iff_le_add']
    · have hsize : min n (buffer ++ rest).length =
          buffer.length + min (n - buffer.length) rest.length := by
        rw [List.length_append]
        omega
      simp only [Call.ask, Ask.size] at hleft ⊢
      rwa [hsize, List.drop_length_add_append]

theorem settles_discard (hunread : Delivers reads unread)
    (hmet : (call buffer reads (.discard patience n)).1 ≠ .givenUp) :
    Settles (buffer ++ unread) (.discard patience n)
      (call buffer reads (.discard patience n)) := by
  induction hunread generalizing buffer n with
  | nil =>
    rcases Nat.lt_or_ge buffer.length n with hlt | hle
    · have hnot : ¬n ≤ (buffer ++ []).length := by
        rwa [List.append_nil, Nat.not_le]
      rw [call_discard_of_lt hlt]
      refine .met ?_ ⟨[], .nil, ?_⟩
      · simp only [Call.ask, Ask.answer, if_neg hnot, readOn]
      · rw [Call.ask, Ask.size, Nat.min_eq_right (Nat.le_of_not_le hnot), List.drop_length]
        rfl
    · exact settles_discard_of_le .nil hle
  | @notReady reads unread hunread ih =>
    rcases Nat.lt_or_ge buffer.length n with hlt | hle
    · rw [call_discard_of_lt hlt] at hmet ⊢
      cases patience with
      | waits => exact settles_discard_rest hlt hmet (ih hmet)
      | givesUp => exact absurd rfl hmet
    · exact settles_discard_of_le hunread.notReady hle
  | @cons reads chunk unread hne hunread ih =>
    rcases Nat.lt_or_ge buffer.length n with hlt | hle
    · obtain ⟨b, chunk, rfl⟩ := List.exists_cons_of_ne_nil hne
      rw [call_discard_of_lt hlt] at hmet ⊢
      exact settles_discard_rest hlt hmet (ih hmet)
    · exact settles_discard_of_le (hunread.cons hne) hle

theorem settles_call {c : Call} (hunread : Delivers reads unread)
    (hdropped : (call buffer reads c).1 = .givenUp → c.ask.drops = false)
    (hfits : (call buffer reads c).1 ≠ .givenUp → c.ask.Fits (buffer ++ unread)) :
    Settles (buffer ++ unread) c (call buffer reads c) := by
  cases c with
  | line => exact settles_line hunread fun hanswer => hfits hanswer rfl
  | exact => exact settles_exact hunread
  | discard => exact settles_discard hunread fun hanswer => absurd (hdropped hanswer) nofun

end PlainBuffer

/-! ## Calls one after another -/

theorem Ask.answer_ne_givenUp {stream : Bytes} {ask : Ask} : ask.answer stream ≠ .givenUp := by
  unfold Ask.answer
  split <;> split <;> nofun

namespace LineBuffer

variable {buffer : LineBuffer} {stream : Bytes} {reads : List Read} {c : Call} {calls : List Call}

theorem Marked.call (h : buffer.Marked) (hc : c.ask.drops = false) :
    (buffer.call reads c).2.1.Marked := by
  cases c with
  | line => exact h.readLine
  | exact => exact h.readExact
  | discard => cases hc

/-- The mark stays good, or there is nothing left of the stream. -/
theorem marked_or_ended (hmark : buffer.Marked ∨ stream = [])
    (hanswer : (buffer.call reads c).1 = c.ask.answer stream) :
    (buffer.call reads c).2.1.Marked ∨ stream.drop (c.ask.size stream) = [] := by
  rcases hmark with h | rfl
  case inr => exact Or.inr List.drop_nil
  cases c with
  | line => exact Or.inl h.readLine
  | exact => exact Or.inl h.readExact
  | discard p n =>
    have hdiscard : (buffer.discard p n reads).1.isDone = true ∧ _ ∨ _ := discard_marked_or_empty
    rcases hdiscard with ⟨-, hmarked⟩ | ⟨hbroken, -⟩
    · exact Or.inl hmarked
    · refine Or.inr (List.drop_eq_nil_of_le ?_)
      simp only [Call.ask, Ask.answer, Ask.size] at hanswer ⊢
      have hnot : ¬n ≤ stream.length := fun hle => by
        have hdone := congrArg CallResult.isDone hanswer
        simp only [LineBuffer.call, Prod.map, isDone_map, hbroken, if_pos hle] at hdone
        cases hdone
      omega

theorem settles_call (hholds : Holds stream buffer.bytes reads)
    (hmark : buffer.Marked ∨ stream = [])
    (hdropped : (buffer.call reads c).1 = .givenUp → c.ask.drops = false)
    (hfits : (buffer.call reads c).1 ≠ .givenUp → c.ask.Fits stream) :
    Settles stream c (withoutMark (buffer.call reads c)) := by
  obtain ⟨unread, hunread, rfl⟩ := hholds
  have hintact : buffer.Intact := by
    rcases hmark with hmarked | hend
    · exact hmarked.intact
    · exact intact_of_bytes_eq_nil (List.append_eq_nil_iff.1 hend).1
  have hplain : withoutMark (buffer.call reads c) = PlainBuffer.call buffer.bytes reads c :=
    call_plain fun _ _ => hintact
  have hanswer : (buffer.call reads c).1 = (PlainBuffer.call buffer.bytes reads c).1 :=
    congrArg Prod.fst hplain
  rw [hanswer] at hdropped hfits
  rw [hplain]
  exact PlainBuffer.settles_call hunread hdropped hfits

theorem call_givenUp (hholds : Holds stream buffer.bytes reads)
    (hmark : buffer.Marked ∨ stream = []) (hc : c.ask.drops = false)
    (hgivenUp : (buffer.call reads c).1 = .givenUp) :
    c.patience = .givesUp ∧
      Holds stream (buffer.call reads c).2.1.bytes (buffer.call reads c).2.2 := by
  cases settles_call hholds hmark (fun _ => hc) fun h => absurd hgivenUp h with
  | givenUp hpatience _ hleft => exact ⟨hpatience, hleft⟩
  | met hanswer => exact absurd (hanswer.symm.trans hgivenUp) Ask.answer_ne_givenUp

theorem call_met (hholds : Holds stream buffer.bytes reads)
    (hmark : buffer.Marked ∨ stream = []) (hfits : c.ask.Fits stream)
    (hmet : (buffer.call reads c).1 ≠ .givenUp) :
    (buffer.call reads c).1 = c.ask.answer stream ∧
      Holds (stream.drop (c.ask.size stream)) (buffer.call reads c).2.1.bytes
        (buffer.call reads c).2.2 := by
  cases settles_call hholds hmark (fun h => absurd h hmet) fun _ => hfits with
  | givenUp _ hanswer => exact absurd hanswer hmet
  | met hanswer hleft => exact ⟨hanswer, hleft⟩

/-- What calls come to on a buffer and reads that hold a stream. -/
theorem runCalls_whole (hholds : Holds stream buffer.bytes reads)
    (hmark : buffer.Marked ∨ stream = [])
    (hdropped : ∀ entry ∈ calls.zip (runCalls call buffer reads calls).1,
      entry.2 = .givenUp → entry.1.ask.drops = false)
    (hfit : AllFit stream
      ((completed (calls.zip (runCalls call buffer reads calls).1)).map (·.1.ask))) :
    let run := runCalls call buffer reads calls
    let asks := (completed (calls.zip run.1)).map (·.1.ask)
    (completed (calls.zip run.1)).map (·.2) = wholeAnswers stream asks ∧
      (∃ rest, Delivers run.2.2 rest ∧
        (wholePieces stream asks).flatten ++ (run.2.1.bytes ++ rest) = stream) ∧
      ∀ entry ∈ calls.zip run.1, entry.2 = .givenUp → entry.1.patience = .givesUp := by
  induction calls generalizing buffer reads stream with
  | nil => exact ⟨rfl, hholds, nofun⟩
  | cons c calls ih =>
    simp only [runCalls, List.zip_cons_cons, List.mem_cons, forall_eq_or_imp] at hdropped hfit ⊢
    obtain ⟨hdropped, hdroppedLater⟩ := hdropped
    by_cases hgivenUp : (buffer.call reads c).1 = .givenUp
    · -- the same stream is there for the calls that follow
      rw [completed, List.filter_cons_of_neg (by simpa using hgivenUp), ← completed] at hfit ⊢
      obtain ⟨hpatience, hleft⟩ := call_givenUp hholds hmark (hdropped hgivenUp) hgivenUp
      have hmark : (buffer.call reads c).2.1.Marked ∨ stream = [] :=
        hmark.imp_left fun h => h.call (hdropped hgivenUp)
      obtain ⟨hanswers, hrest, hpatienceLater⟩ := ih hleft hmark hdroppedLater hfit
      exact ⟨hanswers, hrest, fun _ => hpatience, hpatienceLater⟩
    · -- one piece is taken
      rw [completed, List.filter_cons_of_pos (by simpa using hgivenUp), ← completed] at hfit ⊢
      obtain ⟨hfit, hfitLater⟩ := hfit
      obtain ⟨hanswer, hleft⟩ := call_met hholds hmark hfit hgivenUp
      obtain ⟨hanswers, ⟨rest, hrest, hpieces⟩, hpatience⟩ :=
        ih hleft (marked_or_ended hmark hanswer) hdroppedLater hfitLater
      refine ⟨congrArg₂ _ hanswer hanswers, ⟨rest, hrest, ?_⟩, (absurd · hgivenUp), hpatience⟩
      simp only [List.map_cons, wholePieces, List.flatten_cons, List.append_assoc]
      rw [hpieces, List.take_append_drop]

/-- However a stream comes in, and however often calls for a line or for a number of bytes are given
up, the calls that are not given up answer what the whole stream answers, the pieces that they take
and what is left are the stream, and a call that waits is not given up. -/
theorem completed_eq_whole (reads : List Read) (stream : Bytes) (calls : List Call)
    (hreads : Delivers reads stream)
    (hdropped : ∀ entry ∈ calls.zip (answers reads calls),
      entry.2 = .givenUp → entry.1.ask.drops = false)
    (hfit : AllFit stream ((completed (calls.zip (answers reads calls))).map (·.1.ask))) :
    let entries := calls.zip (answers reads calls)
    let asks := (completed entries).map (·.1.ask)
    (completed entries).map (·.2) = wholeAnswers stream asks ∧
      (∃ rest, Delivers (unread reads calls) rest ∧
        (wholePieces stream asks).flatten ++ ((after reads calls).bytes ++ rest) = stream) ∧
      ∀ entry ∈ entries, entry.2 = .givenUp → entry.1.patience = .givesUp :=
  runCalls_whole ⟨stream, hreads, List.nil_append _⟩ (Or.inl (Or.inl rfl)) hdropped hfit

/-- The line end comes in two reads, and both calls are given up before they are made again. -/
def splitReads : List Read :=
  [.bytes (ascii "a"), .notReady, .bytes (ascii "b\r"), .notReady, .bytes (ascii "\nc"), .notReady,
    .bytes (ascii "defg")]

def splitCalls : List Call :=
  [.line .givesUp, .line .givesUp, .line .givesUp, .exact .givesUp 2, .exact .waits 2,
    .discard .waits 2, .line .waits]

theorem completed_eq_whole_split :
    (completed (splitCalls.zip (answers splitReads splitCalls))).map (·.2) =
        [.done (some (ascii "ab")), .done (some (ascii "cd")), .done none, .ended] ∧
      wholePieces (ascii "ab\r\ncdefg") [.line, .exact 2, .discard 2, .line] =
        [ascii "ab\r\n", ascii "cd", ascii "ef", []] := by
  have hreads : Delivers splitReads (ascii "ab\r\ncdefg") :=
    .cons (by decide) (.notReady (.cons (by decide) (.notReady (.cons (by decide)
      (.notReady (.cons (by decide) .nil))))))
  exact ⟨(completed_eq_whole splitReads _ splitCalls hreads (by decide) (by decide)).1.trans
    (by decide), by decide⟩

end LineBuffer

end WorkQueue
