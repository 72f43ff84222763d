import WorkQueue.Proofs.LineEnds
import WorkQueue.Stream.Sequence

/-!
# The search mark

A buffer is intact (`LineBuffer.Intact`) if no line end starts before its mark. As long as it is
intact whenever a line is wanted, a reader answers every call as one without a mark, and at the
first line that is wanted of a buffer that is not, the answers part.

A mark goes stale in one way : a `discard` that is broken off empties the buffer and leaves the
mark, and a `readExact` that is broken off later puts new bytes under it. `agrees_with_plain` shows
that answers can part in no other way, and `stale_mark` that they do part in this one.
-/

namespace WorkQueue

/-- A result as a reader without a search mark has it. -/
def withoutMark {α : Type} (result : α × LineBuffer × List Read) : α × Bytes × List Read :=
  (result.1, result.2.1.bytes, result.2.2)

namespace LineBuffer

variable {buffer rest : LineBuffer} {arrived text : Bytes} {n : Nat} {reads : List Read}
  {patience : Patience}

/-- No line end starts before the mark. -/
def Intact (buffer : LineBuffer) : Prop :=
  ∀ n < buffer.searched, ¬LineEndAt buffer.bytes n

theorem intact_of_searched_eq_zero (h : buffer.searched = 0) : buffer.Intact :=
  fun n hn => absurd (h ▸ hn) (Nat.not_lt_zero n)

theorem intact_of_bytes_eq_nil (h : buffer.bytes = []) : buffer.Intact := fun n _ hend => by
  have hle := hend.length_le
  simp [h] at hle

/-! ## One search -/

/-- An intact buffer is searched as if from its start. -/
theorem Intact.takeLine_eq (h : buffer.Intact) :
    buffer.takeLine = match findCrlf? buffer.bytes with
      | some n => .line (buffer.bytes.take n) ⟨buffer.bytes.drop (n + 2), 0⟩
      | none => if buffer.bytes.length > lineLimit then .tooLong else .unfinished := by
  rw [takeLine, findCrlf?_drop h]
  cases findCrlf? (buffer.bytes.drop buffer.searched) with
  | none => rfl
  | some n => simp only [Option.map_some, Nat.add_comm n]

/-- What is taken of a buffer is not shorter than its mark. -/
theorem searched_le_of_takeLine (h : buffer.takeLine = .line text rest) :
    buffer.searched ≤ text.length := by
  unfold takeLine at h
  split at h
  · rename_i n hfirst
    have hle := (lineEndAt_drop.1 (findCrlf?_eq_some_iff.1 hfirst).1).length_le
    cases h
    rw [List.length_take]
    omega
  · split at h <;> cases h

theorem Intact.of_line (h : buffer.Intact) (ht : buffer.takeLine = .line text rest) :
    ∃ n, findCrlf? buffer.bytes = some n ∧ text = buffer.bytes.take n ∧
      rest = ⟨buffer.bytes.drop (n + 2), 0⟩ := by
  rw [h.takeLine_eq] at ht
  split at ht
  · cases ht
    exact ⟨_, ‹_›, rfl, rfl⟩
  · split at ht <;> cases ht

theorem Intact.of_tooLong (h : buffer.Intact) (ht : buffer.takeLine = .tooLong) :
    findCrlf? buffer.bytes = none ∧ buffer.bytes.length > lineLimit := by
  rw [h.takeLine_eq] at ht
  split at ht
  · cases ht
  · split at ht
    · exact ⟨‹_›, ‹_›⟩
    · cases ht

theorem Intact.of_unfinished (h : buffer.Intact) (ht : buffer.takeLine = .unfinished) :
    findCrlf? buffer.bytes = none ∧ ¬buffer.bytes.length > lineLimit := by
  rw [h.takeLine_eq] at ht
  split at ht
  · cases ht
  · split at ht
    · cases ht
    · exact ⟨‹_›, ‹_›⟩

/-- More bytes may come if the search has found none of the line ends that are there. -/
theorem intact_extend (h : findCrlf? buffer.bytes = none) : (buffer.extend arrived).Intact := by
  intro n hn
  have hlt : n < buffer.bytes.length - 1 := hn
  exact (lineEndAt_append (by omega)).not.2 (findCrlf?_eq_none_iff.1 h n)

/-! ## One call -/

/-- A line of an intact buffer is found where it is found without a mark. -/
theorem Intact.readLine_plain (h : buffer.Intact) :
    withoutMark (buffer.readLine patience reads) =
      PlainBuffer.readLine patience buffer.bytes reads := by
  fun_induction readLine patience buffer reads with
  | case1 reads buffer text rest ht =>
    obtain ⟨n, hn, rfl, rfl⟩ := h.of_line ht
    rw [PlainBuffer.readLine.eq_def, hn]
    rfl
  | case2 reads buffer ht =>
    obtain ⟨hnone, hlen⟩ := h.of_tooLong ht
    rw [PlainBuffer.readLine.eq_def, hnone]
    exact (if_pos hlen).symm
  | case5 buffer ht arrived reads hsome ih =>
    obtain ⟨hnone, hlen⟩ := h.of_unfinished ht
    obtain ⟨b, arrived, rfl⟩ := List.exists_cons_of_ne_nil hsome
    rw [PlainBuffer.readLine.eq_def, hnone]
    exact (ih (intact_extend hnone)).trans (if_neg hlen).symm
  | case3 buffer ht | case4 buffer ht | case6 buffer ht =>
    obtain ⟨hnone, hlen⟩ := h.of_unfinished ht
    rw [PlainBuffer.readLine.eq_def, hnone]
    simp only [withoutMark, extend, List.append_nil, if_neg hlen]
  | case7 buffer ht reads _ ih =>
    obtain ⟨hnone, hlen⟩ := h.of_unfinished ht
    subst patience
    rw [PlainBuffer.readLine.eq_def, hnone]
    exact (ih h).trans (if_neg hlen).symm
  | case8 buffer ht reads hpatience =>
    obtain ⟨hnone, hlen⟩ := h.of_unfinished ht
    subst patience
    rw [PlainBuffer.readLine.eq_def, hnone]
    exact (if_neg hlen).symm

/-- A line that is wanted of a buffer with a line end before its mark goes beyond that line end. -/
theorem lt_length_of_readLine (hend : LineEndAt buffer.bytes n) (hn : n < buffer.searched)
    (h : (buffer.readLine patience reads).1 = .done text) : n < text.length := by
  fun_induction readLine patience buffer reads with
  | case1 reads buffer text' rest ht =>
    cases h
    exact Nat.lt_of_lt_of_le hn (searched_le_of_takeLine ht)
  | case5 buffer ht arrived reads hsome ih =>
    have hle := hend.length_le
    refine ih ((lineEndAt_append hle).2 hend) ?_ h
    exact Nat.lt_sub_of_add_lt hle
  | case7 buffer ht reads hpatience ih =>
    subst hpatience
    exact ih hend hn h
  | _ => cases h

theorem readExact_plain : withoutMark (buffer.readExact patience n reads) =
    PlainBuffer.readExact patience n buffer.bytes reads := by
  fun_induction readExact patience n buffer reads with
  | case1 reads buffer hle =>
    rw [PlainBuffer.readExact.eq_def]
    exact (if_pos hle).symm
  | case4 buffer hlt arrived reads hsome ih =>
    obtain ⟨b, arrived, rfl⟩ := List.exists_cons_of_ne_nil hsome
    rw [PlainBuffer.readExact.eq_def]
    exact ih.trans (if_neg hlt).symm
  | case6 buffer hlt reads _ ih =>
    subst patience
    rw [PlainBuffer.readExact.eq_def]
    exact ih.trans (if_neg hlt).symm
  | case2 buffer hlt | case3 buffer hlt | case5 buffer hlt =>
    rw [PlainBuffer.readExact.eq_def]
    exact (if_neg hlt).symm
  | case7 buffer hlt reads _ =>
    subst patience
    rw [PlainBuffer.readExact.eq_def]
    exact (if_neg hlt).symm

/-- What is left of a buffer that had less than was to be dropped. -/
theorem bytes_drop_of_lt (h : ¬n ≤ buffer.bytes.length) : (buffer.drop n).bytes = [] :=
  List.drop_eq_nil_of_le (Nat.le_of_not_le h)

theorem discard_plain : withoutMark (buffer.discard patience n reads) =
    PlainBuffer.discard patience n buffer.bytes reads := by
  fun_induction discard patience n buffer reads with
  | case1 reads n buffer hle =>
    rw [PlainBuffer.discard.eq_def]
    exact (if_pos hle).symm
  | case4 n buffer hlt left dropped arrived reads hsome ih =>
    obtain ⟨b, arrived, rfl⟩ := List.exists_cons_of_ne_nil hsome
    have hbytes : (dropped.append (b :: arrived)).bytes = b :: arrived :=
      congrArg (· ++ b :: arrived) (bytes_drop_of_lt hlt)
    rw [hbytes] at ih
    rw [PlainBuffer.discard.eq_def]
    exact ih.trans (if_neg hlt).symm
  | case6 n buffer hlt left dropped reads _ ih =>
    subst patience
    have hbytes : dropped.bytes = [] := bytes_drop_of_lt hlt
    rw [hbytes] at ih
    rw [PlainBuffer.discard.eq_def]
    exact ih.trans (if_neg hlt).symm
  | case2 n buffer hlt dropped | case3 n buffer hlt dropped | case5 n buffer hlt dropped =>
    have hbytes : dropped.bytes = [] := bytes_drop_of_lt hlt
    rw [PlainBuffer.discard.eq_def]
    simp only [withoutMark, hbytes, if_neg hlt]
  | case7 n buffer hlt dropped =>
    subst patience
    have hbytes : dropped.bytes = [] := bytes_drop_of_lt hlt
    rw [PlainBuffer.discard.eq_def]
    simp only [withoutMark, hbytes, if_neg hlt]

theorem call_plain {c : Call} (h : ∀ p, c = .line p → buffer.Intact) :
    withoutMark (buffer.call reads c) = PlainBuffer.call buffer.bytes reads c := by
  cases c with
  | line p => exact congrArg (Prod.map (·.map some) id) (h p rfl).readLine_plain
  | exact p n => exact congrArg (Prod.map (·.map some) id) readExact_plain
  | discard p n => exact congrArg (Prod.map (CallResult.map fun _ => none) id) discard_plain

/-- Without a mark the line ends before the mark, with it beyond. -/
theorem call_line_ne (h : ¬buffer.Intact) :
    (buffer.call reads (.line patience)).1 ≠
      (PlainBuffer.call buffer.bytes reads (.line patience)).1 := by
  obtain ⟨n, hn, hend⟩ : ∃ n < buffer.searched, LineEndAt buffer.bytes n := by
    simpa only [Intact, not_forall, not_not, exists_prop] using h
  intro heq
  cases hfirst : findCrlf? buffer.bytes with
  | none => exact findCrlf?_eq_none_iff.1 hfirst n hend
  | some m =>
    have hplain : (PlainBuffer.call buffer.bytes reads (.line patience)).1 =
        .done (some (buffer.bytes.take m)) := by
      rw [PlainBuffer.call, PlainBuffer.readLine.eq_def, hfirst]
      rfl
    have hmarked : (buffer.readLine patience reads).1 = .done (buffer.bytes.take m) := by
      rw [hplain] at heq
      cases hline : (buffer.readLine patience reads).1 with
      | done text => simpa [call, CallResult.map, hline] using heq
      | _ => simp [call, CallResult.map, hline] at heq
    have hlt := lt_length_of_readLine hend hn hmarked
    have hle : m ≤ n := Nat.le_of_not_lt fun h => (findCrlf?_eq_some_iff.1 hfirst).2 n h hend
    rw [List.length_take] at hlt
    omega

/-! ## Calls one after another -/

variable {calls : List Call}

/-- The answers are those of a reader without a mark just when the buffer is intact whenever a line
is wanted. -/
theorem runCalls_plain_iff :
    (runCalls call buffer reads calls).1 =
        (runCalls PlainBuffer.call buffer.bytes reads calls).1 ↔
      ∀ earlier p later, calls = earlier ++ .line p :: later →
        (runCalls call buffer reads earlier).2.1.Intact := by
  induction calls generalizing buffer reads with
  | nil => simp [runCalls]
  | cons c calls ih =>
    have hsplit : (∀ earlier p later, c :: calls = earlier ++ .line p :: later →
          (runCalls call buffer reads earlier).2.1.Intact) ↔
        (∀ p, c = .line p → buffer.Intact) ∧
          ∀ earlier p later, calls = earlier ++ .line p :: later →
            (runCalls call buffer reads (c :: earlier)).2.1.Intact := by
      constructor
      · refine fun h => ⟨fun p hc => h [] p calls (by rw [hc]; rfl),
          fun earlier p later hcalls => ?_⟩
        exact h (c :: earlier) p later (by rw [hcalls]; rfl)
      · rintro ⟨hfirst, hrest⟩ earlier p later hcalls
        cases earlier with
        | nil => exact hfirst p (List.cons.inj hcalls).1
        | cons _ earlier =>
          obtain ⟨rfl, htail⟩ := List.cons.inj hcalls
          exact hrest earlier p later htail
    rw [hsplit]
    by_cases h : ∀ p, c = .line p → buffer.Intact
    · have hcall : withoutMark (buffer.call reads c) = _ := call_plain h
      rw [and_iff_right h]
      simp only [runCalls, ← hcall, withoutMark, List.cons.injEq, true_and]
      exact ih
    · obtain ⟨p, rfl, hstale⟩ : ∃ p, c = .line p ∧ ¬buffer.Intact := by
        simpa only [not_forall, exists_prop] using h
      refine iff_of_false (fun heq => ?_) fun hall => h hall.1
      exact call_line_ne hstale (List.cons.inj heq).1

/-! ## Calls that are broken off -/

/-- The mark is within the bytes that have been searched. -/
def Marked (buffer : LineBuffer) : Prop :=
  buffer.searched = 0 ∨ buffer.searched < buffer.bytes.length ∧ buffer.Intact

theorem Marked.intact (h : buffer.Marked) : buffer.Intact :=
  h.elim intact_of_searched_eq_zero And.right

theorem marked_extend (h : findCrlf? buffer.bytes = none) : (buffer.extend arrived).Marked := by
  rcases Nat.eq_zero_or_pos (buffer.bytes.length - 1) with hzero | hpos
  · exact Or.inl hzero
  · refine Or.inr ⟨?_, intact_extend h⟩
    simp only [extend, List.length_append]
    omega

theorem Marked.append (h : buffer.Marked) : (buffer.append arrived).Marked := by
  rcases h with hzero | ⟨hlt, hintact⟩
  · exact Or.inl hzero
  · refine Or.inr ⟨?_, fun n hn => ?_⟩
    · simp only [LineBuffer.append, List.length_append]
      omega
    · have hn : n < buffer.searched := hn
      exact (lineEndAt_append (by omega)).not.2 (hintact n hn)

/-- A search leaves the mark within what it has searched, or has not moved it in an empty buffer. -/
theorem marked_readLine (h : buffer.Marked ∨ buffer.bytes = []) :
    (buffer.readLine patience reads).2.1.Marked ∨
      (buffer.readLine patience reads).2.1 = buffer := by
  have hintact : buffer.Intact := h.elim Marked.intact intact_of_bytes_eq_nil
  fun_induction readLine patience buffer reads with
  | case1 reads buffer text rest ht =>
    obtain ⟨n, -, -, rfl⟩ := hintact.of_line ht
    exact Or.inl (Or.inl rfl)
  | case2 => exact Or.inr rfl
  | case3 buffer ht | case4 buffer ht | case6 buffer ht =>
    exact Or.inl (marked_extend (hintact.of_unfinished ht).1)
  | case5 buffer ht arrived reads hsome ih =>
    have hm : (buffer.extend arrived).Marked := marked_extend (hintact.of_unfinished ht).1
    rcases ih (Or.inl hm) hm.intact with hmarked | hsame
    · exact Or.inl hmarked
    · exact Or.inl (hsame.symm ▸ hm)
  | case7 buffer ht reads hpatience ih =>
    subst hpatience
    exact ih h hintact
  | case8 => exact Or.inr rfl

theorem Marked.readLine (h : buffer.Marked) : (buffer.readLine patience reads).2.1.Marked := by
  rcases marked_readLine (Or.inl h) with hmarked | hsame
  · exact hmarked
  · rwa [hsame]

theorem Marked.readExact (h : buffer.Marked) : (buffer.readExact patience n reads).2.1.Marked := by
  fun_induction LineBuffer.readExact patience n buffer reads with
  | case1 => exact Or.inl rfl
  | case4 buffer hlt arrived reads hsome ih => exact ih h.append
  | case6 buffer hlt reads hpatience ih =>
    subst hpatience
    exact ih h
  | _ => exact h

theorem marked_readExact_of_isDone (h : (buffer.readExact patience n reads).1.isDone) :
    (buffer.readExact patience n reads).2.1.Marked := by
  fun_induction LineBuffer.readExact patience n buffer reads with
  | case1 => exact Or.inl rfl
  | case4 buffer hlt arrived reads hsome ih => exact ih h
  | case6 buffer hlt reads hpatience ih =>
    subst hpatience
    exact ih h
  | _ => cases h

/-- A `discard` that is broken off has emptied the buffer, whatever the mark. -/
theorem discard_marked_or_empty :
    (buffer.discard patience n reads).1.isDone = true ∧
        (buffer.discard patience n reads).2.1.Marked ∨
      (buffer.discard patience n reads).1.isDone = false ∧
        (buffer.discard patience n reads).2.1.bytes = [] := by
  fun_induction LineBuffer.discard patience n buffer reads with
  | case1 => exact Or.inl ⟨rfl, Or.inl rfl⟩
  | case4 n buffer hlt left dropped arrived reads hsome ih => exact ih
  | case6 n buffer hlt left dropped reads hpatience ih =>
    subst hpatience
    exact ih
  | case2 n buffer hlt | case3 n buffer hlt | case5 n buffer hlt | case7 n buffer hlt =>
    exact Or.inr ⟨rfl, bytes_drop_of_lt hlt⟩

/-- A `discard` has not got to its end. -/
def discardBrokenOff : Call × Answer → Bool
  | (.discard _ _, answer) => !answer.isDone
  | _ => false

/-- A `readExact` has not got to its end. -/
def exactBrokenOff : Call × Answer → Bool
  | (.exact _ _, answer) => !answer.isDone
  | _ => false

theorem isDone_map {α β : Type} (f : α → β) (result : CallResult α) :
    (result.map f).isDone = result.isDone := by
  cases result <;> rfl

/-- Only a `discard` that is broken off lets a buffer have a mark beyond its bytes. Only a
`readExact` that is broken off puts bytes under such a mark. -/
theorem marked_call {c : Call} {calm : Prop}
    (h : buffer.Marked ∨
      buffer.bytes = [] ∧ calm ∧ exactBrokenOff (c, (buffer.call reads c).1) = false)
    (hcalm : discardBrokenOff (c, (buffer.call reads c).1) = true → calm) :
    (buffer.call reads c).2.1.Marked ∨ (buffer.call reads c).2.1.bytes = [] ∧ calm := by
  cases c with
  | line p =>
    rcases marked_readLine (h.imp_right And.left) with hmarked | hsame
    · exact Or.inl hmarked
    · have hsame : (buffer.call reads (.line p)).2.1 = buffer := hsame
      rw [hsame]
      exact h.imp_right fun ⟨hnil, hcalm, _⟩ => ⟨hnil, hcalm⟩
  | exact p n =>
    rcases h with hmarked | ⟨-, -, hdone⟩
    · exact Or.inl hmarked.readExact
    · simp only [exactBrokenOff, call, Prod.map, isDone_map, Bool.not_eq_false'] at hdone
      exact Or.inl (marked_readExact_of_isDone hdone)
  | discard p n =>
    have hdiscard : (buffer.discard p n reads).1.isDone = true ∧ _ ∨ _ := discard_marked_or_empty
    rcases hdiscard with ⟨-, hmarked⟩ | ⟨hbroken, hnil⟩
    · exact Or.inl hmarked
    · refine Or.inr ⟨hnil, hcalm ?_⟩
      simp only [discardBrokenOff, call, Prod.map, isDone_map, hbroken, Bool.not_false]

theorem runCalls_plain_of_pairwise
    (h : buffer.Marked ∨ buffer.bytes = [] ∧
      ∀ entry ∈ calls.zip (runCalls call buffer reads calls).1, exactBrokenOff entry = false)
    (hpairwise : (calls.zip (runCalls call buffer reads calls).1).Pairwise fun earlier later =>
      discardBrokenOff earlier = true → exactBrokenOff later = false) :
    (runCalls call buffer reads calls).1 =
      (runCalls PlainBuffer.call buffer.bytes reads calls).1 := by
  induction calls generalizing buffer reads with
  | nil => rfl
  | cons c calls ih =>
    have hintact : buffer.Intact :=
      h.elim Marked.intact fun hempty => intact_of_bytes_eq_nil hempty.1
    have hcall : withoutMark (buffer.call reads c) = _ := call_plain fun _ _ => hintact
    simp only [runCalls, List.zip_cons_cons, List.pairwise_cons, List.mem_cons,
      forall_eq_or_imp] at h hpairwise
    obtain ⟨hfirst, hrest⟩ := hpairwise
    have hnext := marked_call (h.imp_right fun ⟨hnil, hexact, hcalm⟩ => ⟨hnil, hcalm, hexact⟩)
      fun hbroken entry hmem => hfirst entry hmem hbroken
    simp only [runCalls, ← hcall, withoutMark, List.cons.injEq, true_and]
    exact ih hnext hrest

/-- A reader answers as one without a mark just when its buffer is intact whenever a line is wanted,
and in any case if no `readExact` is broken off after a `discard` that was. -/
theorem agrees_with_plain (reads : List Read) (calls : List Call) :
    (answers reads calls = PlainBuffer.answers reads calls ↔
      ∀ earlier p later, calls = earlier ++ .line p :: later → (after reads earlier).Intact) ∧
    ((calls.zip (answers reads calls)).Pairwise (fun earlier later =>
        discardBrokenOff earlier = true → exactBrokenOff later = false) →
      answers reads calls = PlainBuffer.answers reads calls) :=
  ⟨runCalls_plain_iff, runCalls_plain_of_pairwise (Or.inl (Or.inl rfl))⟩

/-- A line end is cut in two, and a `readExact` and a `discard` are given up in this order. -/
def interruptedReads : List Read :=
  [.bytes (ascii "aa\r"), .notReady, .bytes (ascii "\nbc"), .notReady, .bytes (ascii "de"),
    .notReady, .bytes (ascii "\r\nf\r\n")]

def interruptedCalls : List Call :=
  [.line .givesUp, .line .waits, .exact .givesUp 9, .discard .givesUp 9, .line .waits]

theorem agrees_with_plain_interrupted :
    (interruptedCalls.zip (answers interruptedReads interruptedCalls)).Pairwise
      (fun earlier later => discardBrokenOff earlier = true → exactBrokenOff later = false) ∧
    PlainBuffer.answers interruptedReads interruptedCalls =
      [.givenUp, .done (some (ascii "aa")), .givenUp, .givenUp, .done (some [])] := by
  have hpairwise : (interruptedCalls.zip (answers interruptedReads interruptedCalls)).Pairwise
      (fun earlier later => discardBrokenOff earlier = true → exactBrokenOff later = false) := by
    decide
  exact ⟨hpairwise, ((agrees_with_plain _ _).2 hpairwise).symm.trans (by decide)⟩

/-- Five bytes are searched and then dropped, and the line `x` comes in under their mark. -/
def staleReads : List Read :=
  [.bytes (ascii "aaaa"), .bytes (ascii "b"), .notReady, .notReady, .bytes (ascii "x\r\ny"),
    .notReady]

def staleCalls : List Call :=
  [.line .givesUp, .discard .givesUp 10, .exact .givesUp 10, .line .waits]

/-- The line `x` is never found. -/
theorem stale_mark :
    ¬∀ reads calls, answers reads calls = PlainBuffer.answers reads calls := by
  intro h
  have hmarked : answers staleReads staleCalls = [.givenUp, .givenUp, .givenUp, .ended] := by
    decide
  have hplain : PlainBuffer.answers staleReads staleCalls =
      [.givenUp, .givenUp, .givenUp, .done (some (ascii "x"))] := by decide
  have heq := h staleReads staleCalls
  rw [hmarked, hplain] at heq
  exact absurd heq (by decide)

end LineBuffer

end WorkQueue
