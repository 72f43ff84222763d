import WorkQueue.Proofs.Chunks
import WorkQueue.Proofs.Splitting

/-!
# Lines that are too long

A line counts as too long by what is there of it when it is searched, not by its length
(`readLine_answer`). One that fits the limit is always taken, however it comes in. A longer one is
refused just when some search finds more than `lineLimit` bytes and not yet its end
(`limited_iff`) : if its end comes with the read that goes over the limit, the line is taken as it
is. A line that is one byte too long has no room for such a search and is taken in any case
(`taken_of_one_over`).
-/

namespace WorkQueue

/-- What the next line comes to if its length alone decides. -/
def limitedLine (stream : Bytes) : CallResult Bytes :=
  match findCrlf? stream with
  | some n => if n + 2 ≤ lineLimit then .done (stream.take n) else .lineTooLong
  | none => if stream.length ≤ lineLimit then .ended else .lineTooLong

/-- How many bytes there are at each search, as long as the line goes on : those that were there,
and what each read adds. -/
def searchSizes (present : Nat) : List Read → List Nat
  | .bytes chunk :: reads => present :: searchSizes (present + chunk.length) reads
  | .notReady :: reads | .failure _ :: reads => searchSizes present reads
  | [] => [present]

/-- Some search finds more bytes than the limit, and the end of a line that ends at `size` has not
arrived. -/
def CaughtShort (sizes : List Nat) (size : Nat) : Prop :=
  ∃ found ∈ sizes, lineLimit < found ∧ found < size

instance (sizes : List Nat) (size : Nat) : Decidable (CaughtShort sizes size) :=
  inferInstanceAs (Decidable (∃ found ∈ sizes, _))

/-- What the next line comes to if it is searched at these sizes. -/
def searchedLine (stream : Bytes) (sizes : List Nat) : CallResult Bytes :=
  match findCrlf? stream with
  | some n => if CaughtShort sizes (n + 2) then .lineTooLong else .done (stream.take n)
  | none => if stream.length ≤ lineLimit then .ended else .lineTooLong

section Sizes

variable {reads : List Read} {sizes : List Nat} {present found size n : Nat}
  {buffer more stream : Bytes}

theorem mem_searchSizes : present ∈ searchSizes present reads := by
  fun_induction searchSizes present reads with
  | case1 => exact List.mem_cons_self
  | case2 _ _ ih | case3 _ _ _ ih => exact ih
  | case4 => exact List.mem_singleton_self _

theorem le_of_mem_searchSizes (h : found ∈ searchSizes present reads) : present ≤ found := by
  fun_induction searchSizes present reads with
  | case1 present chunk reads ih =>
    rcases List.mem_cons.1 h with rfl | hlater
    · exact Nat.le_refl _
    · exact Nat.le_of_add_right_le (ih hlater)
  | case2 _ _ ih | case3 _ _ _ ih => exact ih h
  | case4 present => exact Nat.le_of_eq (List.mem_singleton.1 h).symm

/-- A search that is within the limit is of no account. -/
theorem caughtShort_cons (h : present ≤ lineLimit) :
    CaughtShort (present :: sizes) size ↔ CaughtShort sizes size := by
  simp only [CaughtShort, List.mem_cons, exists_eq_or_imp, Nat.not_lt_of_le h, false_and, false_or]

/-- No line that fits is caught short, and none that is one byte longer. -/
theorem lt_of_caughtShort (h : CaughtShort sizes size) : lineLimit + 1 < size := by
  obtain ⟨found, -, hover, hunder⟩ := h
  omega

theorem length_lt_of_findCrlf? (hnone : findCrlf? buffer = none)
    (hsome : findCrlf? (buffer ++ more) = some n) : buffer.length < n + 2 := by
  by_contra hle
  have hend := (lineEndAt_append (by omega)).1 (findCrlf?_eq_some_iff.1 hsome).1
  exact findCrlf?_eq_none_iff.1 hnone n hend

theorem searchedLine_of_caughtShort (hsome : findCrlf? stream = some n)
    (h : CaughtShort sizes (n + 2)) : searchedLine stream sizes = .lineTooLong := by
  rw [searchedLine, hsome]
  exact if_pos h

theorem searchedLine_of_not_caughtShort (hsome : findCrlf? stream = some n)
    (h : ¬CaughtShort sizes (n + 2)) : searchedLine stream sizes = .done (stream.take n) := by
  rw [searchedLine, hsome]
  exact if_neg h

/-- A line that has its end is taken, whatever its length. -/
theorem searchedLine_found (h : findCrlf? buffer = some n) :
    searchedLine (buffer ++ more) (searchSizes buffer.length reads) = .done (buffer.take n) := by
  have hle := (findCrlf?_eq_some_iff.1 h).1.length_le
  rw [searchedLine_of_not_caughtShort (findCrlf?_append h),
    List.take_append_of_le_length (by omega)]
  rintro ⟨found, hfound, -, hunder⟩
  have hpresent := le_of_mem_searchSizes hfound
  omega

/-- A search over more bytes than the limit that finds no end is the last one. -/
theorem searchedLine_tooLong (hnone : findCrlf? buffer = none) (hlong : lineLimit < buffer.length) :
    searchedLine (buffer ++ more) (searchSizes buffer.length reads) = .lineTooLong := by
  cases hfirst : findCrlf? (buffer ++ more) with
  | some n =>
    have hlt := length_lt_of_findCrlf? hnone hfirst
    exact searchedLine_of_caughtShort hfirst ⟨buffer.length, mem_searchSizes, hlong, hlt⟩
  | none =>
    rw [searchedLine, hfirst]
    refine if_neg ?_
    rw [List.length_append]
    omega

theorem searchedLine_cons (h : present ≤ lineLimit) :
    searchedLine stream (present :: sizes) = searchedLine stream sizes := by
  simp only [searchedLine, caughtShort_cons h]

end Sizes

/-! ## One call -/

namespace PlainBuffer

variable {buffer unread : Bytes} {reads : List Read} {patience : Patience}

theorem readLine_tooLong (hnone : findCrlf? buffer = none) (hlong : lineLimit < buffer.length) :
    readLine patience buffer reads = (.lineTooLong, buffer, reads) := by
  rw [readLine.eq_def, hnone]
  exact if_pos hlong

theorem readLine_notReady (hnone : findCrlf? buffer = none) (hlen : buffer.length ≤ lineLimit) :
    readLine .waits buffer (.notReady :: reads) = readLine .waits buffer reads := by
  rw [readLine.eq_def, hnone]
  exact if_neg (Nat.not_lt_of_le hlen)

theorem readLine_givenUp (hnone : findCrlf? buffer = none) (hlen : buffer.length ≤ lineLimit) :
    (readLine .givesUp buffer (.notReady :: reads)).1 = .givenUp := by
  rw [readLine.eq_def, hnone]
  simp only [if_neg (Nat.not_lt_of_le hlen)]

/-- A search that ends the call answers by what has arrived. -/
theorem readLine_answer_of_ends
    (hends : ¬(findCrlf? buffer = none ∧ buffer.length ≤ lineLimit)) :
    (readLine patience buffer reads).1 =
      searchedLine (buffer ++ unread) (searchSizes buffer.length reads) := by
  cases hfirst : findCrlf? buffer with
  | some n => rw [readLine_of_some hfirst, searchedLine_found hfirst]
  | none =>
    have hlong : lineLimit < buffer.length := Nat.lt_of_not_le fun hle => hends ⟨hfirst, hle⟩
    rw [readLine_tooLong hfirst hlong, searchedLine_tooLong hfirst hlong]

theorem readLine_answer (hreads : Delivers reads unread)
    (hmet : (readLine patience buffer reads).1 ≠ .givenUp) :
    (readLine patience buffer reads).1 =
      searchedLine (buffer ++ unread) (searchSizes buffer.length reads) := by
  induction hreads generalizing buffer with
  | nil =>
    by_cases hgoes : findCrlf? buffer = none ∧ buffer.length ≤ lineLimit
    · rw [readLine.eq_def, searchedLine, List.append_nil, hgoes.1]
      simp only [if_pos hgoes.2, if_neg (Nat.not_lt_of_le hgoes.2)]
    · exact readLine_answer_of_ends hgoes
  | @notReady reads unread hreads ih =>
    by_cases hgoes : findCrlf? buffer = none ∧ buffer.length ≤ lineLimit
    · cases patience with
      | waits =>
        rw [readLine_notReady hgoes.1 hgoes.2] at hmet ⊢
        exact ih hmet
      | givesUp => exact absurd (readLine_givenUp hgoes.1 hgoes.2) hmet
    · exact readLine_answer_of_ends hgoes
  | @cons reads chunk unread hne hreads ih =>
    by_cases hgoes : findCrlf? buffer = none ∧ buffer.length ≤ lineLimit
    · rw [readLine_bytes hgoes.1 hgoes.2 hne] at hmet ⊢
      rw [ih hmet, List.append_assoc, List.length_append, searchSizes, searchedLine_cons hgoes.2]
    · exact readLine_answer_of_ends hgoes

end PlainBuffer

namespace LineBuffer

variable {buffer : LineBuffer} {reads : List Read} {unread : Bytes} {patience : Patience}

/-- The line is taken or refused by the sizes at which it is searched. -/
theorem Intact.readLine_answer (h : buffer.Intact) (hreads : Delivers reads unread)
    (hmet : (buffer.readLine patience reads).1 ≠ .givenUp) :
    (buffer.readLine patience reads).1 =
      searchedLine (buffer.bytes ++ unread) (searchSizes buffer.bytes.length reads) := by
  have hplain : (buffer.readLine patience reads).1 =
      (PlainBuffer.readLine patience buffer.bytes reads).1 := congrArg Prod.fst h.readLine_plain
  rw [hplain] at hmet ⊢
  exact PlainBuffer.readLine_answer hreads hmet

/-- A line of one byte more than the limit is taken, however it comes in. -/
theorem Intact.taken_of_one_over {n : Nat} (h : buffer.Intact) (hreads : Delivers reads unread)
    (hmet : (buffer.readLine patience reads).1 ≠ .givenUp)
    (hfirst : findCrlf? (buffer.bytes ++ unread) = some n) (hsize : n + 2 = lineLimit + 1) :
    (buffer.readLine patience reads).1 = .done ((buffer.bytes ++ unread).take n) := by
  rw [h.readLine_answer hreads hmet]
  exact searchedLine_of_not_caughtShort hfirst fun hcaught =>
    Nat.ne_of_lt (lt_of_caughtShort hcaught) hsize.symm

theorem done_ne_limitedLine {stream text : Bytes} {n : Nat} (hfirst : findCrlf? stream = some n)
    (hlong : lineLimit < n + 2) : .done text ≠ limitedLine stream := by
  rw [limitedLine, hfirst]
  simp only [if_neg (Nat.not_le_of_lt hlong), ne_eq, reduceCtorEq, not_false_eq_true]

/-- However a stream is split, a call that is not given up answers by the length of the line alone,
but for a line over the limit that is taken. It does answer so just when no line over the limit
gets by : some search finds too much of it and not yet its end. -/
theorem limited_iff (patience : Patience) (buffer : LineBuffer) (reads : List Read)
    (unread : Bytes) (hbuffer : buffer.Intact) (hreads : Delivers reads unread)
    (hmet : (buffer.readLine patience reads).1 ≠ .givenUp) :
    let stream := buffer.bytes ++ unread
    let answer := (buffer.readLine patience reads).1
    (answer = limitedLine stream ∨
      ∃ n, findCrlf? stream = some n ∧ lineLimit < n + 2 ∧ answer = .done (stream.take n)) ∧
    (answer = limitedLine stream ↔
      ∀ n, findCrlf? stream = some n → lineLimit < n + 2 →
        CaughtShort (searchSizes buffer.bytes.length reads) (n + 2)) := by
  intro stream answer
  have hanswer : answer = searchedLine stream (searchSizes buffer.bytes.length reads) :=
    hbuffer.readLine_answer hreads hmet
  cases hfirst : findCrlf? stream with
  | none =>
    have heq : answer = limitedLine stream := by
      rw [hanswer, searchedLine, limitedLine, hfirst]
    exact ⟨Or.inl heq, iff_of_true heq nofun⟩
  | some n =>
    simp only [Option.some.injEq, forall_eq', exists_eq_left']
    by_cases hcaught : CaughtShort (searchSizes buffer.bytes.length reads) (n + 2)
    · have hlong : ¬n + 2 ≤ lineLimit := by
        have hover := lt_of_caughtShort hcaught
        omega
      have heq : answer = limitedLine stream := by
        rw [hanswer, searchedLine_of_caughtShort hfirst hcaught, limitedLine, hfirst]
        exact (if_neg hlong).symm
      exact ⟨Or.inl heq, iff_of_true heq fun _ => hcaught⟩
    · have htaken : answer = .done (stream.take n) :=
        hanswer.trans (searchedLine_of_not_caughtShort hfirst hcaught)
      by_cases hfits : n + 2 ≤ lineLimit
      · have heq : answer = limitedLine stream := by
          rw [htaken, limitedLine, hfirst]
          exact (if_pos hfits).symm
        exact ⟨Or.inl heq, iff_of_true heq fun hlong => absurd hfits (Nat.not_le_of_lt hlong)⟩
      · have hlong : lineLimit < n + 2 := Nat.lt_of_not_le hfits
        refine ⟨Or.inr ⟨hlong, htaken⟩, iff_of_false ?_ fun h => hcaught (h hlong)⟩
        rw [htaken]
        exact done_ne_limitedLine hfirst hlong

def letters (n : Nat) : Bytes :=
  List.replicate n 97

theorem delivers_line (n : Nat) :
    Delivers [.bytes (letters n ++ crlf)] (letters n ++ crlf) := by
  have hne : letters n ++ crlf ≠ [] := List.append_ne_nil_of_right_ne_nil _ (by decide)
  simpa only [List.append_nil] using Delivers.cons hne .nil

/-- The carriage return comes in before its line feed. -/
theorem delivers_cut (n : Nat) :
    Delivers [.bytes (letters n ++ [13]), .notReady, .bytes [10]] (letters n ++ crlf) := by
  have hne : letters n ++ [13] ≠ [] := List.append_ne_nil_of_right_ne_nil _ (by decide)
  have hreads := Delivers.cons hne (.notReady (.cons (List.cons_ne_nil 10 []) .nil))
  rw [List.append_assoc] at hreads
  exact hreads

/-- A line of two bytes too many, with its end cut in two and in one piece. -/
theorem limited_iff_cut :
    (readLine .waits {} [.bytes (letters 224 ++ [13]), .notReady, .bytes [10]]).1 =
        limitedLine (letters 224 ++ crlf) ∧
      (readLine .waits {} [.bytes (letters 224 ++ crlf)]).1 ≠
        limitedLine (letters 224 ++ crlf) := by
  have hnew : Intact {} := intact_of_searched_eq_zero rfl
  have hfirst : findCrlf? (letters 224 ++ crlf) = some 224 := by decide +kernel
  constructor
  · refine (limited_iff .waits {} _ _ hnew (delivers_cut 224) (by decide +kernel)).2.2 ?_
    intro n hn _
    obtain rfl : 224 = n := Option.some.inj (hfirst.symm.trans hn)
    decide +kernel
  · intro heq
    have hcaught := (limited_iff .waits {} _ _ hnew (delivers_line 224) (by decide +kernel)).2.1 heq
      224 hfirst (by decide)
    exact absurd hcaught (by decide +kernel)

/-- A line of one byte too many is taken. -/
theorem one_over_taken :
    ¬∀ reads stream, Delivers reads stream →
      (readLine .waits {} reads).1 = limitedLine stream := by
  intro h
  exact absurd (h _ _ (delivers_line 223)) (by decide +kernel)

end LineBuffer

end WorkQueue
