import WorkQueue.Proofs.Chunks
import WorkQueue.Proofs.Dropping
import WorkQueue.Proofs.Framing

/-!
# What calls take

A call that does not wait takes its bytes off the front of those in hand and those that the next
reads bring (`Takes`), whatever is behind them. If it does not get what it was made for, it has come
to a read that brings nothing, and there is not enough before that, or it has found a line that is
too long (`Halts`).

So a reader cuts its stream into requests (`Cut`), and what has been cut off stays as it is when
more arrives.
-/

namespace WorkQueue

variable {α : Type} {stream rest behind more : Bytes}

/-! ## Requests -/

/-- A stream starts with these requests, and goes on with the rest. -/
inductive Cut : Bytes → List Piece → Bytes → Prop
  | nil (stream : Bytes) : Cut stream [] stream
  | cons {stream behind rest : Bytes} {piece : Piece} {pieces : List Piece}
      (hfirst : Piece.first? stream = some (piece, behind)) (h : Cut behind pieces rest) :
      Cut stream (piece :: pieces) rest

section Cut

variable {piece : Piece} {pieces : List Piece}

/-- A request that is complete stays as it is. -/
theorem Piece.first?_append (h : first? stream = some (piece, behind)) :
    first? (stream ++ more) = some (piece, behind ++ more) := by
  rw [first?, Option.bind_eq_some_iff] at h
  obtain ⟨n, hn, h⟩ := h
  have hle := (findCrlf?_eq_some_iff.1 hn).1.length_le
  have htake : (stream ++ more).take n = stream.take n :=
    List.take_append_of_le_length (by omega)
  have hdrop : (stream ++ more).drop (n + 2) = stream.drop (n + 2) ++ more :=
    List.drop_append_of_le_length hle
  rw [first?, findCrlf?_append hn, Option.bind_some]
  dsimp only at h ⊢
  rw [htake, hdrop]
  split at h
  · split at h
    · next hlen =>
      obtain ⟨rfl, rfl⟩ := Prod.mk.inj (Option.some.inj h)
      rw [if_pos (Nat.le_trans hlen (List.length_append ▸ Nat.le_add_right _ _)),
        List.take_append_of_le_length hlen, List.drop_append_of_le_length hlen]
    · cases h
  · obtain ⟨rfl, rfl⟩ := Prod.mk.inj (Option.some.inj h)
    rfl

theorem Cut.append (h : Cut stream pieces rest) : Cut (stream ++ more) pieces (rest ++ more) := by
  induction h with
  | nil => exact .nil _
  | cons hfirst _ ih => exact .cons (Piece.first?_append hfirst) ih

theorem Cut.concat (h : Cut stream pieces rest)
    (hfirst : Piece.first? rest = some (piece, behind)) :
    Cut stream (pieces ++ [piece]) behind := by
  induction h with
  | nil => exact .cons hfirst (.nil _)
  | cons hnext _ ih => exact .cons hnext (ih hfirst)

end Cut

/-! ## Sources -/

/-- The bytes that reads bring, up to the first read that brings none. -/
def streamOf : List Read → Bytes
  | .bytes (byte :: chunk) :: reads => byte :: chunk ++ streamOf reads
  | _ => []

/-- A read that brings no bytes now nor later is next. -/
inductive Over : List Read → Prop
  | ended (reads : List Read) : Over (.bytes [] :: reads)
  | failed (message : String) (reads : List Read) : Over (.failure message :: reads)

/-- Bytes in hand, and the reads behind them. -/
abbrev Source := Bytes × List Read

/-- All that a source has for now. -/
def ahead (source : Source) : Bytes :=
  source.1 ++ streamOf source.2

/-- Bytes come off the front of a source. -/
def Takes (source : Source) (taken : Bytes) (left : Source) : Prop :=
  ∃ arrived, Brings left.2 source.2 arrived ∧ source.1 ++ arrived = taken ++ left.1

section Sources

variable {reads middle later : List Read} {source left last : Source} {bytes taken : Bytes}

theorem Over.append (h : Over reads) (more : List Read) : Over (reads ++ more) := by
  cases h with
  | ended => exact .ended _
  | failed => exact .failed _ _

theorem Over.streamOf (h : Over reads) : streamOf reads = [] := by
  cases h <;> rfl

theorem Brings.streamOf (h : Brings later reads bytes) :
    streamOf reads = bytes ++ streamOf later := by
  induction h with
  | nil => rfl
  | @cons reads chunk bytes hne _ ih =>
    obtain ⟨byte, chunk, rfl⟩ := List.exists_cons_of_ne_nil hne
    rw [WorkQueue.streamOf, ih, List.append_assoc]

theorem Brings.trans (h : Brings middle reads bytes) (h' : Brings later middle more) :
    Brings later reads (bytes ++ more) := by
  induction h with
  | nil => exact h'
  | cons hne _ ih => exact List.append_assoc .. ▸ .cons hne ih

/-- Reads that bring bytes come before one that is not ready. -/
theorem Brings.of_concat (h : Brings later (reads ++ [.notReady]) bytes) :
    ∃ behind, later = behind ++ [.notReady] ∧ Brings behind reads bytes := by
  induction reads generalizing bytes with
  | nil =>
    cases h with
    | nil => exact ⟨[], rfl, .nil⟩
  | cons read rest ih =>
    rw [List.cons_append] at h
    cases h with
    | nil => exact ⟨read :: rest, rfl, .nil⟩
    | cons hne h =>
      obtain ⟨behind, hlater, hrest⟩ := ih h
      exact ⟨behind, hlater, .cons hne hrest⟩

theorem streamOf_concat (reads : List Read) :
    streamOf (reads ++ [.notReady]) = streamOf reads := by
  induction reads with
  | nil => rfl
  | cons read rest ih =>
    cases read with
    | bytes chunk =>
      cases chunk with
      | nil => rfl
      | cons byte chunk => rw [List.cons_append, streamOf, streamOf, ih]
    | notReady | failure => rfl

namespace Takes

theorem refl (source : Source) : Takes source [] source :=
  ⟨[], .nil, List.append_nil _⟩

theorem trans (h : Takes source taken left) (h' : Takes left more last) :
    Takes source (taken ++ more) last := by
  obtain ⟨arrived, hreads, hbytes⟩ := h
  obtain ⟨arrived', hreads', hbytes'⟩ := h'
  refine ⟨arrived ++ arrived', hreads.trans hreads', ?_⟩
  rw [← List.append_assoc, hbytes, List.append_assoc, hbytes', List.append_assoc]

theorem ahead_eq (h : Takes source taken left) : ahead source = taken ++ ahead left := by
  obtain ⟨arrived, hreads, hbytes⟩ := h
  rw [ahead, hreads.streamOf, ← List.append_assoc, hbytes, List.append_assoc]
  rfl

/-- More reads come to be behind a source. -/
theorem arrive (h : Takes source taken left) (more : List Read) :
    Takes (source.1, source.2 ++ more) taken (left.1, left.2 ++ more) := by
  obtain ⟨arrived, hreads, hbytes⟩ := h
  exact ⟨arrived, hreads.append, hbytes⟩

theorem of_concat (h : Takes (bytes, reads ++ [.notReady]) taken left) :
    ∃ behind, left.2 = behind ++ [.notReady] ∧ Takes (bytes, reads) taken (left.1, behind) := by
  obtain ⟨arrived, hreads, hbytes⟩ := h
  obtain ⟨behind, hleft, hreads⟩ := hreads.of_concat
  exact ⟨behind, hleft, arrived, hreads, hbytes⟩

/-- The first read is made. -/
theorem read {chunk : Bytes} (hne : chunk ≠ []) (h : Takes (bytes ++ chunk, reads) taken left) :
    Takes (bytes, .bytes chunk :: reads) taken left := by
  obtain ⟨arrived, hreads, hbytes⟩ := h
  exact ⟨chunk ++ arrived, .cons hne hreads, List.append_assoc .. ▸ hbytes⟩

end Takes

end Sources

/-! ## Calls -/

/-- A call has not got what it was made for, and is not to be made again. -/
def CallResult.isBroken : CallResult α → Bool
  | done _ | givenUp => false
  | ended | lineTooLong | failure _ => true

theorem CallResult.isDone_of_isBroken {result : CallResult α} (h : result.isBroken = true) :
    result.isDone = false := by
  cases result with
  | done => cases h
  | _ => rfl

/-- A line goes on beyond the limit. -/
def Overlong (bytes : Bytes) : Prop :=
  findCrlf? bytes = none ∧ lineLimit < bytes.length

/-- Where a call that is not done has come to, with the bytes that it has found : they lack
something, and no more come, or they are too long. -/
inductive Halts (lacks long : Bytes → Prop) : CallResult α → Source → Prop
  | out {bytes : Bytes} (h : lacks bytes) : Halts lacks long .ended (bytes, [])
  | ended {bytes : Bytes} (h : lacks bytes) (reads : List Read) :
      Halts lacks long .ended (bytes, .bytes [] :: reads)
  | failed {bytes : Bytes} (h : lacks bytes) (message : String) (reads : List Read) :
      Halts lacks long (.failure message) (bytes, .failure message :: reads)
  | givenUp {bytes : Bytes} (h : lacks bytes) (reads : List Read) :
      Halts lacks long .givenUp (bytes, .notReady :: reads)
  | tooLong {bytes : Bytes} (h : long bytes) (reads : List Read) :
      Halts lacks long .lineTooLong (bytes, reads)

theorem Halts.lacks_ahead {lacks long : Bytes → Prop} {left : Source}
    (h : Halts lacks long (.givenUp : CallResult α) left) : lacks (ahead left) := by
  cases h with
  | @givenUp bytes h reads =>
    have hnothing : ahead (bytes, .notReady :: reads) = bytes := List.append_nil bytes
    rwa [hnothing]

theorem Halts.map {β : Type} {f : α → β} {lacks long : Bytes → Prop} {result : CallResult α}
    {left : Source} (h : Halts lacks long result left) :
    Halts lacks long (result.map f) left := by
  cases h with
  | out h => exact .out h
  | ended h reads => exact .ended h reads
  | failed h message reads => exact .failed h message reads
  | givenUp h reads => exact .givenUp h reads
  | tooLong h reads => exact .tooLong h reads

/-- What a call comes to that is made on a source. -/
structure Meets (source : Source) (fits : α → Bytes → Prop) (lacks long : Bytes → Prop)
    (call : CallResult α × Source) : Prop where
  done : ∀ got, call.1 = .done got → ∃ taken, fits got taken ∧ Takes source taken call.2
  halts : call.1.isDone = false → ∃ left, Takes source [] left ∧ Halts lacks long call.1 left

namespace Meets

variable {source : Source} {bytes : Bytes} {fits : α → Bytes → Prop} {lacks long : Bytes → Prop}
  {call : CallResult α × Source} {result : CallResult α} {left : Source} {reads : List Read}

theorem of_done {got : α} {taken : Bytes} (hfits : fits got taken)
    (h : Takes source taken left) : Meets source fits lacks long (.done got, left) where
  done _ heq := CallResult.done.inj heq ▸ ⟨taken, hfits, h⟩
  halts := nofun

theorem of_halts (h : Halts lacks long result source) :
    Meets source fits lacks long (result, left) where
  done _ heq := by
    obtain rfl : result = _ := heq
    cases h
  halts _ := ⟨source, .refl source, h⟩

theorem read {chunk : Bytes} (hne : chunk ≠ [])
    (h : Meets (bytes ++ chunk, reads) fits lacks long call) :
    Meets (bytes, .bytes chunk :: reads) fits lacks long call where
  done got hgot := by
    obtain ⟨taken, hfits, htakes⟩ := h.done got hgot
    exact ⟨taken, hfits, htakes.read hne⟩
  halts hnot := by
    obtain ⟨left, htakes, hhalts⟩ := h.halts hnot
    exact ⟨left, htakes.read hne, hhalts⟩

end Meets

namespace PlainBuffer

variable {patience : Patience} (hp : patience = .givesUp)

include hp

theorem meets_readLine (buffer : Bytes) (reads : List Read) : Meets (buffer, reads)
    (fun line taken => IsLine line ∧ taken = line ++ crlf) (findCrlf? · = none) Overlong
    (readLine patience buffer reads) := by
  fun_induction readLine patience buffer reads with
  | case1 reads buffer n hfirst =>
    refine .of_done ⟨isLine_take hfirst, rfl⟩ ⟨[], .nil, ?_⟩
    rw [List.append_nil, take_append_crlf hfirst]
  | case2 reads buffer hnone hlong => exact .of_halts (.tooLong ⟨hnone, hlong⟩ reads)
  | case3 buffer hnone => exact .of_halts (.out hnone)
  | case4 buffer hnone _ reads => exact .of_halts (.ended hnone reads)
  | case5 _ _ _ _ _ hne ih => exact ih.read hne
  | case6 buffer hnone _ message reads => exact .of_halts (.failed hnone message reads)
  | case7 _ _ _ _ hwaits => cases hp.symm.trans hwaits
  | case8 buffer hnone _ reads => exact .of_halts (.givenUp hnone reads)

theorem meets_readExact (n : Nat) (buffer : Bytes) (reads : List Read) : Meets (buffer, reads)
    (fun block taken => block.length = n ∧ taken = block) (·.length < n) (fun _ => False)
    (readExact patience n buffer reads) := by
  fun_induction readExact patience n buffer reads with
  | case1 reads buffer hle =>
    refine .of_done ⟨List.length_take_of_le hle, rfl⟩ ⟨[], .nil, ?_⟩
    rw [List.append_nil, List.take_append_drop]
  | case2 buffer hlt => exact .of_halts (.out (Nat.lt_of_not_le hlt))
  | case3 buffer hlt reads => exact .of_halts (.ended (Nat.lt_of_not_le hlt) reads)
  | case4 _ _ _ _ hne ih => exact ih.read hne
  | case5 buffer hlt message reads =>
    exact .of_halts (.failed (Nat.lt_of_not_le hlt) message reads)
  | case6 _ _ _ hwaits => cases hp.symm.trans hwaits
  | case7 buffer hlt reads => exact .of_halts (.givenUp (Nat.lt_of_not_le hlt) reads)

end PlainBuffer

namespace LineBuffer

variable {buffer : LineBuffer}

theorem meets_readLine (h : buffer.Intact) (reads : List Read) : Meets (buffer.bytes, reads)
    (fun line taken => IsLine line ∧ taken = line ++ crlf) (findCrlf? · = none) Overlong
    (withoutMark (buffer.readLine .givesUp reads)) :=
  h.readLine_plain ▸ PlainBuffer.meets_readLine rfl buffer.bytes reads

theorem meets_readExact (n : Nat) (buffer : LineBuffer) (reads : List Read) :
    Meets (buffer.bytes, reads) (fun block taken => block.length = n ∧ taken = block) (·.length < n)
      (fun _ => False) (withoutMark (buffer.readExact .givesUp n reads)) :=
  readExact_plain ▸ PlainBuffer.meets_readExact rfl n buffer.bytes reads

/-- Bytes that are dropped are taken. -/
theorem meets_discard (n : Nat) (buffer : LineBuffer) (reads : List Read) :
    Meets (buffer.bytes, reads) (fun _ taken => taken.length = n) (·.length < n) (fun _ => False)
      (withoutMark (buffer.discard .givesUp n reads)) := by
  obtain ⟨hanswer, hposition⟩ := discard_passes .givesUp n buffer reads
  have hmeets := meets_readExact n buffer reads
  refine ⟨fun _ hgot => ?_, fun hnot => ?_⟩
  · have hgot : (buffer.discard .givesUp n reads).1 = .done () := hgot
    have hleft : (withoutMark (buffer.discard .givesUp n reads)).2 =
        (withoutMark (buffer.readExact .givesUp n reads)).2 :=
      congrArg (fun left : LineBuffer × List Read => (left.1.bytes, left.2))
        (hposition (congrArg CallResult.isDone hgot))
    cases htaken : (buffer.readExact .givesUp n reads).1 with
    | done block =>
      obtain ⟨taken, ⟨hlen, rfl⟩, htakes⟩ := hmeets.done block htaken
      exact ⟨taken, hlen, hleft ▸ htakes⟩
    | _ => simp [hanswer, htaken, CallResult.map] at hgot
  · have hsame : (buffer.discard .givesUp n reads).1.isDone = _ :=
      hanswer ▸ isDone_map (fun _ => ()) (buffer.readExact .givesUp n reads).1
    obtain ⟨left, htakes, hhalts⟩ := hmeets.halts (hsame.symm.trans hnot)
    exact ⟨left, htakes, hanswer ▸ hhalts.map⟩

end LineBuffer

end WorkQueue
