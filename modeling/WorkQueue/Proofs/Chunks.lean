import WorkQueue.Proofs.SearchMark

/-!
# Bytes that arrive in chunks

The bytes of a stream come in by reads (`Brings`), and where one read ends and the next begins makes
no difference to a call. If the bytes of the buffer and of the reads have what it is made for, it is
done, and the rest is left in the buffer and in the reads. If they do not, it comes to what is
behind these reads with all the bytes in hand.

A line is found in any case if it is short. A longer one may be given up or not, depending on how
much of it arrives at a time.
-/

namespace WorkQueue

/-- Reads that bring bytes, each some of them, before what is behind. -/
inductive Brings (behind : List Read) : List Read → Bytes → Prop
  | nil : Brings behind behind []
  | cons {reads : List Read} {chunk bytes : Bytes} (hne : chunk ≠ [])
      (h : Brings behind reads bytes) : Brings behind (.bytes chunk :: reads) (chunk ++ bytes)

namespace Brings

variable {behind more reads : List Read} {bytes chunk : Bytes}

theorem append (h : Brings behind reads bytes) : Brings (behind ++ more) (reads ++ more) bytes := by
  induction h with
  | nil => exact .nil
  | cons hne _ ih => exact .cons hne ih

theorem dropLast {last : Read} (h : Brings (behind ++ [last]) reads bytes) :
    Brings behind reads.dropLast bytes := by
  induction h with
  | nil => exact List.dropLast_concat ▸ .nil
  | @cons reads chunk bytes hne h ih =>
    have hreads : reads ≠ [] := by
      cases h with
      | nil => simp
      | cons => exact List.cons_ne_nil _ _
    rw [List.dropLast_cons_of_ne_nil hreads]
    exact .cons hne ih

/-- Another chunk arrives. -/
theorem concat (h : Brings [] reads bytes) (hne : chunk ≠ []) :
    Brings [] (reads ++ [.bytes chunk]) (bytes ++ chunk) := by
  induction h with
  | nil => simpa using Brings.cons hne .nil
  | cons hne' _ ih => exact List.append_assoc _ _ chunk ▸ .cons hne' ih

theorem size (h : Brings behind reads bytes) :
    reads.foldr (fun read n => read.size + n) 0 =
      bytes.length + behind.foldr (fun read n => read.size + n) 0 := by
  induction h with
  | nil => simp
  | cons _ _ ih =>
    rw [List.foldr_cons, ih, List.length_append, Nat.add_assoc]
    rfl

end Brings

/-- A call is done, and the bytes that are left are in the buffer and in reads before those behind.
-/
structure Gets {α : Type} (behind : List Read) (result : CallResult α × Bytes × List Read)
    (got : α) (left : Bytes) : Prop where
  answer : result.1 = .done got
  left : ∃ unread, Brings behind result.2.2 unread ∧ result.2.1 ++ unread = left

namespace PlainBuffer

variable {behind reads : List Read} {bytes buffer : Bytes} {n : Nat} {patience : Patience}

theorem readLine_of_some (h : findCrlf? buffer = some n) :
    readLine patience buffer reads = (.done (buffer.take n), buffer.drop (n + 2), reads) := by
  rw [readLine.eq_def, h]

/-- A read brings more of a line that is not too long yet. -/
theorem readLine_bytes {chunk : Bytes} (hnone : findCrlf? buffer = none)
    (hlen : buffer.length ≤ lineLimit) (hne : chunk ≠ []) :
    readLine patience buffer (.bytes chunk :: reads) =
      readLine patience (buffer ++ chunk) reads := by
  obtain ⟨b, chunk, rfl⟩ := List.exists_cons_of_ne_nil hne
  rw [readLine.eq_def, hnone]
  exact if_neg (Nat.not_lt_of_le hlen)

theorem readLine_gets (h : Brings behind reads bytes)
    (hfirst : findCrlf? (buffer ++ bytes) = some n) (hn : n + 2 ≤ lineLimit) :
    Gets behind (readLine patience buffer reads) ((buffer ++ bytes).take n)
      ((buffer ++ bytes).drop (n + 2)) := by
  induction h generalizing buffer with
  | nil =>
    rw [List.append_nil] at hfirst ⊢
    rw [readLine_of_some hfirst]
    exact ⟨rfl, [], .nil, List.append_nil _⟩
  | @cons reads chunk bytes hne h ih =>
    cases hbuffer : findCrlf? buffer with
    | some m =>
      obtain rfl : m = n := Option.some.inj ((findCrlf?_append hbuffer).symm.trans hfirst)
      have hle := (findCrlf?_eq_some_iff.1 hbuffer).1.length_le
      rw [readLine_of_some hbuffer]
      refine ⟨?_, chunk ++ bytes, .cons hne h, ?_⟩
      · rw [List.take_append_of_le_length (by omega)]
      · rw [List.drop_append_of_le_length hle]
    | none =>
      have hlen : buffer.length ≤ n + 1 := by
        by_contra hlt
        have hend := (lineEndAt_append (by omega)).1 (findCrlf?_eq_some_iff.1 hfirst).1
        exact findCrlf?_eq_none_iff.1 hbuffer n hend
      rw [readLine_bytes hbuffer (by omega) hne, ← List.append_assoc]
      exact ih (by rwa [List.append_assoc])

theorem readLine_unfinished (h : Brings behind reads bytes)
    (hnone : findCrlf? (buffer ++ bytes) = none) (hlen : (buffer ++ bytes).length ≤ lineLimit) :
    readLine patience buffer reads = readLine patience (buffer ++ bytes) behind := by
  induction h generalizing buffer with
  | nil => rw [List.append_nil]
  | @cons reads chunk bytes hne h ih =>
    have hbuffer : findCrlf? buffer = none := by
      cases hbuffer : findCrlf? buffer with
      | none => rfl
      | some m => exact absurd ((findCrlf?_append hbuffer).symm.trans hnone) nofun
    have hle : buffer.length ≤ lineLimit := by
      rw [List.length_append] at hlen
      omega
    rw [← List.append_assoc] at hnone hlen ⊢
    rw [readLine_bytes hbuffer hle hne]
    exact ih hnone hlen

theorem readExact_gets (h : Brings behind reads bytes) (hn : n ≤ (buffer ++ bytes).length) :
    Gets behind (readExact patience n buffer reads) ((buffer ++ bytes).take n)
      ((buffer ++ bytes).drop n) := by
  induction h generalizing buffer with
  | nil =>
    rw [List.append_nil] at hn ⊢
    rw [readExact.eq_def, if_pos hn]
    exact ⟨rfl, [], .nil, List.append_nil _⟩
  | @cons reads chunk bytes hne h ih =>
    by_cases hle : n ≤ buffer.length
    · rw [readExact.eq_def, if_pos hle, List.take_append_of_le_length hle,
        List.drop_append_of_le_length hle]
      exact ⟨rfl, chunk ++ bytes, .cons hne h, rfl⟩
    · obtain ⟨b, chunk, rfl⟩ := List.exists_cons_of_ne_nil hne
      rw [← List.append_assoc] at hn ⊢
      rw [readExact.eq_def, if_neg hle]
      exact ih hn

theorem readExact_unfinished (h : Brings behind reads bytes)
    (hn : ¬n ≤ (buffer ++ bytes).length) :
    readExact patience n buffer reads = readExact patience n (buffer ++ bytes) behind := by
  induction h generalizing buffer with
  | nil => rw [List.append_nil]
  | @cons reads chunk bytes hne h ih =>
    have hle : ¬n ≤ buffer.length := by
      rw [List.length_append] at hn
      omega
    obtain ⟨b, chunk, rfl⟩ := List.exists_cons_of_ne_nil hne
    rw [← List.append_assoc] at hn ⊢
    rw [readExact.eq_def, if_neg hle]
    exact ih hn

theorem discard_gets (h : Brings behind reads bytes) (hn : n ≤ (buffer ++ bytes).length) :
    Gets behind (discard patience n buffer reads) () ((buffer ++ bytes).drop n) := by
  induction h generalizing buffer n with
  | nil =>
    rw [List.append_nil] at hn ⊢
    rw [discard.eq_def, if_pos hn]
    exact ⟨rfl, [], .nil, List.append_nil _⟩
  | @cons reads chunk bytes hne h ih =>
    by_cases hle : n ≤ buffer.length
    · rw [discard.eq_def, if_pos hle, List.drop_append_of_le_length hle]
      exact ⟨rfl, chunk ++ bytes, .cons hne h, rfl⟩
    · obtain ⟨b, chunk, rfl⟩ := List.exists_cons_of_ne_nil hne
      rw [discard.eq_def, if_neg hle, List.drop_append,
        List.drop_eq_nil_of_le (Nat.le_of_not_le hle), List.nil_append]
      rw [List.length_append] at hn
      exact ih (by omega)

/-- A buffer that is too short has been dropped before the next read. -/
theorem discard_of_lt (h : ¬n ≤ buffer.length) :
    discard patience n buffer reads = discard patience (n - buffer.length) [] reads := by
  have hleft : ¬n - buffer.length ≤ ([] : Bytes).length := by
    rw [List.length_nil]
    omega
  rw [discard.eq_def, discard.eq_def patience (n - buffer.length), if_neg h, if_neg hleft]
  rfl

theorem discard_unfinished (h : Brings behind reads bytes) (hn : ¬n ≤ (buffer ++ bytes).length) :
    discard patience n buffer reads = discard patience n (buffer ++ bytes) behind := by
  induction h generalizing buffer n with
  | nil => rw [List.append_nil]
  | @cons reads chunk bytes hne h ih =>
    have hlen := hn
    rw [List.length_append] at hlen
    have hrest : ¬n - buffer.length ≤ (chunk ++ bytes).length := by omega
    calc discard patience n buffer (.bytes chunk :: reads)
        = discard patience (n - buffer.length) chunk reads := by
          obtain ⟨b, chunk, rfl⟩ := List.exists_cons_of_ne_nil hne
          rw [discard.eq_def, if_neg (by omega)]
      _ = discard patience (n - buffer.length) (chunk ++ bytes) behind := ih hrest
      _ = discard patience (n - (buffer ++ (chunk ++ bytes)).length) [] behind := by
          rw [discard_of_lt hrest, Nat.sub_sub, ← List.length_append]
      _ = discard patience n (buffer ++ (chunk ++ bytes)) behind := (discard_of_lt hn).symm

end PlainBuffer

end WorkQueue
