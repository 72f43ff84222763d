import Mathlib.Logic.Basic
import Mathlib.Tactic.ByContra
import WorkQueue.Stream.LineBuffer

/-!
# Line ends in a string of bytes

`findCrlf?` gives the first position at which a line end starts (`findCrlf?_eq_some_iff`). The
positions before some point may be left out of the search if no line end starts there
(`findCrlf?_drop`).
-/

namespace WorkQueue

/-- A line end starts at a position. -/
def LineEndAt (bytes : Bytes) (n : Nat) : Prop :=
  crlf <+: bytes.drop n

instance (bytes : Bytes) (n : Nat) : Decidable (LineEndAt bytes n) :=
  inferInstanceAs (Decidable (crlf <+: bytes.drop n))

variable {bytes more : Bytes} {m n : Nat}

theorem LineEndAt.length_le (h : LineEndAt bytes n) : n + 2 ≤ bytes.length := by
  have hle : 2 ≤ (bytes.drop n).length := List.IsPrefix.length_le h
  rw [List.length_drop] at hle
  omega

theorem lineEndAt_drop : LineEndAt (bytes.drop m) n ↔ LineEndAt bytes (m + n) := by
  rw [LineEndAt, LineEndAt, List.drop_drop]

/-- Bytes that come later make no line end within those that are there. -/
theorem lineEndAt_append (h : n + 2 ≤ bytes.length) :
    LineEndAt (bytes ++ more) n ↔ LineEndAt bytes n := by
  rw [LineEndAt, LineEndAt, List.drop_append_of_le_length (by omega)]
  refine ⟨fun hp => ?_, fun hp => hp.trans (List.prefix_append _ _)⟩
  exact List.prefix_of_prefix_length_le hp (List.prefix_append _ _)
    (by simp only [crlf, List.length_cons, List.length_nil, List.length_drop]; omega)

/-! ## The first one -/

theorem findCrlf?_of_lineEndAt_zero (h : LineEndAt bytes 0) : findCrlf? bytes = some 0 := by
  obtain ⟨rest, rfl⟩ := h
  rfl

theorem findCrlf?_of_not_lineEndAt_zero (h : ¬LineEndAt bytes 0) :
    findCrlf? bytes = (findCrlf? (bytes.drop 1)).map (· + 1) := by
  fun_cases findCrlf? bytes with
  | case1 rest => exact absurd ⟨rest, rfl⟩ h
  | case2 => rfl
  | case3 => rfl

/-- A search may start later if no line end starts before. -/
theorem findCrlf?_drop (h : ∀ k < m, ¬LineEndAt bytes k) :
    findCrlf? bytes = (findCrlf? (bytes.drop m)).map (· + m) := by
  induction m with
  | zero => simp
  | succ m ih =>
    have hm : ¬LineEndAt (bytes.drop m) 0 := lineEndAt_drop.not.2 (h m (Nat.lt_succ_self m))
    rw [ih fun k hk => h k (Nat.lt_succ_of_lt hk), findCrlf?_of_not_lineEndAt_zero hm,
      List.drop_drop, Option.map_map]
    exact congrArg (Option.map · _) (funext fun k => by simp only [Function.comp]; omega)

theorem findCrlf?_eq_none_iff : findCrlf? bytes = none ↔ ∀ n, ¬LineEndAt bytes n := by
  constructor
  · intro hnone n
    induction n generalizing bytes with
    | zero => exact fun h => by simp [findCrlf?_of_lineEndAt_zero h] at hnone
    | succ n ih =>
      by_cases h : LineEndAt bytes 0
      · simp [findCrlf?_of_lineEndAt_zero h] at hnone
      · rw [findCrlf?_of_not_lineEndAt_zero h, Option.map_eq_none_iff] at hnone
        rw [Nat.add_comm, ← lineEndAt_drop]
        exact ih hnone
  · intro h
    rw [findCrlf?_drop (m := bytes.length) fun k _ => h k, List.drop_length]
    rfl

theorem findCrlf?_eq_some_iff :
    findCrlf? bytes = some n ↔ LineEndAt bytes n ∧ ∀ k < n, ¬LineEndAt bytes k := by
  constructor
  · intro hsome
    induction n generalizing bytes with
    | zero =>
      refine ⟨?_, fun k hk => absurd hk (Nat.not_lt_zero k)⟩
      by_contra h
      rw [findCrlf?_of_not_lineEndAt_zero h] at hsome
      simp at hsome
    | succ n ih =>
      have h : ¬LineEndAt bytes 0 := fun h => by simp [findCrlf?_of_lineEndAt_zero h] at hsome
      rw [findCrlf?_of_not_lineEndAt_zero h, Option.map_eq_some_iff] at hsome
      obtain ⟨k, hfirst, heq⟩ := hsome
      obtain rfl : k = n := Nat.succ.inj heq
      obtain ⟨hat, hbefore⟩ := ih hfirst
      refine ⟨Nat.add_comm k 1 ▸ lineEndAt_drop.1 hat, fun j hj => ?_⟩
      cases j with
      | zero => exact h
      | succ j => exact Nat.add_comm j 1 ▸ lineEndAt_drop.not.1 (hbefore j (by omega))
  · rintro ⟨hat, hbefore⟩
    rw [findCrlf?_drop hbefore, findCrlf?_of_lineEndAt_zero (lineEndAt_drop.2 hat)]
    simp

theorem findCrlf?_append (h : findCrlf? bytes = some n) : findCrlf? (bytes ++ more) = some n := by
  obtain ⟨hat, hbefore⟩ := findCrlf?_eq_some_iff.1 h
  have hle := hat.length_le
  refine findCrlf?_eq_some_iff.2 ⟨(lineEndAt_append hle).2 hat, fun k hk => ?_⟩
  exact (lineEndAt_append (by omega)).not.2 (hbefore k hk)

end WorkQueue
