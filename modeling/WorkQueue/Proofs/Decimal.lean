import Mathlib.Algebra.Group.Nat.Defs
import Mathlib.Data.List.Induction
import WorkQueue.Bytes

/-!
# Numbers in decimal

Reading takes back what writing gave (`number?_decimal`), and what is read as a number is its
decimal with any count of zeros in front (`number?_eq_some_iff`). Both go by the last digit, which
`decimal_append` and `number?_append` split off.
-/

namespace WorkQueue

/-- The byte of a decimal digit. -/
def digitByte (d : Nat) : UInt8 := (48 + d).toUInt8

theorem digit?_digitByte {d : Nat} (h : d < 10) : digit? (digitByte d) = some d := by
  revert d
  decide

theorem digit?_eq_some_iff {b : UInt8} {d : Nat} :
    digit? b = some d ↔ d < 10 ∧ b = digitByte d := by
  constructor
  · intro h
    unfold digit? at h
    split at h
    · next hb =>
      obtain ⟨hlow, hhigh⟩ := hb
      rw [UInt8.le_iff_toNat_le] at hlow hhigh
      have hlow : 48 ≤ b.toNat := hlow
      have hhigh : b.toNat ≤ 57 := hhigh
      obtain rfl := Option.some.inj h
      refine ⟨by omega, UInt8.toNat_inj.1 ?_⟩
      rw [digitByte, Nat.add_sub_cancel' hlow, UInt8.toNat_ofNat']
      omega
    · cases h
  · rintro ⟨h, rfl⟩
    exact digit?_digitByte h

theorem digitByte_ne_space {d : Nat} (h : d < 10) : digitByte d ≠ space := by
  revert d
  decide

/-! ## Writing -/

theorem decimal_of_lt {d : Nat} (h : d < 10) : decimal d = [digitByte d] := by
  rw [decimal, Nat.toDigits_of_lt_base h]
  revert d
  decide

/-- The last digit of a number stands behind the others. -/
theorem decimal_append {n d : Nat} (hn : 0 < n) (hd : d < 10) :
    decimal (10 * n + d) = decimal n ++ [digitByte d] := by
  rw [← decimal_of_lt hd, decimal, decimal, decimal, ← List.map_append,
    Nat.toDigits_append_toDigits (by decide) hn hd]

theorem decimal_ne_nil (n : Nat) : decimal n ≠ [] := by
  simp [decimal, ← List.length_eq_zero_iff, Nat.ne_of_gt (Nat.length_toDigits_pos (n := n))]

theorem length_decimal_le {n k : Nat} (hk : 0 < k) (h : n < 10 ^ k) : (decimal n).length ≤ k := by
  rw [decimal, List.length_map]
  exact (Nat.length_toDigits_le_iff (by decide) hk).2 h

/-! ## Reading -/

theorem number?_append (word : Bytes) (b : UInt8) :
    number? (word ++ [b]) = (number? word).bind fun n => (digit? b).map fun d => 10 * n + d := by
  simp only [number?, List.mapM_append, List.mapM_cons, List.mapM_nil]
  cases word.mapM digit? with
  | none => rfl
  | some digits => cases digit? b with
    | none => rfl
    | some d => simp [ofDigits]

/-- Reading goes on behind a number as far as there are digits. -/
theorem number?_append_eq_some_iff {word : Bytes} {b : UInt8} {n : Nat} :
    number? (word ++ [b]) = some n ↔
      ∃ m d, number? word = some m ∧ d < 10 ∧ b = digitByte d ∧ n = 10 * m + d := by
  simp only [number?_append, Option.bind_eq_some_iff, Option.map_eq_some_iff, digit?_eq_some_iff]
  constructor
  · rintro ⟨m, hm, d, ⟨hd, rfl⟩, rfl⟩
    exact ⟨m, d, hm, hd, rfl, rfl⟩
  · rintro ⟨m, d, hm, hd, rfl, rfl⟩
    exact ⟨m, hm, d, ⟨hd, rfl⟩, rfl⟩

theorem number?_decimal (n : Nat) : number? (decimal n) = some n := by
  induction n using Nat.strongRecOn with
  | _ n ih =>
    by_cases hn : n < 10
    · rw [decimal_of_lt hn]
      have hzero : number? [] = some 0 := rfl
      exact number?_append_eq_some_iff.2 ⟨0, n, hzero, hn, rfl, by simp⟩
    · have hsplit : 10 * (n / 10) + n % 10 = n := Nat.div_add_mod n 10
      have hd : n % 10 < 10 := Nat.mod_lt n (by decide)
      rw [← hsplit, decimal_append (by omega) hd]
      exact number?_append_eq_some_iff.2 ⟨n / 10, n % 10, ih (n / 10) (by omega), hd, rfl, rfl⟩

theorem number?_zeros_append (zeros : Nat) (word : Bytes) :
    number? (List.replicate zeros 48 ++ word) = number? word := by
  induction word using List.reverseRecOn with
  | nil =>
    induction zeros with
    | zero => rfl
    | succ zeros ih =>
      rw [List.append_nil] at ih ⊢
      rw [List.replicate_succ', number?_append, ih]
      rfl
  | append_singleton word b ih => rw [← List.append_assoc, number?_append, number?_append, ih]

/-- A word is read as a number if it is the decimal of the number behind any zeros. -/
theorem number?_eq_some_iff {word : Bytes} (hword : word ≠ []) {n : Nat} :
    number? word = some n ↔ ∃ zeros, word = List.replicate zeros 48 ++ decimal n := by
  constructor
  · intro h
    induction word using List.reverseRecOn generalizing n with
    | nil => exact absurd rfl hword
    | append_singleton word b ih =>
      obtain ⟨m, d, hm, hd, rfl, rfl⟩ := number?_append_eq_some_iff.1 h
      by_cases hnil : word = []
      · subst hnil
        obtain rfl : m = 0 := (Option.some.inj hm).symm
        exact ⟨0, by simp [decimal_of_lt hd]⟩
      · obtain ⟨zeros, rfl⟩ := ih hnil hm
        rcases Nat.eq_zero_or_pos m with rfl | hpos
        · -- the number before the last digit is one more zero
          refine ⟨zeros + 1, ?_⟩
          rw [Nat.mul_zero, Nat.zero_add, decimal_of_lt hd, List.replicate_succ']
          rfl
        · exact ⟨zeros, by rw [decimal_append hpos hd, List.append_assoc]⟩
  · rintro ⟨zeros, rfl⟩
    rw [number?_zeros_append, number?_decimal]

/-- A number is written without spaces. -/
theorem space_not_mem_of_number? {word : Bytes} {n : Nat} (h : number? word = some n) :
    space ∉ word := by
  induction word using List.reverseRecOn generalizing n with
  | nil => exact List.not_mem_nil
  | append_singleton word b ih =>
    obtain ⟨m, d, hm, hd, rfl, rfl⟩ := number?_append_eq_some_iff.1 h
    rw [List.mem_append, not_or]
    exact ⟨ih hm, by simpa [eq_comm] using digitByte_ne_space hd⟩

end WorkQueue
