import Mathlib.Data.List.Nodup
import WorkQueue.Agenda

/-!
# The order of an agenda

The slots of an agenda stand in strict order (`Agenda.Sorted`), so none stands there twice, and
those of low ranks stand at the front. Inserting and removing keep the order.
-/

namespace WorkQueue

theorem Slot.before_iff {a b : Slot} :
    a.before b = true ↔ a.rank < b.rank ∨ a.rank = b.rank ∧ a.job < b.job := by
  simp [Slot.before]

theorem Slot.before_trans {a b c : Slot} (h₁ : a.before b = true) (h₂ : b.before c = true) :
    a.before c = true := by
  rw [before_iff] at *
  lia

/-- Of two slots one comes first, unless they are one. -/
theorem Slot.before_total (a b : Slot) : a.before b = true ∨ a = b ∨ b.before a = true := by
  rcases a with ⟨r, i⟩
  rcases b with ⟨q, j⟩
  simp only [before_iff, mk.injEq]
  lia

theorem Slot.not_before_self (a : Slot) : ¬a.before a = true := by
  rw [before_iff]
  lia

namespace Agenda

/-- Every slot stands before all that follow it. -/
def Sorted (agenda : Agenda) : Prop :=
  agenda.Pairwise fun a b => a.before b = true

theorem Sorted.nodup {agenda : Agenda} (h : Sorted agenda) : agenda.Nodup :=
  h.imp fun hab => fun he => Slot.not_before_self _ (he ▸ hab)

theorem Sorted.remove {agenda : Agenda} (h : Sorted agenda) (slot : Slot) :
    Sorted (remove slot agenda) :=
  h.filter _

theorem Sorted.insert {agenda : Agenda} (h : Sorted agenda) (slot : Slot) :
    Sorted (insert slot agenda) := by
  induction agenda with
  | nil => exact List.pairwise_singleton _ _
  | cons first rest ih =>
    obtain ⟨hfirst, hrest⟩ := List.pairwise_cons.mp h
    unfold Agenda.insert
    split
    · next hb =>
      refine List.pairwise_cons.mpr ⟨fun x hx => ?_, h⟩
      rcases List.mem_cons.mp hx with rfl | hx
      · exact hb
      · exact Slot.before_trans hb (hfirst x hx)
    · next hb =>
      split
      · exact h
      · next hne =>
        have hf : first.before slot = true := by
          rcases Slot.before_total slot first with h' | h' | h'
          · exact absurd h' hb
          · exact absurd h' hne
          · exact h'
        refine List.pairwise_cons.mpr ⟨fun x hx => ?_, ih hrest⟩
        rcases mem_insert.mp hx with rfl | hx
        · exact hf
        · exact hfirst x hx

/-- The ranks do not fall, so those that pass a test for low ones are all at the front. -/
theorem Sorted.takeWhile_eq_filter {agenda : Agenda} (h : Sorted agenda) (low : Nat → Bool)
    (hlow : ∀ a b, a ≤ b → low b = true → low a = true) :
    agenda.takeWhile (low ·.rank) = agenda.filter (low ·.rank) := by
  induction agenda with
  | nil => rfl
  | cons first rest ih =>
    obtain ⟨hfirst, hrest⟩ := List.pairwise_cons.mp h
    cases hp : low first.rank with
    | true => simp only [List.takeWhile_cons, List.filter_cons, hp, if_true, ih hrest]
    | false =>
      have hnone : ∀ x ∈ first :: rest, ¬low x.rank = true := by
        rintro x hx hl
        rcases List.mem_cons.mp hx with rfl | hx
        · exact absurd hl (by simp [hp])
        · have hle : first.rank ≤ x.rank := by
            have hb := Slot.before_iff.mp (hfirst x hx)
            lia
          exact absurd (hlow _ _ hle hl) (by simp [hp])
      rw [List.filter_eq_nil_iff.mpr hnone, List.takeWhile_cons, hp]
      rfl

theorem Sorted.mem_upTo {agenda : Agenda} (h : Sorted agenda) {limit : Nat} {slot : Slot} :
    slot ∈ upTo limit agenda ↔ slot ∈ agenda ∧ slot.rank ≤ limit := by
  have heq := h.takeWhile_eq_filter (fun rank => decide (rank ≤ limit)) fun a b hab hb =>
    decide_eq_true (Nat.le_trans hab (of_decide_eq_true hb))
  rw [upTo, heq, List.mem_filter, decide_eq_true_eq]

end Agenda

end WorkQueue
