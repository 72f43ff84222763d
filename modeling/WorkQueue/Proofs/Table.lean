import Mathlib.Algebra.GroupWithZero.Nat
import Mathlib.Data.List.Nodup
import WorkQueue.Table

/-!
# Tables under a key

With no key twice, `lookup` and membership say the same (`lookup_eq_some_iff`), and a record that is
changed without its key stays where it is (`lookup_map`, `mem_adjust`). The tables of jobs, clients
and requests are `Numbered` : the keys are 1, 2, 3 and so on, so the next number is a new one.
-/

namespace WorkQueue

namespace Table

variable {α κ : Type} [Keyed α κ] [DecidableEq κ]

/-! ## Lookup and membership -/

theorem lookup_eq_some_iff {table : Table α} (h : table.keys.Nodup) {k : κ} {a : α} :
    table.lookup k = some a ↔ a ∈ table ∧ Keyed.key a = k := by
  constructor
  · intro hl
    exact ⟨mem_of_lookup hl, key_of_lookup hl⟩
  · rintro ⟨ha, rfl⟩
    induction table with
    | nil => simp at ha
    | cons b rest ih =>
      simp only [keys, List.map_cons, List.nodup_cons] at h
      rcases List.mem_cons.mp ha with rfl | ha
      · simp [lookup]
      · have hne : Keyed.key b ≠ Keyed.key a := fun he => h.1 (he ▸ List.mem_map_of_mem ha)
        simp only [lookup, List.find?_cons, hne, decide_false]
        exact ih h.2 ha

theorem lookup_of_mem {table : Table α} (h : table.keys.Nodup) {a : α} (ha : a ∈ table) :
    table.lookup (Keyed.key a) = some a :=
  (lookup_eq_some_iff h).2 ⟨ha, rfl⟩

/-- Records with one key are one record. -/
theorem eq_of_key_eq {table : Table α} (h : table.keys.Nodup) {a b : α} (ha : a ∈ table)
    (hb : b ∈ table) (hk : Keyed.key a = Keyed.key b) : a = b := by
  have hl := lookup_of_mem h ha
  rw [hk, lookup_of_mem h hb] at hl
  exact (Option.some.inj hl).symm

theorem lookup_isSome_iff {table : Table α} {k : κ} :
    (table.lookup k).isSome ↔ k ∈ table.keys := by
  simp [lookup, keys, List.find?_isSome]

theorem lookup_eq_none_iff {table : Table α} {k : κ} :
    table.lookup k = none ↔ k ∉ table.keys := by
  rw [← lookup_isSome_iff, Option.not_isSome_iff_eq_none]

/-! ## Changed records -/

theorem lookup_map (table : Table α) (f : α → α) (hf : ∀ a, Keyed.key (f a) = Keyed.key a)
    (k : κ) : Table.lookup (table.map f) k = (table.lookup k).map f := by
  induction table with
  | nil => rfl
  | cons a rest ih =>
    simp only [lookup, List.map_cons, List.find?_cons, hf] at ih ⊢
    by_cases h : Keyed.key a = k
    · simp [h]
    · simpa [h] using ih

omit [DecidableEq κ] in
theorem keys_map (table : Table α) (f : α → α) (hf : ∀ a, Keyed.key (f a) = Keyed.key a) :
    Table.keys (table.map f) = table.keys := by
  simp [keys, hf]

theorem mem_adjust {table : Table α} {k : κ} {f : α → α} {b : α} :
    b ∈ table.adjust k f ↔
      (∃ a ∈ table, Keyed.key a = k ∧ b = f a) ∨ (b ∈ table ∧ Keyed.key b ≠ k) := by
  simp only [adjust, List.mem_map]
  constructor
  · rintro ⟨a, ha, rfl⟩
    by_cases h : Keyed.key a = k
    · exact Or.inl ⟨a, ha, h, by rw [if_pos h]⟩
    · exact Or.inr (by rw [if_neg h]; exact ⟨ha, h⟩)
  · rintro (⟨a, ha, h, rfl⟩ | ⟨hb, h⟩)
    · exact ⟨a, ha, by rw [if_pos h]⟩
    · exact ⟨b, hb, by rw [if_neg h]⟩

/-- A relation between the records before and after a change. -/
theorem exists_of_mem_adjust {table : Table α} {k : κ} {f : α → α} {R : α → α → Prop}
    (hrefl : ∀ a, R a a) (hf : ∀ a, Keyed.key a = k → R a (f a)) {b : α}
    (hb : b ∈ table.adjust k f) : ∃ a ∈ table, R a b := by
  rcases mem_adjust.1 hb with ⟨a, ha, hk, rfl⟩ | ⟨hb, -⟩
  · exact ⟨a, ha, hf a hk⟩
  · exact ⟨b, hb, hrefl b⟩

theorem keys_adjust_const (table : Table α) {k : κ} {b : α} (hb : Keyed.key b = k) :
    (table.adjust k fun _ => b).keys = table.keys := by
  simp only [keys, adjust, List.map_map]
  refine List.map_congr_left fun a _ => ?_
  by_cases h : Keyed.key a = k <;> simp [h, hb]

/-- With no key twice, a change is one of a single record. -/
theorem adjust_eq_const {table : Table α} (h : table.keys.Nodup) {a : α} (ha : a ∈ table)
    (f : α → α) : table.adjust (Keyed.key a) f = table.adjust (Keyed.key a) fun _ => f a := by
  refine List.map_congr_left fun b hb => ?_
  by_cases hk : Keyed.key b = Keyed.key a
  · rw [if_pos hk, if_pos hk, eq_of_key_eq h hb ha hk]
  · rw [if_neg hk, if_neg hk]

theorem adjust_adjust (table : Table α) (k : κ) (f g : α → α)
    (hf : ∀ a, Keyed.key a = k → Keyed.key (f a) = k) :
    (table.adjust k f).adjust k g = table.adjust k fun a => g (f a) := by
  simp only [adjust, List.map_map]
  refine List.map_congr_left fun a _ => ?_
  by_cases h : Keyed.key a = k
  · simp [h, hf a h]
  · simp [h]

theorem length_adjust (table : Table α) (k : κ) (f : α → α) :
    (table.adjust k f).length = table.length := by
  simp [adjust]

/-- The record of a key is replaced where it stands. -/
theorem exists_adjust_const {table : Table α} (h : table.keys.Nodup) {a : α} (ha : a ∈ table)
    (b : α) : ∃ before after, table = before ++ a :: after ∧
      table.adjust (Keyed.key a) (fun _ => b) = before ++ b :: after := by
  obtain ⟨before, after, rfl⟩ := List.append_of_mem ha
  refine ⟨before, after, rfl, ?_⟩
  simp only [keys, List.map_append, List.map_cons] at h
  obtain ⟨-, hcons, hdisjoint⟩ := List.nodup_append.1 h
  have hother (x : α) (hx : x ∈ before ++ after) : Keyed.key x ≠ Keyed.key a := by
    rcases List.mem_append.1 hx with hx | hx
    · exact hdisjoint _ (List.mem_map_of_mem hx) _ List.mem_cons_self
    · exact fun he => (List.nodup_cons.1 hcons).1 (he ▸ List.mem_map_of_mem hx)
  have hkeep {l : List α} (hl : l ⊆ before ++ after) :
      Table.adjust l (Keyed.key a) (fun _ => b) = l :=
    (List.map_congr_left fun x hx => if_neg (hother x (hl hx))).trans (List.map_id l)
  calc Table.adjust (before ++ a :: after) (Keyed.key a) (fun _ => b)
      = Table.adjust before (Keyed.key a) (fun _ => b) ++
          b :: Table.adjust after (Keyed.key a) (fun _ => b) := by
        simp [adjust]
    _ = before ++ b :: after := by
        rw [hkeep (List.subset_append_left _ _), hkeep (List.subset_append_right _ _)]

theorem sum_adjust_const {table : Table α} (h : table.keys.Nodup) {a : α} (ha : a ∈ table) (b : α)
    (f : α → Nat) : ((table.adjust (Keyed.key a) fun _ => b).map f).sum + f a =
      (table.map f).sum + f b := by
  obtain ⟨before, after, rfl, hadjust⟩ := exists_adjust_const h ha b
  simp only [hadjust, List.map_append, List.map_cons, List.sum_append, List.sum_cons]
  omega

theorem countP_adjust_const {table : Table α} (h : table.keys.Nodup) {a : α} (ha : a ∈ table)
    (b : α) (p : α → Bool) : (table.adjust (Keyed.key a) fun _ => b).countP p + (p a).toNat =
      table.countP p + (p b).toNat := by
  obtain ⟨before, after, rfl, hadjust⟩ := exists_adjust_const h ha b
  simp only [hadjust, List.countP_append, List.countP_cons]
  cases p a <;> cases p b <;> simp <;> omega

/-! ## A new record -/

theorem lookup_append_of_ne (table : Table α) {a : α} {k : κ} (h : Keyed.key a ≠ k) :
    Table.lookup (table ++ [a]) k = table.lookup k := by
  simp [lookup, List.find?_append, h]

theorem lookup_append_self (table : Table α) {a : α} (h : Keyed.key a ∉ table.keys) :
    Table.lookup (table ++ [a]) (Keyed.key a) = some a := by
  have hn : table.lookup (Keyed.key a) = none := lookup_eq_none_iff.2 h
  simp only [lookup] at hn
  simp [lookup, List.find?_append, hn]

end Table

/-! ## Numbered tables -/

section Numbered

variable {α : Type} [Keyed α Nat]

/-- The keys of a table are the numbers from 1 on, in order of arrival. -/
def Table.Numbered (table : Table α) : Prop :=
  table.keys = List.range' 1 table.length

namespace Table.Numbered

variable {table : Table α}

theorem nodup (h : table.Numbered) : table.keys.Nodup := by
  rw [Numbered] at h
  rw [h]
  exact List.nodup_range'

theorem mem_keys (h : table.Numbered) {k : Nat} :
    k ∈ table.keys ↔ 0 < k ∧ k ≤ table.length := by
  rw [Numbered] at h
  rw [h, List.mem_range'_1]
  omega

theorem key_le (h : table.Numbered) {a : α} (ha : a ∈ table) : Keyed.key a ≤ table.length :=
  (h.mem_keys.1 (List.mem_map_of_mem ha)).2

/-- The next number is a new one. -/
theorem next_not_mem (h : table.Numbered) : table.length + 1 ∉ table.keys := by
  rw [h.mem_keys]
  omega

theorem map (h : table.Numbered) {f : α → α} (hf : ∀ a, Keyed.key (f a) = Keyed.key a) :
    Table.Numbered (table.map f) := by
  rw [Numbered, keys_map table f hf, List.length_map]
  exact h

theorem adjust (h : table.Numbered) (k : Nat) {f : α → α}
    (hf : ∀ a, Keyed.key (f a) = Keyed.key a) : (table.adjust k f).Numbered := by
  rw [Numbered, keys_adjust table k f hf, length_adjust]
  exact h

theorem adjust_const (h : table.Numbered) {k : Nat} {b : α} (hb : Keyed.key b = k) :
    (table.adjust k fun _ => b).Numbered := by
  rw [Numbered, keys_adjust_const table hb, length_adjust]
  exact h

theorem append (h : table.Numbered) {a : α} (ha : Keyed.key a = table.length + 1) :
    Table.Numbered (table ++ [a]) := by
  rw [Numbered] at h ⊢
  simp only [keys, List.map_append, List.map_cons, List.map_nil, List.length_append,
    List.length_singleton] at h ⊢
  rw [h, ha, List.range'_concat]
  simp [Nat.add_comm]

end Table.Numbered

end Numbered

end WorkQueue
