/-!
# Tables

A table is a list of records in order of arrival, each found by its key. `adjust` changes the
record of one key, and `lookup_adjust_self` and `lookup_adjust_ne` give what is found afterwards.
-/

namespace WorkQueue

/-- Records with a key. -/
class Keyed (α : Type) (κ : outParam Type) where
  key : α → κ

abbrev Table (α : Type) := List α

namespace Table

variable {α κ : Type} [Keyed α κ] [DecidableEq κ]

/-- The record of a key. -/
def lookup (table : Table α) (k : κ) : Option α :=
  table.find? fun a => Keyed.key a = k

/-- Changes the record of a key. -/
def adjust (table : Table α) (k : κ) (f : α → α) : Table α :=
  table.map fun a => if Keyed.key a = k then f a else a

def keys (table : Table α) : List κ :=
  table.map Keyed.key

theorem key_of_lookup {table : Table α} {k : κ} {a : α} (h : table.lookup k = some a) :
    Keyed.key a = k := by
  simpa using List.find?_some h

theorem mem_of_lookup {table : Table α} {k : κ} {a : α} (h : table.lookup k = some a) :
    a ∈ table :=
  List.mem_of_find?_eq_some h

theorem lookup_adjust_self (table : Table α) (k : κ) (f : α → α)
    (hf : ∀ a, Keyed.key (f a) = Keyed.key a) :
    (table.adjust k f).lookup k = (table.lookup k).map f := by
  induction table with
  | nil => rfl
  | cons a rest ih =>
    simp only [lookup, adjust, List.map_cons, List.find?_cons] at ih ⊢
    by_cases h : Keyed.key a = k
    · simp [h, hf]
    · simp only [h, if_false, decide_false]
      exact ih

theorem lookup_adjust_ne (table : Table α) {k l : κ} (hkl : l ≠ k) (f : α → α)
    (hf : ∀ a, Keyed.key (f a) = Keyed.key a) :
    (table.adjust k f).lookup l = table.lookup l := by
  induction table with
  | nil => rfl
  | cons a rest ih =>
    simp only [lookup, adjust, List.map_cons, List.find?_cons] at ih ⊢
    by_cases h : Keyed.key a = k
    · have hl : decide (k = l) = false := decide_eq_false hkl.symm
      simp only [h, if_true, hf, hl, ih]
    · simp only [h, if_false, ih]

theorem keys_adjust (table : Table α) (k : κ) (f : α → α)
    (hf : ∀ a, Keyed.key (f a) = Keyed.key a) : (table.adjust k f).keys = table.keys := by
  simp only [keys, adjust, List.map_map]
  refine List.map_congr_left fun a _ => ?_
  by_cases h : Keyed.key a = k <;> simp [h, hf]

end Table

end WorkQueue
