import Mathlib.Data.List.Forall2
import WorkQueue.Proofs.Grammar
import WorkQueue.Response
import WorkQueue.Yaml.Style

/-!
# What is relied on of a writer

A client finds the names of a tube list again if each of them has a line of its own, plainly or in
single quotes, and an empty list is written in brackets (`Yaml.Writer.ListsNames`). No more is
relied on, and which names are quoted makes no difference. The writer of the program does so
(`Yaml.listsNames`).
-/

namespace WorkQueue

/-- A name as it may stand in a list : plainly, or in single quotes. -/
def TubeName.IsItem (name : TubeName) (item : List Char) : Prop :=
  item = name.chars ∨ item = '\'' :: name.chars ++ ['\'']

/-- A writer gives each name of a list a line of its own, and an empty list brackets. -/
structure Yaml.Writer.ListsNames [Writer] : Prop where
  nil : write (tubeDocument []) = ['[', ']', '\n']
  items : ∀ names ≠ [], ∃ items, List.Forall₂ TubeName.IsItem names items ∧
    write (tubeDocument names) = items.flatMap fun item => '-' :: ' ' :: item ++ ['\n']

/-! ## Characters of names -/

namespace TubeName

open Yaml

variable (name : TubeName)

/-- The bytes of names are those of printable characters, none of which is a blank, a break or a
quote. -/
theorem of_mem_bytes {b : UInt8} (h : b ∈ name.bytes) :
    isPrintable (Char.ofNat b.toNat) = true ∧ isBreak (Char.ofNat b.toNat) = false ∧
      Char.ofNat b.toNat ≠ '\'' ∧ String.utf8EncodeChar (Char.ofNat b.toNat) = [b] ∧
      b ≠ 10 ∧ b ≠ 39 := by
  obtain ⟨-, -, hbytes, -⟩ := isName_iff.1 name.valid
  have hall : ∀ b ∈ nameBytes,
      isPrintable (Char.ofNat b.toNat) = true ∧ isBreak (Char.ofNat b.toNat) = false ∧
        Char.ofNat b.toNat ≠ '\'' ∧ String.utf8EncodeChar (Char.ofNat b.toNat) = [b] ∧
        b ≠ 10 ∧ b ≠ 39 := by decide +kernel
  exact hall b (hbytes b h)

theorem utf8_chars : utf8 name.chars = name.bytes := by
  rw [utf8, chars, latin1, List.flatMap_map,
    List.flatMap_congr fun b hb => (name.of_mem_bytes hb).2.2.2.1, List.flatMap_singleton']

theorem isBreak_of_mem_chars {c : Char} (h : c ∈ name.chars) : isBreak c = false := by
  obtain ⟨b, hb, rfl⟩ := List.mem_map.1 h
  exact (name.of_mem_bytes hb).2.1

end TubeName

/-! ## The writer of the program -/

namespace Yaml

variable {text : List Char}

theorem anyPair_eq_false {p : Char → Char → Bool} (h : ∀ a ∈ text, ∀ b ∈ text, p a b = false) :
    anyPair p text = false := by
  fun_induction anyPair p text with
  | case1 a b rest ih =>
    have hrest : ∀ x ∈ b :: rest, ∀ y ∈ b :: rest, p x y = false := fun x hx y hy =>
      h x (List.mem_cons_of_mem a hx) y (List.mem_cons_of_mem a hy)
    rw [h a (by simp) b (by simp), ih hrest, Bool.or_false]
  | case2 => rfl

/-- Without breaks, single quotes change nothing but a quote. -/
theorem singleQuoted_eq (hbreak : ∀ c ∈ text, isBreak c = false) (hquote : ∀ c ∈ text, c ≠ '\'') :
    singleQuoted text = '\'' :: text ++ ['\''] := by
  have hdoubled : (text.flatMap fun c => if c == '\'' then [c, c] else [c]) = text := by
    rw [List.flatMap_congr fun c hc => if_neg (by simpa using hquote c hc), List.flatMap_singleton']
  have hlast : (text.getLast?.map isBreak).getD false = false := by
    cases hlast : text.getLast? with
    | none => rfl
    | some c => exact hbreak c (List.mem_of_getLast? hlast)
  have hindented : indented false text = text := by
    clear hquote hdoubled hlast
    induction text with
    | nil => rfl
    | cons c text ih =>
      obtain ⟨hc, htext⟩ := List.forall_mem_cons.1 hbreak
      simp [indented, hc, ih htext]
  simp only [singleQuoted, hdoubled, hlast, hindented]
  simp

end Yaml

namespace TubeName

open Yaml

variable (name : TubeName)

theorem style_chars : style name.chars = .plain ∨ style name.chars = .singleQuoted := by
  have hbreak := fun c hc => name.isBreak_of_mem_chars (c := c) hc
  have hnewline : '\n' ∉ name.chars := fun h =>
    Bool.false_ne_true ((hbreak '\n' h).symm.trans (by decide))
  have hprintable : name.chars.all isPrintable = true := by
    rw [List.all_eq_true]
    intro c hc
    obtain ⟨b, hb, rfl⟩ := List.mem_map.1 hc
    exact (name.of_mem_bytes hb).1
  have hquotable : isSingleQuotable name.chars = true := by
    rw [isSingleQuotable, hprintable, hasBreakSpace, hasSpaceBreak,
      anyPair_eq_false fun a ha b _ => by simp [hbreak a ha],
      anyPair_eq_false fun a _ b hb => by simp [hbreak b hb]]
    rfl
  rw [style, if_neg (by simp [hnewline]), if_pos hquotable]
  split
  · exact Or.inl rfl
  · exact Or.inr rfl

theorem isItem_render : name.IsItem (Scalar.text name.chars).render := by
  rcases name.style_chars with hstyle | hstyle
  · rw [Scalar.render, hstyle]
    exact Or.inl rfl
  · rw [Scalar.render, hstyle]
    refine Or.inr (singleQuoted_eq (fun c hc => name.isBreak_of_mem_chars hc) fun c hc => ?_)
    obtain ⟨b, hb, rfl⟩ := List.mem_map.1 hc
    exact (name.of_mem_bytes hb).2.2.1

/-- No name ends its line before it is written. -/
theorem line_chars : (Scalar.text name.chars).line = (Scalar.text name.chars).render ++ ['\n'] := by
  have hlast : ∀ c ∈ (Scalar.text name.chars).render.getLast?, isBreak c = false := by
    intro c hc
    rcases name.isItem_render with hplain | hquoted
    · exact name.isBreak_of_mem_chars (hplain ▸ List.mem_of_getLast? hc)
    · rw [hquoted, List.getLast?_append] at hc
      obtain rfl : '\'' = c := Option.some.inj hc
      decide
  unfold Scalar.line
  cases hend : (Scalar.text name.chars).render.getLast? with
  | none => simp [hend]
  | some c => simp [hend, hlast c hend]

end TubeName

theorem Yaml.listsNames : Writer.ListsNames where
  nil := rfl
  items names hne := by
    refine ⟨names.map fun name => (Scalar.text name.chars).render, ?_, ?_⟩
    · exact List.forall₂_map_right_iff.2 (List.forall₂_same.2 fun name _ => name.isItem_render)
    · obtain ⟨name, rest, rfl⟩ := List.exists_cons_of_ne_nil hne
      have hwrite : Writer.write (tubeDocument (name :: rest)) =
          ((name :: rest).map TubeName.chars).flatMap Document.itemLine := rfl
      rw [hwrite, List.flatMap_map, List.flatMap_map]
      refine List.flatMap_congr fun name _ => ?_
      rw [Document.itemLine, name.line_chars]
      rfl

end WorkQueue
