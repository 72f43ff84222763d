import Mathlib.Data.List.TakeWhile
import WorkQueue.Command.Parser
import WorkQueue.Command.Printer
import WorkQueue.Proofs.Decimal
import WorkQueue.Stream.LineBuffer

/-!
# The grammar of request lines

`Command.parse` accepts exactly the lines that stand for a command (`Command.parse_eq_ok_iff`) :
what one argument takes off a line is `Argument.Reads`, what all arguments of a verb take off it is
`ReadsAll`, and `arguments?_eq_some_iff` says that a verb's arguments are read this way. Which error
the other lines get is decided by their first word alone. `Command.parse_grammar` sums up all of
this, with the line of every command read back and short enough to be sent.
-/

namespace WorkQueue

/-! ## Tube names -/

namespace TubeName

/-- The bytes that may stand in a name. -/
def nameBytes : Bytes :=
  ascii "abcdefghijklmnopqrstuvwxyzABCDEFGHIJKLMNOPQRSTUVWXYZ0123456789-+/;.$_()"

theorem isPlainByte_or_hyphen_iff (b : UInt8) :
    (isPlainByte b || b == hyphen) = true ↔ b ∈ nameBytes := by
  have hall : ∀ n < 256, (isPlainByte (UInt8.ofNat n) || UInt8.ofNat n == hyphen) =
      nameBytes.contains (UInt8.ofNat n) := by decide +kernel
  have hb := hall b.toNat (UInt8.toNat_lt b)
  rw [UInt8.ofNat_toNat] at hb
  rw [hb, List.contains_iff_mem]

theorem not_isPlainByte_hyphen : isPlainByte hyphen = false := by decide

/-- A name has 1 to 200 bytes, all of them allowed, and no hyphen in front. -/
theorem isName_iff {bytes : Bytes} : isName bytes = true ↔ 1 ≤ bytes.length ∧
    bytes.length ≤ maxLength ∧ (∀ b ∈ bytes, b ∈ nameBytes) ∧ bytes.head? ≠ some hyphen := by
  cases bytes with
  | nil => simp [isName]
  | cons first rest =>
    have hfirst : isPlainByte first = true ↔ first ∈ nameBytes ∧ first ≠ hyphen := by
      rw [← isPlainByte_or_hyphen_iff, Bool.or_eq_true, beq_iff_eq]
      constructor
      · intro h
        refine ⟨Or.inl h, ?_⟩
        rintro rfl
        rw [not_isPlainByte_hyphen] at h
        cases h
      · rintro ⟨h, hne⟩
        exact h.resolve_right hne
    have hrest : (rest.all fun b => isPlainByte b || b == hyphen) = true ↔
        ∀ b ∈ rest, b ∈ nameBytes := by
      simp only [List.all_eq_true, isPlainByte_or_hyphen_iff]
    have hpos : 1 ≤ rest.length + 1 := Nat.le_add_left 1 rest.length
    simp only [isName, Bool.and_eq_true, decide_eq_true_eq, hfirst, hrest, List.length_cons,
      List.forall_mem_cons, List.head?_cons, ne_eq, Option.some.injEq, Nat.lt_iff_add_one_le]
    tauto

theorem space_not_mem (name : TubeName) : space ∉ name.bytes := by
  obtain ⟨-, -, hbytes, -⟩ := isName_iff.1 name.valid
  exact fun h => absurd (hbytes space h) (by decide)

theorem bytes_ne_nil (name : TubeName) : name.bytes ≠ [] := by
  intro h
  have hvalid := name.valid
  rw [h] at hvalid
  cases hvalid

theorem length_bytes_le (name : TubeName) : name.bytes.length ≤ maxLength :=
  (isName_iff.1 name.valid).2.1

end TubeName

/-! ## Words -/

theorem Verb.ofWord?_eq_some_iff {word : Bytes} {verb : Verb} :
    Verb.ofWord? word = some verb ↔ word = ascii verb.word := by
  constructor
  · intro h
    have hfound := List.find?_some (p := fun v : Verb => ascii v.word == word) h
    exact (eq_of_beq hfound).symm
  · rintro rfl
    cases verb <;> decide

theorem Verb.ofWord?_eq_none_iff {word : Bytes} :
    Verb.ofWord? word = none ↔ ∀ verb : Verb, word ≠ ascii verb.word := by
  simp only [Option.eq_none_iff_forall_ne_some, ne_eq, Verb.ofWord?_eq_some_iff]

theorem Verb.word_frame (verb : Verb) :
    ascii verb.word ≠ [] ∧ space ∉ ascii verb.word ∧ (ascii verb.word).length ≤ 20 := by
  cases verb <;> decide

/-- A place in a line where a word ends : the end of the line, or a space. -/
def IsBreak (rest : Bytes) : Prop :=
  ∀ b ∈ rest.head?, b = space

theorem isBreak_nil : IsBreak [] := by
  simp [IsBreak]

theorem isBreak_space (rest : Bytes) : IsBreak (space :: rest) := by
  simp [IsBreak]

namespace Command

theorem splitWord_eq_iff {line word rest : Bytes} :
    splitWord line = (word, rest) ↔ line = word ++ rest ∧ space ∉ word ∧ IsBreak rest := by
  constructor
  · intro h
    obtain ⟨rfl, rfl⟩ := Prod.mk.inj h
    refine ⟨(List.takeWhile_append_dropWhile).symm, fun hs => ?_, fun b hb => ?_⟩
    · simpa using List.mem_takeWhile_imp hs
    · have hhead := List.head?_dropWhile_not (fun b : UInt8 => decide (b ≠ space)) line
      rw [Option.mem_def.1 hb] at hhead
      simpa using hhead
  · rintro ⟨rfl, hword, hbreak⟩
    have hall : ∀ b ∈ word, decide (b ≠ space) = true := fun b hb =>
      decide_eq_true fun he => hword (he ▸ hb)
    have hstop : rest.takeWhile (fun b => decide (b ≠ space)) = [] ∧
        rest.dropWhile (fun b => decide (b ≠ space)) = rest := by
      cases rest with
      | nil => exact ⟨rfl, rfl⟩
      | cons b rest =>
        obtain rfl := hbreak b rfl
        exact ⟨rfl, rfl⟩
    rw [splitWord, List.takeWhile_append_of_pos hall, List.dropWhile_append_of_pos hall, hstop.1,
      hstop.2, List.append_nil]

/-! ## Arguments -/

theorem argument?_eq_some_iff {line word rest : Bytes} :
    argument? line = some (word, rest) ↔
      line = space :: (word ++ rest) ∧ word ≠ [] ∧ space ∉ word ∧ IsBreak rest := by
  cases line with
  | nil => simp [argument?]
  | cons b line =>
    have hsplit : splitWord line = (word, rest) ↔ _ := splitWord_eq_iff
    simp only [argument?, Option.ite_none_right_eq_some, Option.some.injEq, List.cons.injEq]
    constructor
    · rintro ⟨⟨rfl, hne⟩, h⟩
      obtain ⟨hline, hs, hb⟩ := hsplit.1 h
      rw [h] at hne
      exact ⟨⟨rfl, hline⟩, hne, hs, hb⟩
    · rintro ⟨⟨rfl, hline⟩, hne, hs, hb⟩
      have h := hsplit.2 ⟨hline, hs, hb⟩
      exact ⟨⟨rfl, by rwa [h]⟩, h⟩

end Command

namespace Argument

/-- An argument stands on a line behind a space, and what comes behind it is left. -/
def Reads (argument : Argument) (line rest : Bytes) : Prop :=
  ∃ word, argument.IsSpelledBy word ∧ line = space :: (word ++ rest) ∧ IsBreak rest

theorem isSpelledBy_bytes (argument : Argument) : argument.IsSpelledBy argument.bytes := by
  cases argument with
  | number n => exact ⟨0, rfl⟩
  | tube name => rfl

theorem number_isSpelledBy_iff {n : UInt32} {word : Bytes} (hword : word ≠ []) :
    (number n).IsSpelledBy word ↔ number? word = some n.toNat :=
  (number?_eq_some_iff hword).symm

/-- The words of an argument can be told apart on a line. -/
theorem IsSpelledBy.frame {argument : Argument} {word : Bytes} (h : argument.IsSpelledBy word) :
    word ≠ [] ∧ space ∉ word := by
  cases argument with
  | number n =>
    have hword : word ≠ [] := by
      obtain ⟨zeros, rfl⟩ := h
      simp [decimal_ne_nil]
    exact ⟨hword, space_not_mem_of_number? ((number_isSpelledBy_iff hword).1 h)⟩
  | tube name =>
    obtain rfl : word = name.bytes := h
    exact ⟨name.bytes_ne_nil, name.space_not_mem⟩

end Argument

namespace Command

theorem numberArgument?_eq_some_iff {line rest : Bytes} {n : UInt32} :
    numberArgument? line = some (n, rest) ↔ (Argument.number n).Reads line rest := by
  have hn : n.toNat < UInt32.size := UInt32.toNat_lt n
  simp only [numberArgument?, Option.bind_eq_bind, Option.bind_eq_some_iff, Prod.exists,
    argument?_eq_some_iff, Option.ite_none_right_eq_some, Option.some.injEq, Prod.mk.injEq]
  constructor
  · rintro ⟨word, _, ⟨hline, hne, -, hb⟩, m, hm, hlt, rfl, rfl⟩
    refine ⟨word, (Argument.number_isSpelledBy_iff hne).2 ?_, hline, hb⟩
    rw [hm, Nat.toUInt32, UInt32.toNat_ofNat_of_lt' hlt]
  · rintro ⟨word, h, hline, hb⟩
    obtain ⟨hne, hs⟩ := h.frame
    exact ⟨word, rest, ⟨hline, hne, hs, hb⟩, n.toNat, (Argument.number_isSpelledBy_iff hne).1 h, hn,
      UInt32.ofNat_toNat, rfl⟩

theorem nameArgument?_eq_some_iff {line rest : Bytes} {name : TubeName} :
    nameArgument? line = some (name, rest) ↔ (Argument.tube name).Reads line rest := by
  simp only [nameArgument?, Option.bind_eq_bind, Option.bind_eq_some_iff, Prod.exists,
    argument?_eq_some_iff, TubeName.ofBytes?_eq_some, Option.some.injEq, Prod.mk.injEq]
  constructor
  · rintro ⟨_, _, ⟨hline, -, -, hb⟩, _, rfl, rfl, rfl⟩
    exact ⟨_, rfl, hline, hb⟩
  · rintro ⟨word, h, hline, hb⟩
    obtain ⟨hne, hs⟩ := h.frame
    exact ⟨word, rest, ⟨hline, hne, hs, hb⟩, name, h.symm, rfl, rfl⟩

/-- Arguments stand on a line one behind the other, and what comes behind the last is left. -/
def ReadsAll : List Argument → Bytes → Bytes → Prop
  | [], line, rest => line = rest
  | argument :: arguments, line, rest =>
    ∃ mid, argument.Reads line mid ∧ ReadsAll arguments mid rest

/-- A whole line of arguments is a line of words that stand for them. -/
theorem readsAll_nil_iff {arguments : List Argument} {line : Bytes} :
    ReadsAll arguments line [] ↔
      ∃ words, AreSpelledBy arguments words ∧ line = words.flatMap (space :: ·) := by
  induction arguments generalizing line with
  | nil =>
    constructor
    · intro h
      exact ⟨[], trivial, h⟩
    · rintro ⟨words, h, rfl⟩
      cases words with
      | nil => rfl
      | cons word words => exact h.elim
  | cons argument arguments ih =>
    constructor
    · rintro ⟨mid, ⟨word, hword, rfl, -⟩, hmid⟩
      obtain ⟨words, hwords, rfl⟩ := ih.1 hmid
      exact ⟨word :: words, ⟨hword, hwords⟩, by simp⟩
    · rintro ⟨words, h, rfl⟩
      cases words with
      | nil => exact h.elim
      | cons word words =>
        refine ⟨words.flatMap (space :: ·), ⟨word, h.1, by simp, ?_⟩, ih.2 ⟨words, h.2, rfl⟩⟩
        cases words with
        | nil => exact isBreak_nil
        | cons next words => exact isBreak_space _

theorem readsAll_of_arguments? {verb : Verb} {command : Command} {line rest : Bytes}
    (h : arguments? verb line = some (command, rest)) :
    command.verb = verb ∧ ReadsAll command.arguments line rest := by
  cases verb <;>
    simp only [arguments?, Option.bind_eq_bind, Option.bind_eq_some_iff, Option.map_eq_some_iff,
      Prod.exists, numberArgument?_eq_some_iff, nameArgument?_eq_some_iff, Option.some.injEq,
      Prod.mk.injEq] at h
  case put =>
    obtain ⟨_, l₁, h₁, _, l₂, h₂, _, l₃, h₃, _, l₄, h₄, rfl, rfl⟩ := h
    exact ⟨rfl, l₁, h₁, l₂, h₂, l₃, h₃, l₄, h₄, rfl⟩
  case release =>
    obtain ⟨_, l₁, h₁, _, l₂, h₂, _, l₃, h₃, rfl, rfl⟩ := h
    exact ⟨rfl, l₁, h₁, l₂, h₂, l₃, h₃, rfl⟩
  case bury | pauseTube =>
    obtain ⟨_, l₁, h₁, _, l₂, h₂, rfl, rfl⟩ := h
    exact ⟨rfl, l₁, h₁, l₂, h₂, rfl⟩
  case reserve | peekReady | peekDelayed | peekBuried | stats | listTubes | listTubeUsed |
      listTubesWatched | quit =>
    obtain ⟨rfl, rfl⟩ := h
    exact ⟨rfl, rfl⟩
  all_goals
    obtain ⟨_, l₁, h₁, rfl, rfl⟩ := h
    exact ⟨rfl, l₁, h₁, rfl⟩

theorem arguments?_of_readsAll {command : Command} {line rest : Bytes}
    (h : ReadsAll command.arguments line rest) :
    arguments? command.verb line = some (command, rest) := by
  cases command <;>
    simp only [arguments, ReadsAll, ← numberArgument?_eq_some_iff,
      ← nameArgument?_eq_some_iff] at h
  case put =>
    obtain ⟨_, h₁, _, h₂, _, h₃, _, h₄, rfl⟩ := h
    simp [verb, arguments?, h₁, h₂, h₃, h₄]
  case release =>
    obtain ⟨_, h₁, _, h₂, _, h₃, rfl⟩ := h
    simp [verb, arguments?, h₁, h₂, h₃]
  case bury | pauseTube =>
    obtain ⟨_, h₁, _, h₂, rfl⟩ := h
    simp [verb, arguments?, h₁, h₂]
  case reserve | peekReady | peekDelayed | peekBuried | stats | listTubes | listTubeUsed |
      listTubesWatched | quit =>
    subst h
    rfl
  all_goals
    obtain ⟨_, h₁, rfl⟩ := h
    simp [verb, arguments?, h₁]

theorem arguments?_eq_some_iff {verb : Verb} {command : Command} {line rest : Bytes} :
    arguments? verb line = some (command, rest) ↔
      command.verb = verb ∧ ReadsAll command.arguments line rest :=
  ⟨readsAll_of_arguments?, fun ⟨hverb, h⟩ => hverb ▸ arguments?_of_readsAll h⟩

/-! ## Lines -/

/-- The bytes of a line up to its first space. -/
def firstWord (line : Bytes) : Bytes :=
  line.takeWhile (· ≠ space)

theorem splitWord_fst (line : Bytes) : (splitWord line).1 = firstWord line := rfl

/-- What is read is what the first word and the arguments behind it spell. -/
theorem parse_eq_ok_iff {line : Bytes} {command : Command} :
    parse line = .ok command ↔ Spells line command := by
  constructor
  · intro h
    rcases hsplit : splitWord line with ⟨word, rest⟩
    obtain ⟨rfl, -, -⟩ := splitWord_eq_iff.1 hsplit
    simp only [parse, hsplit] at h
    split at h
    · cases h
    split at h
    · cases h
    next verb hverb =>
      split at h
      · next command' harguments =>
        cases h
        obtain ⟨rfl, hreads⟩ := arguments?_eq_some_iff.1 harguments
        obtain ⟨words, hwords, rfl⟩ := readsAll_nil_iff.1 hreads
        exact ⟨words, hwords, by rw [Verb.ofWord?_eq_some_iff.1 hverb, lineOf]⟩
      · cases h
  · rintro ⟨words, hwords, rfl⟩
    obtain ⟨hne, hspace, -⟩ := command.verb.word_frame
    have hreads : ReadsAll command.arguments (words.flatMap (space :: ·)) [] :=
      readsAll_nil_iff.2 ⟨words, hwords, rfl⟩
    have hsplit : splitWord (lineOf command.verb words) =
        (ascii command.verb.word, words.flatMap (space :: ·)) := by
      refine splitWord_eq_iff.2 ⟨rfl, hspace, ?_⟩
      cases words with
      | nil => exact isBreak_nil
      | cons word words => exact isBreak_space _
    simp only [parse, hsplit, if_neg hne, Verb.ofWord?_eq_some_iff.2 rfl,
      arguments?_of_readsAll hreads]

/-- Only the first word of a line makes its command unknown. -/
theorem parse_eq_unknownCommand_iff {line : Bytes} : parse line = .error .unknownCommand ↔
    firstWord line ≠ [] ∧ ∀ verb : Verb, firstWord line ≠ ascii verb.word := by
  simp only [parse, ← splitWord_fst, ← Verb.ofWord?_eq_none_iff]
  split
  · next h => simp [h]
  · next h =>
    cases hverb : Verb.ofWord? (splitWord line).1 with
    | none => simp [h]
    | some verb => dsimp only; split <;> simp

/-- Any other line has a bad format. -/
theorem parse_eq_badFormat_iff {line : Bytes} : parse line = .error .badFormat ↔
    (∀ command, ¬Spells line command) ∧
      (firstWord line = [] ∨ ∃ verb : Verb, firstWord line = ascii verb.word) := by
  have hknown : (firstWord line = [] ∨ ∃ verb : Verb, firstWord line = ascii verb.word) ↔
      parse line ≠ .error .unknownCommand := by
    rw [ne_eq, parse_eq_unknownCommand_iff, not_and_or, not_not]
    simp
  simp only [hknown, ← parse_eq_ok_iff]
  cases h : parse line with
  | ok command => simp
  | error error => cases error <;> simp

/-! ## The line of a command -/

theorem areSpelledBy_bytes (arguments : List Argument) :
    AreSpelledBy arguments (arguments.map Argument.bytes) := by
  induction arguments with
  | nil => trivial
  | cons argument arguments ih => exact ⟨argument.isSpelledBy_bytes, ih⟩

theorem spells_line (command : Command) : Spells command.line command :=
  ⟨_, areSpelledBy_bytes command.arguments, rfl⟩

theorem length_number_bytes_le (n : UInt32) : (Argument.number n).bytes.length ≤ 10 :=
  length_decimal_le (by decide) (Nat.lt_trans (UInt32.toNat_lt n) (by decide))

/-- The longest line is that of `pause-tube`. -/
theorem length_line_le (command : Command) : command.line.length + crlf.length ≤ lineLimit := by
  have hnumber := length_number_bytes_le
  have hname (name : TubeName) : (Argument.tube name).bytes.length ≤ 200 := name.length_bytes_le
  have hline : command.line.length = (ascii command.verb.word).length +
      (command.arguments.map fun argument => argument.bytes.length + 1).sum := by
    rw [line, lineOf, List.length_append, List.length_flatMap, List.map_map]
    rfl
  have hword := command.verb.word_frame.2.2
  have hpause : (ascii (Verb.word .pauseTube)).length = 10 := by decide
  rw [hline, lineLimit, crlf]
  cases command <;>
    simp only [arguments, List.map_cons, List.map_nil, List.sum_cons, List.sum_nil,
      List.length_cons, List.length_nil]
  case pauseTube name delay =>
    have hverb : (pauseTube name delay).verb = .pauseTube := rfl
    rw [hverb, hpause]
    grind
  all_goals grind

/-! ## The whole grammar -/

/-- The line of every command is read as that command and can be sent. A line is read as a command
just when it spells it, with zeros in front of the numbers at most. Its command is unknown just when
its first word is there and is no verb, and any other line has a bad format. Names are those of 1 to
200 allowed bytes without a hyphen in front. -/
theorem parse_grammar :
    (∀ command : Command, parse command.line = .ok command ∧
      command.line.length + crlf.length ≤ lineLimit) ∧
    (∀ line command, parse line = .ok command ↔ Spells line command) ∧
    (∀ line, parse line = .error .unknownCommand ↔
      firstWord line ≠ [] ∧ ∀ verb : Verb, firstWord line ≠ ascii verb.word) ∧
    (∀ line, parse line = .error .badFormat ↔ (∀ command, ¬Spells line command) ∧
      (firstWord line = [] ∨ ∃ verb : Verb, firstWord line = ascii verb.word)) ∧
    ∀ bytes, (∃ name : TubeName, name.bytes = bytes) ↔ 1 ≤ bytes.length ∧
      bytes.length ≤ TubeName.maxLength ∧ (∀ b ∈ bytes, b ∈ TubeName.nameBytes) ∧
        bytes.head? ≠ some TubeName.hyphen := by
  refine ⟨fun command => ⟨parse_eq_ok_iff.2 (spells_line command), length_line_le command⟩,
    fun _ _ => parse_eq_ok_iff, fun _ => parse_eq_unknownCommand_iff,
    fun _ => parse_eq_badFormat_iff, fun bytes => ?_⟩
  rw [← TubeName.isName_iff]
  constructor
  · rintro ⟨name, rfl⟩
    exact name.valid
  · intro h
    exact ⟨⟨bytes, h⟩, rfl⟩

/-- A number above the greatest one is no number, however the line goes on. -/
example : parse (ascii "kick 0004294967295") = .ok (.kick 4294967295) ∧
    parse (ascii "kick 4294967296") = .error .badFormat := by decide +kernel

end Command

end WorkQueue
