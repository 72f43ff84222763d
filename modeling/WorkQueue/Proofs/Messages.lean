import Mathlib.Data.List.Basic
import WorkQueue.Proofs.Framing
import WorkQueue.Proofs.Writing
import WorkQueue.Response.Reader

/-!
# Messages are read back

A message has a line of visible words (`Message.words_visible`), so the line ends where it says, and
its words come apart at the spaces. A block is cut off by its length, and what it holds makes no
difference. So a message is read off the front of a stream whatever is behind it (`read?_wire`).

A response is told by its message, up to the document that it brings, of which the text is told
(`Response.message_eq_iff`). In the text of a tube list, a name has a line of its own, plainly or in
single quotes, whichever writer has written it. `Response.wire_read_back` sums up all this.
-/

namespace WorkQueue

variable {word line rest : Bytes} {words : List Bytes}

/-! ## Lines of words -/

theorem splitSpaces_of_not_mem (h : space ∉ word) : splitSpaces word = [word] := by
  induction word with
  | nil => rfl
  | cons b word ih =>
    obtain ⟨hb, hword⟩ := List.ne_and_not_mem_of_not_mem_cons h
    rw [splitSpaces, if_neg hb.symm, ih hword]

theorem splitSpaces_append (h : space ∉ word) :
    splitSpaces (word ++ space :: rest) = word :: splitSpaces rest := by
  induction word with
  | nil => rw [List.nil_append, splitSpaces, if_pos rfl]
  | cons b word ih =>
    obtain ⟨hb, hword⟩ := List.ne_and_not_mem_of_not_mem_cons h
    rw [List.cons_append, splitSpaces, if_neg hb.symm, ih hword]

/-- A line without a carriage return ends at the first line end. -/
theorem isLine_of_not_mem (h : (13 : UInt8) ∉ line) : IsLine line := by
  induction line with
  | nil => rfl
  | cons b line ih =>
    obtain ⟨hb, hline⟩ := List.ne_and_not_mem_of_not_mem_cons h
    have hstart : ¬LineEndAt (b :: line ++ crlf) 0 := by
      rintro ⟨rest, hrest⟩
      exact hb (List.cons.inj hrest).1
    have hrest : findCrlf? (line ++ crlf) = some line.length := ih hline
    rw [IsLine, findCrlf?_of_not_lineEndAt_zero hstart, List.cons_append, List.drop_one,
      List.tail_cons, hrest]
    rfl

/-- A word of bytes above the space. No line end and no space is in it. -/
def IsVisible (word : Bytes) : Prop :=
  ∀ b ∈ word, space < b

instance (word : Bytes) : Decidable (IsVisible word) :=
  List.decidableBAll (space < ·) word

theorem IsVisible.space_not_mem (h : IsVisible word) : space ∉ word :=
  fun hs => absurd (h space hs) (by decide)

theorem isVisible_ascii_word (n : Notice) : IsVisible (ascii n.word) := by
  cases n <;> decide

theorem TubeName.isVisible_bytes (name : TubeName) : IsVisible name.bytes := by
  obtain ⟨-, -, hbytes, -⟩ := isName_iff.1 name.valid
  have hall : IsVisible nameBytes := by decide
  exact fun b hb => hall b (hbytes b hb)

theorem isVisible_of_number? {n : Nat} (h : number? word = some n) : IsVisible word := by
  have hdigit : ∀ d < 10, space < digitByte d := by decide
  induction word using List.reverseRecOn generalizing n with
  | nil => exact fun _ hb => absurd hb List.not_mem_nil
  | append_singleton word b ih =>
    obtain ⟨m, d, hm, hd, rfl, rfl⟩ := number?_append_eq_some_iff.1 h
    intro x hx
    rcases List.mem_append.1 hx with hx | hx
    · exact ih hm x hx
    · rw [List.mem_singleton.1 hx]
      exact hdigit d hd

theorem isVisible_decimal (n : Nat) : IsVisible (decimal n) :=
  isVisible_of_number? (number?_decimal n)

namespace Message

theorem words_ne_nil (message : Message) : message.words ≠ [] := by
  cases message <;> exact List.cons_ne_nil _ _

theorem words_visible (message : Message) : ∀ word ∈ message.words, IsVisible word := by
  have hfirst : IsVisible insertedWord ∧ IsVisible usingWord ∧ IsVisible watchingWord ∧
      IsVisible kickedWord ∧ IsVisible reservedWord ∧ IsVisible foundWord ∧
      IsVisible documentWord := by decide
  cases message <;>
    simp [words, hfirst, isVisible_decimal, isVisible_ascii_word, TubeName.isVisible_bytes]

theorem joinWords_cons (word : Bytes) (h : words ≠ []) :
    joinWords (word :: words) = word ++ space :: joinWords words := by
  cases words with
  | nil => exact absurd rfl h
  | cons => rfl

theorem splitSpaces_joinWords (hne : words ≠ []) (h : ∀ word ∈ words, IsVisible word) :
    splitSpaces (joinWords words) = words := by
  induction words with
  | nil => exact absurd rfl hne
  | cons word words ih =>
    obtain ⟨hword, hwords⟩ := List.forall_mem_cons.1 h
    by_cases hnil : words = []
    · subst hnil
      exact splitSpaces_of_not_mem hword.space_not_mem
    · rw [joinWords_cons word hnil, splitSpaces_append hword.space_not_mem, ih hnil hwords]

theorem isLine_joinWords (h : ∀ word ∈ words, IsVisible word) : IsLine (joinWords words) := by
  refine isLine_of_not_mem fun hmem => ?_
  induction words with
  | nil => cases hmem
  | cons word words ih =>
    obtain ⟨hword, hwords⟩ := List.forall_mem_cons.1 h
    have hnot : (13 : UInt8) ∉ word := fun h13 => absurd (hword 13 h13) (by decide)
    by_cases hnil : words = []
    · subst hnil
      exact hnot hmem
    · rw [joinWords_cons word hnil, List.mem_append, List.mem_cons] at hmem
      rcases hmem with hmem | hmem | hmem
      · exact hnot hmem
      · cases hmem
      · exact ih hwords hmem

/-! ## Messages -/

theorem notice?_word (n : Notice) : notice? (ascii n.word) = some n := by
  cases n <;> decide

theorem number?_decimal (n : Nat) : number? (decimal n) = some n := by
  rw [number?, if_neg (by simpa using decimal_ne_nil n), WorkQueue.number?_decimal]

/-- A block ends by its length, whatever is in it. -/
theorem takeBlock?_append (block rest : Bytes) :
    takeBlock? block.length (block ++ crlf ++ rest) = some (block, rest) := by
  have hdrop : (block ++ crlf ++ rest).drop block.length = crlf ++ rest := by
    rw [List.append_assoc, List.drop_left]
  have htake : (block ++ crlf ++ rest).take block.length = block := by
    rw [List.append_assoc, List.take_left]
  have hlen : block.length ≤ (block ++ crlf ++ rest).length := by simp
  rw [takeBlock?, hdrop, htake, if_pos ⟨hlen, rfl⟩]
  rfl

/-- What a message sends behind its line. -/
def tail (message : Message) : Bytes :=
  match message.block? with
  | some block => block ++ crlf
  | none => []

theorem wire_eq (message : Message) :
    message.wire = joinWords message.words ++ crlf ++ message.tail := rfl

/-- The words tell the messages apart. -/
theorem ofWords?_words (message : Message) (rest : Bytes) :
    ofWords? message.words (message.tail ++ rest) = some (message, rest) := by
  have hblock (block : Bytes) := takeBlock?_append block rest
  have hreserved : foundWord ≠ reservedWord := by decide
  cases message with
  | notice n => simp [words, ofWords?, tail, block?, notice?_word]
  | inserted id => simp [words, ofWords?, tail, block?, number?_decimal]
  | usingTube tube =>
    have hword : usingWord ≠ insertedWord := by decide
    simp [words, ofWords?, tail, block?, hword, TubeName.ofBytes?_bytes]
  | watching count =>
    have hword : watchingWord ≠ insertedWord ∧ watchingWord ≠ usingWord := by decide
    simp [words, ofWords?, tail, block?, hword, number?_decimal]
  | kickedCount count =>
    have hword : kickedWord ≠ insertedWord ∧ kickedWord ≠ usingWord ∧
        kickedWord ≠ watchingWord := by decide
    simp [words, ofWords?, tail, block?, hword, number?_decimal]
  | reserved id body =>
    simp only [words, ofWords?, tail, block?, number?_decimal, hblock, Option.bind_eq_bind,
      Option.bind_some, if_pos]
  | found id body =>
    simp only [words, ofWords?, tail, block?, number?_decimal, hblock, Option.bind_eq_bind,
      Option.bind_some, if_neg hreserved, if_pos]
  | document text =>
    have hword : documentWord ≠ insertedWord ∧ documentWord ≠ usingWord ∧
        documentWord ≠ watchingWord ∧ documentWord ≠ kickedWord := by decide
    simp only [words, ofWords?, tail, block?, hword, number?_decimal, hblock, if_false, if_true,
      Option.bind_some, Option.map_some]

/-- A message is read off the front of a stream, whatever follows. -/
theorem read?_wire (message : Message) (rest : Bytes) :
    read? (message.wire ++ rest) = some (message, rest) := by
  have hline : IsLine (joinWords message.words) := isLine_joinWords message.words_visible
  have hstream : message.wire ++ rest =
      joinWords message.words ++ crlf ++ (message.tail ++ rest) := by
    rw [wire_eq, List.append_assoc]
  have htake : (joinWords message.words ++ crlf ++ (message.tail ++ rest)).take
      (joinWords message.words).length = joinWords message.words := by
    rw [List.append_assoc, List.take_left]
  have hdrop : (joinWords message.words ++ crlf ++ (message.tail ++ rest)).drop
      ((joinWords message.words).length + 2) = message.tail ++ rest :=
    List.drop_left' (by simp [crlf])
  rw [hstream, read?, hline.findCrlf?_eq, Option.bind_some, htake, hdrop,
    splitSpaces_joinWords message.words_ne_nil message.words_visible, ofWords?_words]

theorem wire_ne_nil (message : Message) : message.wire ≠ [] := by
  simp [wire_eq, crlf]

theorem readUpTo?_wire {messages : List Message} {n : Nat}
    (h : (messages.flatMap wire).length ≤ n) :
    readUpTo? n (messages.flatMap wire) = some messages := by
  induction messages generalizing n with
  | nil => cases n <;> rfl
  | cons message messages ih =>
    have hread := message.read?_wire (messages.flatMap wire)
    rw [List.flatMap_cons] at h ⊢
    have hlen : (messages.flatMap wire).length <
        (message.wire ++ messages.flatMap wire).length := by
      rw [List.length_append]
      exact Nat.lt_add_of_pos_left (List.length_pos_iff.2 message.wire_ne_nil)
    obtain ⟨n, rfl⟩ := Nat.exists_eq_add_one_of_ne_zero (Nat.ne_zero_of_lt (hlen.trans_le h))
    have hrest := ih (Nat.le_of_lt_succ (hlen.trans_le h))
    obtain ⟨b, bytes, hbytes⟩ := List.exists_cons_of_ne_nil
      (List.append_ne_nil_of_left_ne_nil message.wire_ne_nil (messages.flatMap wire))
    rw [hbytes] at hread ⊢
    simp only [readUpTo?, hread, hrest, Option.bind_eq_bind, Option.bind_some]

theorem readAll?_wire (messages : List Message) :
    readAll? (messages.flatMap wire) = some messages :=
  readUpTo?_wire (Nat.le_refl _)

end Message

/-! ## Tube lists -/

theorem utf8_append (a b : List Char) : utf8 (a ++ b) = utf8 a ++ utf8 b :=
  List.flatMap_append

namespace TubeName

variable {name : TubeName} {item : List Char}

/-- The bytes of a name in a list. -/
theorem IsItem.utf8_eq (h : name.IsItem item) :
    utf8 item = name.bytes ∨ utf8 item = 39 :: name.bytes ++ [39] := by
  rcases h with rfl | rfl
  · exact Or.inl name.utf8_chars
  · refine Or.inr ?_
    rw [utf8_append, ← List.singleton_append, utf8_append, name.utf8_chars]
    rfl

theorem IsItem.not_mem (h : name.IsItem item) : (10 : UInt8) ∉ utf8 item := by
  have hname : (10 : UInt8) ∉ name.bytes := fun h => (name.of_mem_bytes h).2.2.2.2.1 rfl
  rcases h.utf8_eq with heq | heq
  · rwa [heq]
  · simp [heq, hname]

theorem IsItem.nameItem?_eq (h : name.IsItem item) : nameItem? (utf8 item) = some name := by
  rcases h.utf8_eq with heq | heq
  · obtain ⟨first, rest, hbytes⟩ := List.exists_cons_of_ne_nil name.bytes_ne_nil
    have hfirst : first ≠ 39 :=
      (name.of_mem_bytes (hbytes ▸ List.mem_cons_self)).2.2.2.2.2
    have hname := name.ofBytes?_bytes
    rw [heq, hbytes]
    rw [hbytes] at hname
    unfold nameItem?
    split
    · next h => exact absurd (List.cons.inj h).1 hfirst
    · exact hname
  · simp [heq, nameItem?, ofBytes?_bytes]

end TubeName

theorem textLines_append (h : (10 : UInt8) ∉ line) :
    textLines (line ++ 10 :: rest) = line :: textLines rest := by
  induction line with
  | nil => rw [List.nil_append, textLines, if_pos rfl]
  | cons b line ih =>
    obtain ⟨hb, hline⟩ := List.ne_and_not_mem_of_not_mem_cons h
    rw [List.cons_append, textLines, if_neg hb.symm, ih hline]

/-- The bytes of a list that has a line for each item. -/
def itemLines (items : List (List Char)) : Bytes :=
  items.flatMap fun item => 45 :: 32 :: (utf8 item ++ [10])

theorem utf8_items (items : List (List Char)) :
    utf8 (items.flatMap fun item => '-' :: ' ' :: item ++ ['\n']) = itemLines items := by
  rw [utf8, List.flatMap_assoc]
  refine List.flatMap_congr fun item _ => ?_
  rw [List.cons_append, List.cons_append, List.flatMap_cons, List.flatMap_cons,
    List.flatMap_append]
  rfl

theorem mapM_nameLine? {names : List TubeName} {items : List (List Char)}
    (h : List.Forall₂ TubeName.IsItem names items) :
    (textLines (itemLines items)).mapM nameLine? = some names := by
  induction h with
  | nil => rfl
  | @cons name item names items hitem _ ih =>
    have hline : (10 : UInt8) ∉ 45 :: 32 :: utf8 item := by simp [hitem.not_mem]
    have hcut : itemLines (item :: items) = (45 :: 32 :: utf8 item) ++ 10 :: itemLines items := by
      simp [itemLines]
    rw [hcut, textLines_append hline, List.mapM_cons, ih, nameLine?, hitem.nameItem?_eq]
    rfl

section Responses

variable [Yaml.Writer]

theorem tubeNames?_tubeDocument (h : Yaml.Writer.ListsNames) (names : List TubeName) :
    tubeNames? (utf8 (Yaml.Writer.write (tubeDocument names))) = some names := by
  by_cases hnil : names = []
  · rw [hnil, h.nil]
    decide
  · obtain ⟨items, hitems, hwrite⟩ := h.items names hnil
    have hne : itemLines items ≠ ascii "[]\n" := by
      cases hitems with
      | nil => exact absurd rfl hnil
      | cons => exact fun heq => absurd (List.cons.inj heq).1 (by decide)
    rw [hwrite, utf8_items, tubeNames?, if_neg hne, mapM_nameLine? hitems]

/-! ## What is read back -/

namespace Response

/-- The text of the document that a response brings. -/
def text? (response : Response) : Option Bytes :=
  response.document?.map fun document => utf8 (Yaml.Writer.write document)

theorem message_of_text? {response : Response} {text : Bytes} (h : response.text? = some text) :
    response.message = .document text := by
  cases response with
  | jobStats | tubeStats | serverStats | tubes => exact congrArg _ (Option.some.inj h)
  | _ => cases h

theorem text?_of_message {response : Response} {text : Bytes}
    (h : response.message = .document text) : response.text? = some text := by
  cases response with
  | jobStats | tubeStats | serverStats | tubes =>
    exact congrArg some (Message.document.inj h)
  | _ => cases h

/-- A message tells its response, or the text of the document that the response brings. -/
theorem message_eq_iff {a b : Response} : a.message = b.message ↔
    a = b ∨ ∃ text, a.text? = some text ∧ b.text? = some text := by
  constructor
  · intro h
    cases htext : a.text? with
    | some text =>
      exact Or.inr ⟨text, rfl, text?_of_message (h.symm.trans (message_of_text? htext))⟩
    | none =>
      refine Or.inl ?_
      cases a <;> cases htext <;> cases b <;> cases h <;> rfl
  · rintro (rfl | ⟨text, ha, hb⟩)
    · rfl
    · exact (message_of_text? ha).trans (message_of_text? hb).symm

/-- A client takes the responses of a stream apart, one for one and with nothing left over, and each
of them before it knows what follows. What it gets tells all of a response, or of one that brings a
document the text of the document. That of a tube list gives it the names in order. -/
theorem wire_read_back (h : Yaml.Writer.ListsNames) :
    (∀ responses : List Response,
      Message.readAll? (responses.flatMap wire) = some (responses.map message)) ∧
    (∀ (response : Response) (rest : Bytes),
      Message.read? (response.wire ++ rest) = some (response.message, rest)) ∧
    (∀ a b : Response, a.message = b.message ↔
      a = b ∨ ∃ text, a.text? = some text ∧ b.text? = some text) ∧
    ∀ names : List TubeName, ∃ text, (tubes names).message = .document text ∧
      tubeNames? text = some names := by
  refine ⟨fun responses => ?_, fun response => response.message.read?_wire,
    fun a b => message_eq_iff, fun names => ⟨_, rfl, tubeNames?_tubeDocument h names⟩⟩
  rw [← Message.readAll?_wire, List.flatMap_map]
  rfl

end Response

end Responses

/-- A list of names in the writing of the program, which quotes the second of them. -/
theorem Response.wire_read_back_quotedName :
    Yaml.Writer.ListsNames ∧
    ∃ names : List TubeName, names.map TubeName.bytes = [ascii "default", ascii "1e3"] ∧
      (tubes names).message = .document (ascii "- default\n- '1e3'\n") ∧
      tubeNames? (ascii "- default\n- '1e3'\n") = some names := by
  refine ⟨Yaml.listsNames, [.default, ⟨ascii "1e3", by decide⟩], by decide, ?_⟩
  obtain ⟨text, hmessage, hnames⟩ :=
    (wire_read_back Yaml.listsNames).2.2.2 [.default, ⟨ascii "1e3", by decide⟩]
  have htext : text = ascii "- default\n- '1e3'\n" :=
    (Message.document.inj hmessage).symm.trans (by decide +kernel)
  exact htext ▸ ⟨hmessage, hnames⟩

/-- A body that looks like responses is read as a body. -/
example : Message.readAll?
    ((Response.reserved 7 (ascii "KICKED 2\r\nOK 9\r\n")).wire ++ (Response.notice .kicked).wire) =
      some [.reserved 7 (ascii "KICKED 2\r\nOK 9\r\n"), .notice .kicked] := by decide +kernel

end WorkQueue
