import WorkQueue.Proofs.Chunks
import WorkQueue.Proofs.Table
import WorkQueue.Server.Event

/-!
# Servers come to rest

A call leaves a part of the reads it was made on, and if it is done, the bytes it was made for are
gone, but not the end of the stream (`LineBuffer.Spends`). So whatever arrives, a turn leaves less
work for its connection (`Connection.turned`), which says as well what it does to the broker. That
bounds the turns that the connections of a server can make in any order (`Server.length_le_work`),
and when it has settled no connection can make one (`Server.settle_still`).
-/

namespace WorkQueue

open Yaml (Writer)

/-! ## What a call leaves -/

namespace LineBuffer

variable {α : Type} {n : Nat} {buffer : LineBuffer} {reads : List Read} {patience : Patience}

/-- The stream ends before a read that is not ready. -/
inductive Ending : List Read → Prop
  | here (reads : List Read) : Ending (.bytes [] :: reads)
  | later (bytes : Bytes) {reads : List Read} (h : Ending reads) : Ending (.bytes bytes :: reads)

namespace Ending

theorem tail {read : Read} (h : Ending (read :: reads)) (hne : read ≠ .bytes []) :
    Ending reads := by
  cases h with
  | here => exact absurd rfl hne
  | later _ h => exact h

theorem append (h : Ending reads) (more : List Read) : Ending (reads ++ more) := by
  induction h with
  | here => exact .here _
  | later bytes _ ih => exact .later bytes ih

theorem of_concat (h : Ending (reads ++ [.notReady])) : Ending reads := by
  induction reads with
  | nil => cases h
  | cons read rest ih =>
    cases h with
    | here => exact .here rest
    | later bytes h => exact .later bytes (ih h)

theorem of_arrived (h : ∀ read ∈ reads, ∃ bytes, read = .bytes bytes) :
    Ending (reads ++ [.bytes []]) := by
  induction reads with
  | nil => exact .here []
  | cons read rest ih =>
    obtain ⟨bytes, rfl⟩ := h read List.mem_cons_self
    exact .later bytes (ih fun read hread => h read (List.mem_cons_of_mem _ hread))

end Ending

/-- The bytes in a buffer and in the reads to come. -/
def present (buffer : LineBuffer) (reads : List Read) : Nat :=
  buffer.bytes.length + reads.foldr (fun read n => read.size + n) 0

/-- A call leaves the last of its reads, and `n` bytes less if it is done. It does not go past the
end of the stream. -/
structure Spends (n : Nat) (buffer : LineBuffer) (reads : List Read)
    (call : CallResult α × LineBuffer × List Read) : Prop where
  left : call.2.2 <:+ reads
  bytes : present call.2.1 call.2.2 + (if call.1.isDone then n else 0) ≤ present buffer reads
  ending : Ending reads → call.1 ≠ .givenUp ∧ (call.1.isDone = true → Ending call.2.2)

theorem present_extend (buffer : LineBuffer) (arrived : Bytes) (reads : List Read) :
    present (buffer.extend arrived) reads = present buffer (.bytes arrived :: reads) := by
  simp only [present, extend, List.length_append, List.foldr_cons, Read.size, Nat.add_assoc]

theorem present_append (buffer : LineBuffer) (arrived : Bytes) (reads : List Read) :
    present (buffer.append arrived) reads = present buffer (.bytes arrived :: reads) := by
  simp only [present, append, List.length_append, List.foldr_cons, Read.size, Nat.add_assoc]

theorem present_extend_nil (buffer : LineBuffer) (reads : List Read) :
    present (buffer.extend []) reads = present buffer reads := by
  simp only [present, extend, List.append_nil]

theorem present_le_cons (buffer : LineBuffer) (read : Read) (reads : List Read) :
    present buffer reads ≤ present buffer (read :: reads) :=
  Nat.add_le_add_left (Nat.le_add_left _ _) _

theorem present_drop (h : n ≤ buffer.bytes.length) :
    present (buffer.drop n) reads + n = present buffer reads := by
  simp only [present, drop, List.length_drop]
  omega

/-- A buffer that is dropped as a whole. -/
theorem present_drop_of_lt (h : ¬n ≤ buffer.bytes.length) :
    present (buffer.drop n) reads + buffer.bytes.length = present buffer reads := by
  simp only [present, drop, List.drop_eq_nil_of_le (Nat.le_of_not_le h), List.length_nil]
  omega

theorem present_drop_le (n : Nat) (buffer : LineBuffer) (reads : List Read) :
    present (buffer.drop n) reads ≤ present buffer reads := by
  simp only [present, drop, List.length_drop]
  omega

theorem length_of_takeLine {text : Bytes} {rest : LineBuffer}
    (h : buffer.takeLine = .line text rest) : rest.bytes.length + 2 ≤ buffer.bytes.length := by
  unfold takeLine at h
  split at h
  · next n hfirst =>
    cases h
    have hle := (findCrlf?_eq_some_iff.1 hfirst).1.length_le
    rw [List.length_drop] at hle ⊢
    omega
  · split at h <;> cases h

namespace Spends

variable {later : LineBuffer} {read : Read} {left : List Read} {result : CallResult α}

/-- The call goes on behind a read, with some bytes taken already. -/
theorem dropping {k : Nat} {call : CallResult α × LineBuffer × List Read}
    (h : Spends (n - k) later reads call) (hread : read ≠ .bytes [])
    (hle : present later reads + k ≤ present buffer (read :: reads)) :
    Spends n buffer (read :: reads) call := by
  refine ⟨h.left.trans (List.suffix_cons read reads), ?_, fun hend => h.ending (hend.tail hread)⟩
  have hbytes := h.bytes
  cases hdone : call.1.isDone with
  | true =>
    simp only [hdone, if_true] at hbytes ⊢
    omega
  | false =>
    simp only [hdone, Bool.false_eq_true, if_false] at hbytes ⊢
    omega

theorem behind {call : CallResult α × LineBuffer × List Read} (h : Spends n later reads call)
    (hread : read ≠ .bytes []) (hle : present later reads ≤ present buffer (read :: reads)) :
    Spends n buffer (read :: reads) call :=
  h.dropping (k := 0) hread hle

/-- A call that is done takes the bytes off the buffer. -/
theorem of_done (got : α) (hle : present later reads + n ≤ present buffer reads) :
    Spends n buffer reads (.done got, later, reads) :=
  ⟨List.suffix_refl _, hle, fun hend => ⟨by simp, fun _ => hend⟩⟩

/-- A call that is not done need not leave less. -/
theorem of_not_done (hresult : result.isDone = false)
    (hgiven : result ≠ .givenUp ∨ ¬Ending reads) (hleft : left <:+ reads)
    (hle : present later left ≤ present buffer reads) :
    Spends n buffer reads (result, later, left) :=
  ⟨hleft, by rw [hresult]; exact hle, fun hend => ⟨hgiven.resolve_right (not_not_intro hend),
    fun hdone => absurd (hresult.symm.trans hdone) Bool.false_ne_true⟩⟩

end Spends

theorem spends_readLine (patience : Patience) (buffer : LineBuffer) (reads : List Read) :
    Spends 2 buffer reads (buffer.readLine patience reads) := by
  fun_induction readLine patience buffer reads with
  | case1 buffer reads text rest htake =>
    have hle := length_of_takeLine htake
    refine .of_done _ ?_
    simp only [present]
    omega
  | case2 => exact .of_not_done rfl (Or.inl (by simp)) (List.suffix_refl _) (Nat.le_refl _)
  | case3 buffer =>
    exact .of_not_done rfl (Or.inl (by simp)) (List.suffix_refl _)
      (Nat.le_of_eq (present_extend ..))
  | case4 buffer _ reads =>
    exact .of_not_done rfl (Or.inl (by simp)) (List.suffix_cons _ _)
      (Nat.le_of_eq (present_extend ..))
  | case5 _ _ _ _ hne ih =>
    exact ih.behind (fun heq => hne (Read.bytes.inj heq)) (Nat.le_of_eq (present_extend ..))
  | case6 =>
    refine .of_not_done rfl (Or.inl (by simp)) (List.suffix_cons _ _) ?_
    rw [present_extend_nil]
    exact present_le_cons ..
  | case7 _ _ _ hwaits ih =>
    subst hwaits
    exact ih.behind (by simp) (present_le_cons ..)
  | case8 =>
    exact .of_not_done rfl (Or.inr fun hend => by cases hend) (List.suffix_cons _ _)
      (present_le_cons ..)

theorem spends_readExact (patience : Patience) (n : Nat) (buffer : LineBuffer)
    (reads : List Read) : Spends n buffer reads (buffer.readExact patience n reads) := by
  fun_induction readExact patience n buffer reads with
  | case1 reads buffer hle => exact .of_done _ (Nat.le_of_eq (present_drop hle))
  | case2 => exact .of_not_done rfl (Or.inl (by simp)) (List.suffix_refl _) (Nat.le_refl _)
  | case3 | case5 =>
    exact .of_not_done rfl (Or.inl (by simp)) (List.suffix_cons _ _) (present_le_cons ..)
  | case4 _ _ _ _ hne ih =>
    exact ih.behind (fun heq => hne (Read.bytes.inj heq)) (Nat.le_of_eq (present_append ..))
  | case6 _ _ _ hwaits ih =>
    subst hwaits
    exact ih.behind (by simp) (present_le_cons ..)
  | case7 =>
    exact .of_not_done rfl (Or.inr fun hend => by cases hend) (List.suffix_cons _ _)
      (present_le_cons ..)

theorem spends_discard (patience : Patience) (n : Nat) (buffer : LineBuffer)
    (reads : List Read) : Spends n buffer reads (buffer.discard patience n reads) := by
  fun_induction discard patience n buffer reads with
  | case1 n reads buffer hle => exact .of_done _ (Nat.le_of_eq (present_drop hle))
  | case2 n buffer =>
    exact .of_not_done rfl (Or.inl (by simp)) (List.suffix_refl _) (present_drop_le n buffer [])
  | case3 n buffer _ _ reads | case5 n buffer _ _ _ reads =>
    have hle := present_drop_le n buffer reads
    exact .of_not_done rfl (Or.inl (by simp)) (List.suffix_cons _ _)
      (Nat.le_trans hle (present_le_cons ..))
  | case4 n buffer hlt _ _ arrived reads hne ih =>
    refine ih.dropping (fun heq => hne (Read.bytes.inj heq)) (Nat.le_of_eq ?_)
    rw [present_append, present_drop_of_lt hlt]
  | case6 n buffer hlt _ _ reads hwaits ih =>
    subst hwaits
    refine ih.dropping (by simp) ?_
    rw [present_drop_of_lt hlt]
    exact present_le_cons ..
  | case7 n buffer _ _ reads =>
    have hle := present_drop_le n buffer reads
    exact .of_not_done rfl (Or.inr fun hend => by cases hend) (List.suffix_cons _ _)
      (Nat.le_trans hle (present_le_cons ..))

end LineBuffer

/-! ## What a turn does -/

theorem size_dropLast_le (reads : List Read) :
    reads.dropLast.foldr (fun read n => read.size + n) 0 ≤
      reads.foldr (fun read n => read.size + n) 0 := by
  induction reads with
  | nil => exact Nat.le_refl _
  | cons read rest ih =>
    cases rest with
    | nil => exact Nat.zero_le _
    | cons => exact Nat.add_le_add_left ih _

namespace Connection

open LineBuffer

variable {α : Type} {n : Nat} {k : Connection} {b : Broker}

def size (k : Connection) : Nat :=
  k.buffer.bytes.length + k.inbox.foldr (fun read n => read.size + n) 0

theorem work_eq (k : Connection) : k.work = 2 * k.size + k.doing.rank := rfl

/-- What a request of a client makes of the broker. -/
def Carries (c : ClientId) (b carried : Broker) : Prop :=
  carried = b ∨ ∃ command body, carried = (b.dispatch c command body).2

/-- What handling a request comes to. -/
structure Handled (k : Connection) (b : Broker) (result : Connection × Broker) : Prop where
  client : result.1.client = k.client
  inbox : result.1.inbox = k.inbox
  sent : k.sent <+: result.1.sent
  work : result.1.work ≤ 2 * k.size + 4
  broker : ∃ carried, Carries k.client b carried ∧
    result.2 = if result.1.doing = .closed then carried.disconnect k.client else carried

/-- What a turn comes to. It takes back nothing that has been sent, leaves less work, and closes the
connection only if it disconnects the client. -/
structure Turned (k : Connection) (b : Broker) (result : Connection × Broker) : Prop where
  wasOpen : k.doing ≠ .closed
  client : result.1.client = k.client
  inbox : result.1.inbox ⊆ k.inbox
  sent : k.sent <+: result.1.sent
  work : result.1.work < k.work
  broker : ∃ carried, Carries k.client b carried ∧
    result.2 = if result.1.doing = .closed then carried.disconnect k.client else carried
  ending : Ending k.inbox → result.1.doing = .closed ∨ Ending result.1.inbox

section Call

variable {call : CallResult α × LineBuffer × List Read} (h : Spends n k.buffer k.reads call)

include h

theorem size_after : (k.after call).size + (if call.1.isDone then n else 0) ≤ k.size := by
  have hsize : present k.buffer k.reads = k.size := by
    simp [present, reads, size, Read.size]
  have hdrop : (k.after call).size ≤ present call.2.1 call.2.2 :=
    Nat.add_le_add_left (size_dropLast_le _) _
  have hbytes := h.bytes
  omega

theorem inbox_after : (k.after call).inbox ⊆ k.inbox ∧
    (Ending call.2.2 → Ending (k.after call).inbox) := by
  have hleft : call.2.2 <:+ k.inbox ++ [.notReady] := h.left
  change call.2.2.dropLast ⊆ k.inbox ∧ (Ending call.2.2 → Ending call.2.2.dropLast)
  rcases List.suffix_concat_iff.1 hleft with hnil | ⟨left, hsplit, hleft⟩
  · rw [hnil]
    exact ⟨List.nil_subset _, id⟩
  · rw [hsplit, List.dropLast_concat]
    exact ⟨hleft.subset, Ending.of_concat⟩

variable {result : Connection × Broker} (hopen : k.doing ≠ .closed) (hrank : 1 ≤ k.doing.rank)

include hopen hrank

/-- A call that is done is gone on with. -/
theorem turned_handled (hdone : call.1.isDone = true) (hn : 2 ≤ n)
    (hresult : Handled (k.after call) b result) : Turned k b result where
  wasOpen := hopen
  client := hresult.client
  inbox := hresult.inbox ▸ (inbox_after h).1
  sent := hresult.sent
  work := by
    have hsize := size_after h
    have hwork := hresult.work
    rw [if_pos hdone] at hsize
    rw [work_eq k]
    omega
  broker := hresult.broker
  ending hend := by
    have hleft := (h.ending (hend.append _)).2 hdone
    exact Or.inr (hresult.inbox ▸ (inbox_after h).2 hleft)

/-- A call that is not done closes the connection, with a reply or without. -/
theorem turned_closed {sent : Bytes} (hsent : k.sent <+: sent) : Turned k b
    ({ k.after call with sent := sent, doing := .closed }, b.disconnect k.client) where
  wasOpen := hopen
  client := rfl
  inbox := (inbox_after h).1
  sent := hsent
  work := by
    have hsize := size_after h
    have hwork : work { k.after call with sent := sent, doing := .closed } =
        2 * (k.after call).size := rfl
    rw [hwork, work_eq k]
    omega
  broker := ⟨b, Or.inl rfl, (if_pos rfl).symm⟩
  ending _ := Or.inl rfl

end Call

section Turns

variable [Writer] {first first' : Branch} {request : RequestId} {held : Option Bytes}
  {result : Connection × Broker}

/-! ### Branches -/

/-- A connection that waits takes an answer, or a line. -/
theorem turn_waiting (hd : k.doing = .waiting request held) (h : k.turn first b = some result) :
    k.takeAnswer b request held = some result ∨ k.readAhead b request held = some result := by
  unfold turn at h
  simp only [hd] at h
  cases first with
  | answer => exact (Option.or_eq_some_iff.1 h).imp_right And.right
  | stream => exact (Option.or_eq_some_iff.1 h).symm.imp_left And.right

theorem turn_waiting_eq_none_iff (hd : k.doing = .waiting request held) :
    k.turn first b = none ↔
      k.takeAnswer b request held = none ∧ k.readAhead b request held = none := by
  unfold turn
  simp only [hd]
  cases first with
  | answer => exact Option.or_eq_none_iff
  | stream => exact Option.or_eq_none_iff.trans and_comm

/-- What a connection looks at first makes a difference only while it waits. -/
theorem turn_of_not_waiting (hd : ∀ request held, k.doing ≠ .waiting request held) :
    k.turn first b = k.turn first' b := by
  unfold turn
  cases h : k.doing with
  | waiting request held => exact absurd h (hd request held)
  | reading held => cases held <;> rfl
  | _ => rfl

/-- And it makes none to whether there is a turn. -/
theorem turn_eq_none (h : k.turn first b = none) : k.turn first' b = none := by
  by_cases hd : ∃ request held, k.doing = .waiting request held
  · obtain ⟨request, held, hd⟩ := hd
    exact (turn_waiting_eq_none_iff hd).2 ((turn_waiting_eq_none_iff hd).1 h)
  · rw [← h]
    exact turn_of_not_waiting fun request held heq => hd ⟨request, held, heq⟩

theorem readAhead_none (k : Connection) (b : Broker) (request : RequestId) :
    k.readAhead b request none =
      k.readLine b fun k line => ({ k with doing := .waiting request (some line) }, b) := rfl

theorem readLine_eq_none_iff {go : Connection → Bytes → Connection × Broker} :
    k.readLine b go = none ↔ (k.buffer.readLine .givesUp k.reads).1 = .givenUp := by
  unfold readLine
  dsimp only
  split <;> simp [*]

theorem takeAnswer_eq_none_iff : k.takeAnswer b request held = none ↔ b.response? request = none :=
  Option.map_eq_none_iff

theorem takeAnswer_eq_some (h : k.takeAnswer b request held = some result) :
    ∃ response, b.response? request = some response ∧
      result = ({ k.send response with doing := .reading held }, b) := by
  obtain ⟨response, hresponse, heq⟩ := Option.map_eq_some_iff.1 h
  exact ⟨response, hresponse, heq.symm⟩

/-! ### Work -/

theorem work_dispatch_le (command : Command) (body : Option Bytes) :
    (k.dispatch b command body).1.work ≤ 2 * k.size + 2 := by
  unfold dispatch
  cases b.dispatch k.client command body with
  | mk reply b' =>
    cases reply with
    | now response => exact Nat.le_succ _
    | later request => exact Nat.le_refl _
    | close => exact Nat.le_add_right _ 2

theorem work_handle_le (line : Bytes) : (k.handle b line).1.work ≤ 2 * k.size + 2 := by
  unfold handle
  split
  · exact Nat.le_succ _
  · split
    · exact Nat.le_succ _
    · exact Nat.le_succ _
  · exact work_dispatch_le _ _

/-! ### Each turn -/

theorem handled_respond (k : Connection) (b : Broker) (response : Response) :
    Handled k b (k.respond response, b) where
  client := rfl
  inbox := rfl
  sent := List.prefix_append ..
  work := Nat.le_add_right _ 3
  broker := ⟨b, Or.inl rfl, (if_neg nofun).symm⟩

theorem handled_dispatch (k : Connection) (b : Broker) (command : Command) (body : Option Bytes) :
    Handled k b (k.dispatch b command body) := by
  have hle : (k.dispatch b command body).1.work ≤ _ := work_dispatch_le command body
  have hwork := Nat.le_trans hle (Nat.le_add_right _ 2)
  unfold dispatch at hwork ⊢
  cases hresult : b.dispatch k.client command body with
  | mk reply carried =>
    rw [hresult] at hwork
    have hcarries : Carries k.client b carried := Or.inr ⟨command, body, by rw [hresult]⟩
    cases reply with
    | now => exact ⟨rfl, rfl, List.prefix_append .., hwork, carried, hcarries, (if_neg nofun).symm⟩
    | later => exact ⟨rfl, rfl, List.prefix_refl _, hwork, carried, hcarries, (if_neg nofun).symm⟩
    | close => exact ⟨rfl, rfl, List.prefix_refl _, hwork, carried, hcarries, (if_pos rfl).symm⟩

theorem handled_handleBody (k : Connection) (b : Broker) (command : Command) (size : Nat)
    (block : Bytes) : Handled k b (k.handleBody b command size block) := by
  unfold handleBody
  split
  · exact handled_dispatch ..
  · exact handled_respond ..

theorem handled_handle (k : Connection) (b : Broker) (line : Bytes) :
    Handled k b (k.handle b line) := by
  unfold handle
  split
  · exact handled_respond ..
  · split
    · exact ⟨rfl, rfl, List.prefix_refl _, Nat.le_add_right _ 3, b, Or.inl rfl, (if_neg nofun).symm⟩
    · exact ⟨rfl, rfl, List.prefix_refl _, Nat.le_add_right _ 3, b, Or.inl rfl, (if_neg nofun).symm⟩
  · exact handled_dispatch ..

theorem turned_readLine {go : Connection → Bytes → Connection × Broker}
    (hopen : k.doing ≠ .closed) (hrank : 1 ≤ k.doing.rank)
    (hgo : ∀ k' line, Handled k' b (go k' line))
    (h : k.readLine b go = some result) : Turned k b result := by
  have hspends := spends_readLine .givesUp k.buffer k.reads
  unfold readLine at h
  dsimp only at h
  split at h
  case h_1 line hdone =>
    obtain rfl := Option.some.inj h
    exact turned_handled hspends hopen hrank (by rw [hdone]; rfl) (Nat.le_refl _) (hgo _ line)
  case h_2 =>
    obtain rfl := Option.some.inj h
    exact turned_closed hspends hopen hrank (List.prefix_append ..)
  case h_5 => cases h
  all_goals
    obtain rfl := Option.some.inj h
    exact turned_closed hspends hopen hrank (List.prefix_refl _)

theorem turned_takeAnswer (hd : k.doing = .waiting request held)
    (h : k.takeAnswer b request held = some result) : Turned k b result := by
  obtain ⟨response, -, rfl⟩ := takeAnswer_eq_some h
  have hwork : work { k.send response with doing := .reading held } < k.work := by
    rw [work_eq k, hd]
    cases held <;> exact Nat.lt_succ_self _
  exact ⟨hd ▸ nofun, rfl, List.Subset.refl _, List.prefix_append .., hwork,
    ⟨b, Or.inl rfl, (if_neg nofun).symm⟩, Or.inr⟩

theorem turned_readAhead (hd : k.doing = .waiting request held)
    (h : k.readAhead b request held = some result) : Turned k b result := by
  cases held with
  | some line => cases h
  | none =>
    have hwaits (k' : Connection) (line : Bytes) :
        Handled k' b ({ k' with doing := .waiting request (some line) }, b) :=
      ⟨rfl, rfl, List.prefix_refl _, Nat.le_refl _, b, Or.inl rfl, (if_neg nofun).symm⟩
    exact turned_readLine (hd ▸ nofun) (hd ▸ Nat.le_succ 1) hwaits (readAhead_none .. ▸ h)

theorem turned (h : k.turn first b = some result) : Turned k b result := by
  cases hd : k.doing with
  | reading held =>
    unfold turn at h
    simp only [hd] at h
    cases held with
    | some line =>
      obtain rfl := Option.some.inj h
      have hhandled := handled_handle k b line
      have hwork : (k.handle b line).1.work < k.work := by
        rw [work_eq k, hd]
        exact Nat.lt_succ_of_le (work_handle_le line)
      exact ⟨hd ▸ nofun, hhandled.client, hhandled.inbox ▸ List.Subset.refl _, hhandled.sent, hwork,
        hhandled.broker, fun hend => Or.inr (hhandled.inbox ▸ hend)⟩
    | none =>
      exact turned_readLine (hd ▸ nofun) (hd ▸ Nat.le_refl 1)
        (fun k' line => handled_handle k' b line) h
  | receiving command size =>
    have hspends := spends_readExact .givesUp (size + 2) k.buffer k.reads
    have hopen : k.doing ≠ .closed := hd ▸ nofun
    have hrank : 1 ≤ k.doing.rank := hd ▸ Nat.le_refl 1
    unfold turn at h
    simp only [hd] at h
    split at h
    case h_1 block hdone =>
      obtain rfl := Option.some.inj h
      exact turned_handled hspends hopen hrank (by rw [hdone]; rfl) (Nat.le_add_left 2 size)
        (handled_handleBody ..)
    case h_5 => cases h
    all_goals
      obtain rfl := Option.some.inj h
      exact turned_closed hspends hopen hrank (List.prefix_refl _)
  | skipping size =>
    have hspends := spends_discard .givesUp (size + 2) k.buffer k.reads
    have hopen : k.doing ≠ .closed := hd ▸ nofun
    have hrank : 1 ≤ k.doing.rank := hd ▸ Nat.le_refl 1
    unfold turn at h
    simp only [hd] at h
    split at h
    case h_1 hdone =>
      obtain rfl := Option.some.inj h
      exact turned_handled hspends hopen hrank (by rw [hdone]; rfl) (Nat.le_add_left 2 size)
        (handled_respond ..)
    case h_5 => cases h
    all_goals
      obtain rfl := Option.some.inj h
      exact turned_closed hspends hopen hrank (List.prefix_refl _)
  | waiting request held =>
    rcases turn_waiting hd h with hanswer | hahead
    · exact turned_takeAnswer hd hanswer
    · exact turned_readAhead hd hahead
  | closed =>
    unfold turn at h
    simp only [hd] at h
    cases h

end Turns

end Connection

/-! ## Turns of a server -/

namespace Server

open Connection

variable [Writer] {s s' : Server} {c : ClientId} {first : Branch} {n : Nat}

/-- One of the connections makes a turn, and is replaced by what it comes to. -/
def Turns (s s' : Server) : Prop :=
  ∃ k ∈ s.connections, ∃ first result, k.turn first s.broker = some result ∧
    s' = { broker := result.2, connections := s.connections.adjust k.client fun _ => result.1 }

/-- No connection can make a turn. -/
def Still (s : Server) : Prop :=
  ∀ k ∈ s.connections, ∀ first, k.turn first s.broker = none

theorem turns_of_step (h : s.step? = some s') : s.Turns s' := by
  obtain ⟨k, hk, hturn⟩ := List.exists_of_findSome?_eq_some h
  obtain ⟨result, hresult, rfl⟩ := Option.map_eq_some_iff.1 hturn
  exact ⟨k, hk, .answer, result, hresult, rfl⟩

theorem step?_eq_none_iff : s.step? = none ↔ s.Still := by
  simp only [step?, List.findSome?_eq_none_iff, Option.map_eq_none_iff]
  exact forall₂_congr fun k _ => ⟨fun h _ => turn_eq_none h, fun h => h .answer⟩

/-- It is a connection's turn, but it may not be able to make one. -/
theorem turn_eq_or (s : Server) (c : ClientId) (first : Branch) :
    s.turn c first = s ∨ s.Turns (s.turn c first) := by
  rw [turn]
  cases hresult : (s.connections.lookup c).bind fun k => k.turn first s.broker with
  | none => exact Or.inl rfl
  | some result =>
    obtain ⟨k, hlookup, hturn⟩ := Option.bind_eq_some_iff.1 hresult
    obtain rfl : k.client = c := Table.key_of_lookup hlookup
    exact Or.inr ⟨k, Table.mem_of_lookup hlookup, first, result, hturn, rfl⟩

theorem turn_of_mem (hkeys : s.connections.keys.Nodup) {k : Connection} (hk : k ∈ s.connections)
    {result : Connection × Broker} (hturn : k.turn first s.broker = some result) :
    s.turn k.client first =
      { broker := result.2, connections := s.connections.adjust k.client fun _ => result.1 } := by
  have hlookup : s.connections.lookup k.client = some k := Table.lookup_of_mem hkeys hk
  rw [turn, hlookup, Option.bind_some, hturn]

/-- A bound on the turns of all connections until more arrives. -/
def work (s : Server) : Nat :=
  (s.connections.map Connection.work).sum

theorem settle_eq (s : Server) : s.settle = steps s.work s := by
  rw [settle, work, List.sum_eq_foldr, List.foldr_map]

theorem Turns.keys (h : s.Turns s') : s'.connections.keys = s.connections.keys := by
  obtain ⟨k, -, first, result, hturn, rfl⟩ := h
  exact Table.keys_adjust_const s.connections (turned hturn).client

/-- A turn leaves less work. -/
theorem Turns.work_lt (h : s.Turns s') (hkeys : s.connections.keys.Nodup) : s'.work < s.work := by
  obtain ⟨k, hk, first, result, hturn, rfl⟩ := h
  have hturned := turned hturn
  have hsum := Table.sum_adjust_const hkeys hk result.1 Connection.work
  have hless := hturned.work
  exact Nat.lt_of_add_lt_add_right (hsum ▸ Nat.add_lt_add_left hless _)

/-- Turns in a row. -/
inductive TurnsOn : Nat → Server → Server → Prop
  | refl (s : Server) : TurnsOn 0 s s
  | step {n : Nat} {s s' s'' : Server} (h : s.Turns s') (hrest : TurnsOn n s' s'') :
      TurnsOn (n + 1) s s''

/-- Whichever connections make them, there are not more turns than there is work. -/
theorem TurnsOn.length_le_work (h : TurnsOn n s s') (hkeys : s.connections.keys.Nodup) :
    n ≤ s.work := by
  induction h with
  | refl => exact Nat.zero_le _
  | step h _ ih => exact Nat.lt_of_le_of_lt (ih (h.keys ▸ hkeys)) (h.work_lt hkeys)

/-- Enough steps take the server to where no connection can make a turn. -/
theorem steps_still (hkeys : s.connections.keys.Nodup) (hn : s.work ≤ n) :
    (steps n s).Still := by
  induction n generalizing s with
  | zero =>
    rw [steps, ← step?_eq_none_iff]
    by_contra hstep
    obtain ⟨s', hstep⟩ := Option.ne_none_iff_exists'.1 hstep
    have hless := (turns_of_step hstep).work_lt hkeys
    exact Nat.not_lt_zero _ (Nat.lt_of_lt_of_le hless hn)
  | succ n ih =>
    rw [steps]
    split
    · next s' hstep =>
      have hturns := turns_of_step hstep
      have hless := hturns.work_lt hkeys
      exact ih (hturns.keys ▸ hkeys) (Nat.le_of_lt_succ (Nat.lt_of_lt_of_le hless hn))
    · next hstep => exact step?_eq_none_iff.1 hstep

theorem settle_still (hkeys : s.connections.keys.Nodup) : s.settle.Still :=
  settle_eq s ▸ steps_still hkeys (Nat.le_refl _)

/-- What every turn keeps is kept while the server settles. -/
theorem steps_keeps {P : Server → Prop} (hP : ∀ s s', P s → s.Turns s' → P s') (n : Nat)
    (h : P s) : P (steps n s) := by
  induction n generalizing s with
  | zero => exact h
  | succ n ih =>
    rw [steps]
    split
    · next s' hstep => exact ih (hP s s' h (turns_of_step hstep))
    · exact h

/-- A server settles by turns of its connections. -/
theorem settle_eq_after (hkeys : s.connections.keys.Nodup) : ∃ turns : List ClientId,
    s.settle = s.after (turns.map (.turn · .answer)) := by
  rw [settle_eq]
  generalize s.work = n
  induction n generalizing s with
  | zero => exact ⟨[], rfl⟩
  | succ n ih =>
    rw [steps]
    split
    · next s' hstep =>
      have hturns := turns_of_step hstep
      obtain ⟨k, hk, hturn⟩ := List.exists_of_findSome?_eq_some hstep
      obtain ⟨result, hresult, heq⟩ := Option.map_eq_some_iff.1 hturn
      obtain ⟨turns, hsteps⟩ := ih (hturns.keys ▸ hkeys)
      refine ⟨k.client :: turns, hsteps.trans ?_⟩
      have hturn : s.turn k.client .answer = s' := (turn_of_mem hkeys hk hresult).trans heq
      exact congrArg (fun t : Server => t.after _) hturn.symm
    · exact ⟨[], rfl⟩

end Server

end WorkQueue
