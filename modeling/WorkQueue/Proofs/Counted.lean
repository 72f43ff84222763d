import WorkQueue.Proofs.HangUps
import WorkQueue.Proofs.Takings
import WorkQueue.Proofs.Tallies

/-!
# What a server counts

A connection cuts its stream into requests, however the bytes arrive, and hands on the commands of
those that are complete (`Connection.Along`). So at any time the counts of a server tell the verbs
of the requests that it has seen to, those of all connections together, and these are the first
ones of the streams as they have been heard (`Server.Accounts`). Lines that are no commands are not
among them, and neither are bodies that are too big or do not end where they should
(`Piece.verb?`).

A connection that can make no turn has seen to all complete requests, unless it waits for the answer
to a reservation, or has been closed by a `quit` or by a line that is too long (`Doing.StandsAt`).
-/

namespace WorkQueue

open Connection

open Yaml (Writer)

variable {config : Config} {seen : List Piece} {begun : Bytes} {piece : Piece} {command : Command}

/-! ## Requests -/

/-- The verb of the command that a request brings. There is none if the line is no command, or if
the body is too big or does not end where it should. -/
def Piece.verb? (config : Config) : Piece → Option Verb
  | line text => (Command.parse text).toOption.map Command.verb
  | withBody command size block =>
    if size ≤ config.maxJobSize ∧ block.drop size = crlf then some command.verb else none

/-- The verb of the last request. -/
def lastVerb? (config : Config) (seen : List Piece) : Option Verb :=
  seen.getLast?.bind (Piece.verb? config)

theorem lastVerb?_concat (config : Config) (seen : List Piece) (piece : Piece) :
    lastVerb? config (seen ++ [piece]) = piece.verb? config := by
  rw [lastVerb?, List.getLast?_concat, Option.bind_some]

/-- The verbs that are answered by a request. -/
def Verb.reservations : List Verb :=
  [.reserve, .reserveWithTimeout]

/-- The line of a `put`, with its end. -/
inductive PutLine : Bytes → Command → Nat → Prop
  | intro {line : Bytes} {pri delay ttr size : UInt32} (hline : IsLine line)
      (hparse : Command.parse line = .ok (.put pri delay ttr size)) :
      PutLine (line ++ crlf) (.put pri delay ttr size) size.toNat

namespace PutLine

variable {size : Nat} {bytes : Bytes}

theorem first?_eq (h : PutLine begun command size) (bytes : Bytes) :
    Piece.first? (begun ++ bytes) = if size + 2 ≤ bytes.length then
      some (.withBody command size (bytes.take (size + 2)), bytes.drop (size + 2)) else none := by
  cases h with
  | intro hline hparse =>
    have hfirst := @Piece.first?_line _ bytes hline
    rwa [hparse] at hfirst

theorem first?_block (h : PutLine begun command size) (hlen : bytes.length = size + 2) :
    Piece.first? (begun ++ bytes) = some (.withBody command size bytes, []) := by
  rw [h.first?_eq, ← hlen, if_pos (Nat.le_refl _), List.take_length, List.drop_length]

theorem first?_eq_none (h : PutLine begun command size) (hlt : bytes.length < size + 2) :
    Piece.first? (begun ++ bytes) = none := by
  rw [h.first?_eq, if_neg (Nat.not_le_of_lt hlt)]

end PutLine

/-! ## Where a connection stands -/

namespace Doing

/-- What a connection that can make no turn has left of its stream, behind the requests that it has
seen to. -/
def StandsAt (config : Config) (seen : List Piece) (rest : Bytes) : Doing → Prop
  | reading _ | receiving .. | skipping _ => Piece.first? rest = none
  | waiting _ held => (∃ v ∈ Verb.reservations, lastVerb? config seen = some v) ∧
    match held with
    | none => findCrlf? rest = none
    | some line => line ++ crlf <+: rest
  | closed => lastVerb? config seen = some .quit ∨ Piece.first? rest = none ∨
    ∃ line, line <+: rest ∧ Overlong line

/-- What a connection has in hand of the next request. -/
def HasBegun (config : Config) (seen : List Piece) (begun : Bytes) : Doing → Prop
  | reading held => (∀ line ∈ held, IsLine line) ∧ begun = restore held []
  | receiving command size => PutLine begun command size ∧ size ≤ config.maxJobSize
  | skipping size => (∃ command, PutLine begun command size) ∧ config.maxJobSize < size
  | waiting _ held => (∃ v ∈ Verb.reservations, lastVerb? config seen = some v) ∧
    (∀ line ∈ held, IsLine line) ∧ begun = restore held []
  | closed => False

end Doing

/-- Why a connection has been closed. -/
inductive Closes (config : Config) (seen : List Piece) (begun : Bytes) (left : Source) : Prop
  | quit (h : lastVerb? config seen = some .quit)
  | streamOver (hover : Over left.2) (hnone : Piece.first? (begun ++ left.1) = none)
  | tooLong (hbegun : begun = []) (hlong : Overlong left.1)

theorem Closes.standsAt {left : Source} (h : Closes config seen begun left) :
    Doing.closed.StandsAt config seen (begun ++ ahead left) := by
  cases h with
  | quit h => exact Or.inl h
  | streamOver hover hnone =>
    rw [ahead, hover.streamOf, List.append_nil]
    exact Or.inr (Or.inl hnone)
  | tooLong hbegun hlong =>
    subst hbegun
    exact Or.inr (Or.inr ⟨left.1, List.prefix_append .., hlong⟩)

theorem Closes.arrive {left : Source} (h : Closes config seen begun left) (more : List Read) :
    Closes config seen begun (left.1, left.2 ++ more) := by
  cases h with
  | quit h => exact .quit h
  | streamOver hover hnone => exact .streamOver (hover.append more) hnone
  | tooLong hbegun hlong => exact .tooLong hbegun hlong

namespace Connection

variable {k : Connection} {b : Broker} {reads : List Read} {verbs : List Verb} {taken : Bytes}
  {result : Connection × Broker}

def source (k : Connection) : Source :=
  (k.buffer.bytes, k.inbox)

/-- Of what has arrived, a connection has taken the requests that it has seen to and what it has in
hand, and the rest is still to be read. -/
inductive Along (config : Config) (reads : List Read) (seen : List Piece) (k : Connection) : Prop
  | onTheWay (taken begun : Bytes) (takes : Takes ([], reads) taken k.source)
      (cut : Cut taken seen begun) (marked : k.buffer.Marked)
      (hasBegun : k.doing.HasBegun config seen begun)
  | closed (isClosed : k.doing = .closed) (taken begun : Bytes) (left : Source)
      (takes : Takes ([], reads) taken left) (cut : Cut taken seen begun)
      (closes : Closes config seen begun left)

theorem along_new (config : Config) (c : ClientId) : Along config [] [] { client := c } :=
  .onTheWay [] [] (.refl _) (.nil []) (Or.inl rfl) ⟨nofun, rfl⟩

theorem Along.arrive (h : k.Along config reads seen) (read : Read) :
    Along config (reads ++ [read]) seen { k with inbox := k.inbox ++ [read] } := by
  cases h with
  | onTheWay taken begun takes cut marked hasBegun =>
    exact .onTheWay taken begun (takes.arrive [read]) cut marked hasBegun
  | closed isClosed taken begun left takes cut closes =>
    exact .closed isClosed taken begun _ (takes.arrive [read]) cut (closes.arrive [read])

/-! ### Calls -/

section Calls

variable {α : Type} {call : CallResult α × LineBuffer × List Read} {fits : α → Bytes → Prop}
  {lacks long : Bytes → Prop}
  (hmeets : Meets (k.buffer.bytes, k.reads) fits lacks long (withoutMark call))

include hmeets

/-- A call that is done takes its bytes off what has arrived. -/
theorem source_after {got : α} (hdone : call.1 = .done got) :
    ∃ taken, fits got taken ∧ Takes k.source taken (k.after call).source := by
  obtain ⟨taken, hfits, htakes⟩ := hmeets.done got hdone
  obtain ⟨behind, hleft, htakes⟩ := htakes.of_concat
  have hinbox : (k.after call).inbox = behind := by
    have hreads : call.2.2 = behind ++ [.notReady] := hleft
    rw [after, hreads, List.dropLast_concat]
  refine ⟨taken, hfits, ?_⟩
  rw [source, source, hinbox]
  exact htakes

/-- A call that is broken off has found something missing for good, or too much of a line. -/
theorem closes_of_broken (config : Config) (seen : List Piece) (begun : Bytes)
    (hbroken : call.1.isBroken = true)
    (hlacks : ∀ bytes, lacks bytes → Piece.first? (begun ++ bytes) = none)
    (hlong : ∀ bytes, long bytes → begun = [] ∧ Overlong bytes) :
    ∃ left, Takes k.source [] left ∧ Closes config seen begun left := by
  obtain ⟨⟨bytes, later⟩, htakes, hhalts⟩ := hmeets.halts (CallResult.isDone_of_isBroken hbroken)
  obtain ⟨behind, rfl, htakes⟩ := htakes.of_concat
  have hhalts : Halts lacks long call.1 (bytes, behind ++ [.notReady]) := hhalts
  refine ⟨_, htakes, ?_⟩
  generalize call.1 = result at hhalts hbroken
  -- the reads end with one that is not ready, so none before it has broken off the call if `behind`
  -- is empty
  cases behind with
  | nil =>
    cases hhalts with
    | givenUp => cases hbroken
    | tooLong h => exact .tooLong (hlong _ h).1 (hlong _ h).2
  | cons read rest =>
    cases hhalts with
    | ended h => exact .streamOver (.ended _) (hlacks _ h)
    | failed h => exact .streamOver (.failed _ _) (hlacks _ h)
    | givenUp => cases hbroken
    | tooLong h => exact .tooLong (hlong _ h).1 (hlong _ h).2

/-- A call that is given up has found something missing of all that has arrived. -/
theorem lacks_of_givenUp (hgiven : call.1 = .givenUp) : lacks (ahead k.source) := by
  obtain ⟨left, htakes, hhalts⟩ := hmeets.halts (hgiven ▸ rfl)
  have hahead : ahead k.source = ahead left := by
    rw [← List.nil_append (ahead left), ← htakes.ahead_eq, ahead, ahead, reads, streamOf_concat]
    rfl
  exact hahead ▸ Halts.lacks_ahead (hgiven ▸ hhalts)

end Calls

/-! ### Turns -/

/-- A turn sees to some requests, whose verbs are counted. -/
def SeesTo (config : Config) (reads : List Read) (seen : List Piece) (verbs : List Verb)
    (result : Connection × Broker) : Prop :=
  ∃ fresh, result.1.Along config reads (seen ++ fresh) ∧ result.2.config = config ∧
    result.2.commands.Tells (verbs ++ fresh.filterMap (Piece.verb? config))

theorem reserves_of_later {c : ClientId} {body : Option Bytes} {request : RequestId}
    (h : (b.perform c command body).1 = .later request) : command.verb ∈ Verb.reservations := by
  obtain ⟨-, timeout, hasks⟩ := Broker.reservation_of_later h
  cases command with
  | reserve | reserveWithTimeout => simp [Command.verb, Verb.reservations]
  | _ => cases hasks

/-- `quit` alone is not answered. -/
theorem quits_of_close {c : ClientId} {body : Option Bytes}
    (h : (b.perform c command body).1 = .close) : command.verb = .quit := by
  cases command with
  | quit => rfl
  | reserve | reserveWithTimeout | watch | stats | listTubes | useTube => cases h
  | release | bury | touch | kickJob => cases h
  | put =>
    simp only [Broker.perform, Broker.put] at h
    split at h
    · split at h <;> cases h
    · cases h
  | _ =>
    simp only [Broker.perform, Broker.reserveJob, Broker.delete, Broker.kick, Broker.ignore,
      Broker.pauseTube, Broker.peekTube, Broker.show?] at h
    split at h <;> cases h

section Turns

variable (hconfig : b.config = config) (hcounts : b.commands.Tells verbs)

include hconfig hcounts

theorem seesTo_nothing (h : k.Along config reads seen) : SeesTo config reads seen verbs (k, b) :=
  ⟨[], (List.append_nil seen).symm ▸ h, hconfig, (List.append_nil verbs).symm ▸ hcounts⟩

/-- A call that is broken off closes the connection. -/
theorem seesTo_broken {α : Type} {call : CallResult α × LineBuffer × List Read}
    {fits : α → Bytes → Prop} {lacks long : Bytes → Prop}
    (hmeets : Meets (k.buffer.bytes, k.reads) fits lacks long (withoutMark call))
    (takes : Takes ([], reads) taken k.source) (cut : Cut taken seen begun)
    (hbroken : call.1.isBroken = true)
    (hlacks : ∀ bytes, lacks bytes → Piece.first? (begun ++ bytes) = none)
    (hlong : ∀ bytes, long bytes → begun = [] ∧ Overlong bytes) {k' : Connection}
    (hclosed : k'.doing = .closed) (c : ClientId) :
    SeesTo config reads seen verbs (k', b.disconnect c) := by
  obtain ⟨left, hleft, hcloses⟩ := closes_of_broken hmeets config seen begun hbroken hlacks hlong
  refine seesTo_nothing (b := b.disconnect c) hconfig hcounts ?_
  have htakes := takes.trans hleft
  rw [List.append_nil] at htakes
  exact .closed hclosed taken begun left htakes cut hcloses

variable [Writer] {first : Branch}

theorem seesTo_respond (takes : Takes ([], reads) taken k.source)
    (cut : Cut taken (seen ++ [piece]) []) (marked : k.buffer.Marked)
    (hverb : piece.verb? config = none) (response : Response) :
    SeesTo config reads seen verbs (k.respond response, b) := by
  have hnone : [piece].filterMap (Piece.verb? config) = [] := by
    rw [List.filterMap_cons_none hverb, List.filterMap_nil]
  refine ⟨[piece], .onTheWay taken [] takes cut marked ⟨nofun, rfl⟩, hconfig, ?_⟩
  rw [hnone, List.append_nil]
  exact hcounts

theorem seesTo_dispatch (takes : Takes ([], reads) taken k.source)
    (cut : Cut taken (seen ++ [piece]) []) (marked : k.buffer.Marked)
    (hverb : piece.verb? config = some command.verb) (body : Option Bytes) :
    SeesTo config reads seen verbs (k.dispatch b command body) := by
  have hsome : [piece].filterMap (Piece.verb? config) = [command.verb] := by
    rw [List.filterMap_cons_some hverb, List.filterMap_nil]
  have hlast : lastVerb? config (seen ++ [piece]) = some command.verb :=
    (lastVerb?_concat ..).trans hverb
  obtain ⟨hsame, htells⟩ := Broker.tells_dispatch hcounts k.client command body
  rw [← hsome] at htells
  unfold dispatch
  cases hresult : b.dispatch k.client command body with
  | mk reply b' =>
    rw [hresult] at hsame htells
    have hreply : ((b.record command.verb).perform k.client command body).1 = reply :=
      congrArg Prod.fst hresult
    cases reply with
    | now response =>
      exact ⟨[piece], .onTheWay taken [] takes cut marked ⟨nofun, rfl⟩, hsame.trans hconfig, htells⟩
    | later request =>
      have hreserves := reserves_of_later hreply
      exact ⟨[piece], .onTheWay taken [] takes cut marked ⟨⟨_, hreserves, hlast⟩, nofun, rfl⟩,
        hsame.trans hconfig, htells⟩
    | close =>
      rw [quits_of_close hreply] at hlast
      exact ⟨[piece], .closed rfl taken [] k.source takes cut (.quit hlast), hsame.trans hconfig,
        htells⟩

/-- A line that has been taken is seen to, or it is that of a `put`. -/
theorem seesTo_handle {line : Bytes} (takes : Takes ([], reads) taken k.source)
    (cut : Cut taken seen (line ++ crlf)) (marked : k.buffer.Marked) (hline : IsLine line) :
    SeesTo config reads seen verbs (k.handle b line) := by
  have hfirst := @Piece.first?_line _ [] hline
  rw [List.append_nil] at hfirst
  unfold handle
  cases hparse : Command.parse line with
  | error error =>
    have hverb : (Piece.line line).verb? config = none := by
      rw [Piece.verb?, hparse]
      rfl
    rw [hparse] at hfirst
    exact seesTo_respond hconfig hcounts takes (cut.concat hfirst) marked hverb _
  | ok command =>
    have hverb : (Piece.line line).verb? config = some command.verb := by
      rw [Piece.verb?, hparse]
      rfl
    cases command with
    | put pri delay ttr size =>
      have hput : PutLine (line ++ crlf) (.put pri delay ttr size) size.toNat :=
        .intro hline hparse
      dsimp only
      split
      · next hbig =>
        exact seesTo_nothing hconfig hcounts
          (.onTheWay taken _ takes cut marked ⟨⟨_, hput⟩, hconfig ▸ hbig⟩)
      · next hfits =>
        exact seesTo_nothing hconfig hcounts
          (.onTheWay taken _ takes cut marked ⟨hput, hconfig ▸ Nat.le_of_not_lt hfits⟩)
    | _ =>
      rw [hparse] at hfirst
      exact seesTo_dispatch hconfig hcounts takes (cut.concat hfirst) marked hverb none

theorem seesTo_handleBody {size : Nat} {block : Bytes} (takes : Takes ([], reads) taken k.source)
    (cut : Cut taken (seen ++ [.withBody command size block]) []) (marked : k.buffer.Marked)
    (hfits : size ≤ config.maxJobSize) :
    SeesTo config reads seen verbs (k.handleBody b command size block) := by
  unfold handleBody
  split
  · next hend =>
    exact seesTo_dispatch hconfig hcounts takes cut marked (if_pos ⟨hfits, hend⟩) _
  · next hend =>
    exact seesTo_respond hconfig hcounts takes cut marked (if_neg fun h => hend h.2) _

theorem seesTo_readLine (takes : Takes ([], reads) taken k.source) (cut : Cut taken seen [])
    (marked : k.buffer.Marked) {go : Connection → Bytes → Connection × Broker}
    (hgo : ∀ k' taken' line, Takes ([], reads) taken' k'.source → Cut taken' seen (line ++ crlf) →
      k'.buffer.Marked → IsLine line → SeesTo config reads seen verbs (go k' line))
    (hturn : k.readLine b go = some result) : SeesTo config reads seen verbs result := by
  have hmeets := LineBuffer.meets_readLine marked.intact k.reads
  unfold readLine at hturn
  cases hcall : (k.buffer.readLine .givesUp k.reads).1 with
  | done line =>
    simp only [hcall, Option.some.injEq] at hturn
    subst hturn
    obtain ⟨_, ⟨hline, rfl⟩, hleft⟩ := source_after hmeets hcall
    exact hgo _ _ line (takes.trans hleft) cut.append marked.readLine hline
  | givenUp =>
    simp only [hcall] at hturn
    cases hturn
  | _ =>
    simp only [hcall, Option.some.injEq] at hturn
    subst hturn
    exact seesTo_broken hconfig hcounts hmeets takes cut (hcall ▸ rfl)
      (fun bytes hnone => Piece.first?_eq_none hnone) (fun bytes hlong => ⟨rfl, hlong⟩) rfl _

theorem seesTo_receiving {size : Nat} (hd : k.doing = .receiving command size)
    (takes : Takes ([], reads) taken k.source) (cut : Cut taken seen begun)
    (marked : k.buffer.Marked) (hput : PutLine begun command size)
    (hfits : size ≤ config.maxJobSize) (hturn : k.turn first b = some result) :
    SeesTo config reads seen verbs result := by
  have hmeets := LineBuffer.meets_readExact (size + 2) k.buffer k.reads
  simp only [turn, hd] at hturn
  cases hcall : (k.buffer.readExact .givesUp (size + 2) k.reads).1 with
  | done block =>
    simp only [hcall, Option.some.injEq] at hturn
    subst hturn
    obtain ⟨_, ⟨hlen, rfl⟩, hleft⟩ := source_after hmeets hcall
    exact seesTo_handleBody hconfig hcounts (takes.trans hleft)
      (cut.append.concat (hput.first?_block hlen)) marked.readExact hfits
  | givenUp =>
    simp only [hcall] at hturn
    cases hturn
  | _ =>
    simp only [hcall, Option.some.injEq] at hturn
    subst hturn
    exact seesTo_broken hconfig hcounts hmeets takes cut (hcall ▸ rfl)
      (fun bytes hlt => hput.first?_eq_none hlt) (fun bytes h => h.elim) rfl _

theorem seesTo_skipping {size : Nat} (hd : k.doing = .skipping size)
    (takes : Takes ([], reads) taken k.source) (cut : Cut taken seen begun)
    (hput : PutLine begun command size) (hbig : config.maxJobSize < size)
    (hturn : k.turn first b = some result) : SeesTo config reads seen verbs result := by
  have hmeets := LineBuffer.meets_discard (size + 2) k.buffer k.reads
  simp only [turn, hd] at hturn
  cases hcall : (k.buffer.discard .givesUp (size + 2) k.reads).1 with
  | done =>
    simp only [hcall, Option.some.injEq] at hturn
    subst hturn
    obtain ⟨block, hlen, hleft⟩ := source_after hmeets hcall
    have hmarked : (k.buffer.discard .givesUp (size + 2) k.reads).2.1.Marked := by
      have hdone := congrArg CallResult.isDone hcall
      rcases LineBuffer.discard_marked_or_empty with ⟨-, hmarked⟩ | ⟨hnot, -⟩
      · exact hmarked
      · cases hnot.symm.trans hdone
    exact seesTo_respond hconfig hcounts (takes.trans hleft)
      (cut.append.concat (hput.first?_block hlen)) hmarked
      (if_neg fun h => Nat.not_le_of_lt hbig h.1) _
  | givenUp =>
    simp only [hcall] at hturn
    cases hturn
  | _ =>
    simp only [hcall, Option.some.injEq] at hturn
    subst hturn
    exact seesTo_broken hconfig hcounts hmeets takes cut (hcall ▸ rfl)
      (fun bytes hlt => hput.first?_eq_none hlt) (fun bytes h => h.elim) rfl _

/-- What a turn has in hand and what it takes make up requests, and the commands among them are
counted. -/
theorem Along.turn (h : k.Along config reads seen) (hturn : k.turn first b = some result) :
    SeesTo config reads seen verbs result := by
  cases h with
  | closed isClosed => exact absurd isClosed (turned hturn).wasOpen
  | onTheWay taken begun takes cut marked hasBegun =>
    cases hd : k.doing with
    | reading held =>
      rw [hd] at hasBegun
      obtain ⟨hheld, rfl⟩ := hasBegun
      unfold Connection.turn at hturn
      simp only [hd] at hturn
      cases held with
      | some line =>
        rw [restore, List.append_nil] at cut
        obtain rfl := Option.some.inj hturn
        exact seesTo_handle hconfig hcounts takes cut marked (hheld line rfl)
      | none =>
        refine seesTo_readLine hconfig hcounts takes cut marked (fun k' taken' line => ?_) hturn
        exact seesTo_handle hconfig hcounts
    | receiving command size =>
      rw [hd] at hasBegun
      exact seesTo_receiving hconfig hcounts hd takes cut marked hasBegun.1 hasBegun.2 hturn
    | skipping size =>
      rw [hd] at hasBegun
      obtain ⟨⟨command, hput⟩, hbig⟩ := hasBegun
      exact seesTo_skipping hconfig hcounts hd takes cut hput hbig hturn
    | waiting request held =>
      rw [hd] at hasBegun
      obtain ⟨hlast, hheld, rfl⟩ := hasBegun
      rcases turn_waiting hd hturn with htake | hahead
      · obtain ⟨response, -, rfl⟩ := takeAnswer_eq_some htake
        exact seesTo_nothing hconfig hcounts (.onTheWay taken _ takes cut marked ⟨hheld, rfl⟩)
      · cases held with
        | some line => cases hahead
        | none =>
          rw [readAhead_none] at hahead
          refine seesTo_readLine hconfig hcounts takes cut marked
            (fun k' taken' line takes' cut' marked' hline => ?_) hahead
          refine seesTo_nothing hconfig hcounts (.onTheWay taken' _ takes' cut' marked'
            ⟨hlast, fun _ hmem => Option.some.inj hmem ▸ hline, (List.append_nil _).symm⟩)
    | closed =>
      rw [hd] at hasBegun
      exact hasBegun.elim

end Turns

/-! ### At rest -/

theorem cut_streamOf {left : Source} (takes : Takes ([], reads) taken left)
    (cut : Cut taken seen begun) : Cut (streamOf reads) seen (begun ++ ahead left) := by
  have hahead : streamOf reads = taken ++ ahead left := takes.ahead_eq
  exact hahead ▸ cut.append

/-- The requests that a connection has seen to are the first ones of its stream. -/
theorem Along.cut (h : k.Along config reads seen) : ∃ rest, Cut (streamOf reads) seen rest := by
  cases h with
  | onTheWay taken begun takes cut => exact ⟨_, cut_streamOf takes cut⟩
  | closed _ taken begun left takes cut => exact ⟨_, cut_streamOf takes cut⟩

variable [Writer] {first : Branch}

theorem findCrlf?_of_still (marked : k.buffer.Marked)
    {go : Connection → Bytes → Connection × Broker} (h : k.readLine b go = none) :
    findCrlf? (ahead k.source) = none :=
  lacks_of_givenUp (LineBuffer.meets_readLine marked.intact k.reads)
    (readLine_eq_none_iff.1 h)

/-- What a connection that can make no turn has seen to, and where it stands. -/
theorem Along.standsAt (h : k.Along config reads seen) (hstill : k.turn first b = none) :
    ∃ rest, Cut (streamOf reads) seen rest ∧ k.doing.StandsAt config seen rest := by
  cases h with
  | closed isClosed taken begun left takes cut closes =>
    exact ⟨_, cut_streamOf takes cut, isClosed ▸ closes.standsAt⟩
  | onTheWay taken begun takes cut marked hasBegun =>
    refine ⟨_, cut_streamOf takes cut, ?_⟩
    cases hd : k.doing with
    | reading held =>
      rw [hd] at hasBegun
      obtain ⟨-, rfl⟩ := hasBegun
      unfold Connection.turn at hstill
      simp only [hd] at hstill
      cases held with
      | some line => cases hstill
      | none => exact Piece.first?_eq_none (findCrlf?_of_still marked hstill)
    | receiving command size =>
      rw [hd] at hasBegun
      have hmeets := LineBuffer.meets_readExact (size + 2) k.buffer k.reads
      unfold Connection.turn at hstill
      simp only [hd] at hstill
      cases hcall : (k.buffer.readExact .givesUp (size + 2) k.reads).1 with
      | givenUp => exact hasBegun.1.first?_eq_none (lacks_of_givenUp hmeets hcall)
      | _ => simp [hcall] at hstill
    | skipping size =>
      rw [hd] at hasBegun
      obtain ⟨⟨command, hput⟩, -⟩ := hasBegun
      have hmeets := LineBuffer.meets_discard (size + 2) k.buffer k.reads
      unfold Connection.turn at hstill
      simp only [hd] at hstill
      cases hcall : (k.buffer.discard .givesUp (size + 2) k.reads).1 with
      | givenUp => exact hput.first?_eq_none (lacks_of_givenUp hmeets hcall)
      | _ => simp [hcall] at hstill
    | waiting request held =>
      rw [hd] at hasBegun
      obtain ⟨hlast, -, rfl⟩ := hasBegun
      refine ⟨hlast, ?_⟩
      cases held with
      | some line =>
        rw [restore, List.append_nil]
        exact List.prefix_append ..
      | none =>
        have hahead := ((turn_waiting_eq_none_iff hd).1 hstill).2
        rw [readAhead_none] at hahead
        exact findCrlf?_of_still marked hahead
    | closed =>
      rw [hd] at hasBegun
      exact hasBegun.elim

end Connection

namespace Server

variable {s s' : Server} {c : ClientId} {log : List (ClientId × Piece)}
  {arrived : ClientId → List Read}

/-! ## What has been heard -/

/-- What an event brings to the connection of a client. -/
def Event.read? (c : ClientId) : Event → Option Read
  | receive d bytes => if d = c ∧ bytes.isEmpty = false then some (.bytes bytes) else none
  | hangUp d => if d = c then some (.bytes []) else none
  | _ => none

/-- What an event brings to the connection of a client, if there is one. -/
def brings (s : Server) (c : ClientId) (event : Event) : List Read :=
  if c ∈ s.connections.keys then (event.read? c).toList else []

/-! ## What has been seen to -/

/-- The requests of a client among all that have been seen to. -/
def requestsOf (c : ClientId) (log : List (ClientId × Piece)) : List Piece :=
  (log.filter (·.1 = c)).map (·.2)

theorem requestsOf_append (c d : ClientId) (log : List (ClientId × Piece)) (fresh : List Piece) :
    requestsOf c (log ++ fresh.map (d, ·)) =
      requestsOf c log ++ if d = c then fresh else [] := by
  rw [requestsOf, List.filter_append, List.map_append, List.filter_map, List.map_map]
  refine congrArg (requestsOf c log ++ ·) ?_
  by_cases h : d = c
  · simp [h, Function.comp_def]
  · simp [h, Function.comp_def]

/-- The verbs of all requests. -/
def verbsOf (config : Config) (log : List (ClientId × Piece)) : List Verb :=
  log.filterMap fun entry => entry.2.verb? config

theorem verbsOf_append (config : Config) (c : ClientId) (log : List (ClientId × Piece))
    (fresh : List Piece) : verbsOf config (log ++ fresh.map (c, ·)) =
      verbsOf config log ++ fresh.filterMap (Piece.verb? config) := by
  rw [verbsOf, List.filterMap_append, List.filterMap_map]
  rfl

/-- Each connection has seen to the requests of its client, and all are counted. -/
structure Logged (config : Config) (arrived : ClientId → List Read)
    (log : List (ClientId × Piece)) (s : Server) : Prop where
  sameConfig : s.broker.config = config
  counts : s.broker.commands.Tells (verbsOf config log)
  along : ∀ k ∈ s.connections, k.Along config (arrived k.client) (requestsOf k.client log)
  silent : ∀ c, c ∉ s.connections.keys → arrived c = [] ∧ requestsOf c log = []

namespace Logged

theorem arrive {event : Event} (h : Logged config arrived log s) (c : ClientId) (read : Read)
    (hread : ∀ d, event.read? d = if c = d then some read else none) :
    Logged config (fun d => arrived d ++ s.brings d event) log (s.arrive c read) := by
  refine ⟨h.sameConfig, h.counts, fun k hk => ?_, fun d hd => ?_⟩
  · rcases Table.mem_adjust.1 hk with ⟨old, hold, hkey, rfl⟩ | ⟨hmem, hne⟩
    · obtain rfl : old.client = c := hkey
      have hclient : old.client ∈ s.connections.keys := List.mem_map_of_mem hold
      have hbrings : s.brings old.client event = [read] := by
        rw [brings, if_pos hclient, hread, if_pos rfl]
        rfl
      dsimp only
      rw [hbrings]
      exact (h.along old hold).arrive read
    · have hne : c ≠ k.client := Ne.symm hne
      have hbrings : s.brings k.client event = [] := by
        rw [brings, hread, if_neg hne, Option.toList_none, ite_self]
      rw [hbrings, List.append_nil]
      exact h.along k hmem
  · rw [keys_arrive] at hd
    rw [brings, if_neg hd, List.append_nil]
    exact h.silent d hd

theorem accept (h : Logged config arrived log s) (hs : Sound s) :
    Logged config arrived log s.accept := by
  obtain ⟨harrived, hlog⟩ := h.silent _ hs.nextClient_not_mem
  refine ⟨h.sameConfig, h.counts, fun k hk => ?_, fun c hc => ?_⟩
  · rcases List.mem_append.1 hk with hk | hk
    · exact h.along k hk
    · rw [List.mem_singleton.1 hk]
      dsimp only
      rw [harrived, hlog]
      exact along_new config _
  · refine h.silent c fun hmem => hc ?_
    rw [Server.accept, Table.keys, List.map_append]
    exact List.mem_append_left _ hmem

/-- The broker goes on by itself, and no command is given. -/
theorem passes {b : Broker} (h : Logged config arrived log s)
    (hsame : SameCounts s.broker b) : Logged config arrived log { s with broker := b } where
  sameConfig := hsame.config.trans h.sameConfig
  counts := hsame.commands ▸ h.counts
  along := h.along
  silent := h.silent

/-- An event that brings nothing. -/
theorem of_brings {event : Event} (h : Logged config arrived log s')
    (hnone : ∀ d, event.read? d = none) :
    Logged config (fun d => arrived d ++ s.brings d event) log s' := by
  have hsame : (fun d => arrived d ++ s.brings d event) = arrived := by
    funext d
    rw [brings, hnone, Option.toList_none, ite_self, List.append_nil]
  rw [hsame]
  exact h

end Logged

variable [Writer]

theorem Logged.turns (h : Logged config arrived log s) (hturns : s.Turns s') :
    ∃ log, Logged config arrived log s' := by
  have hkeys := hturns.keys
  obtain ⟨k, hk, first, result, hturn, rfl⟩ := hturns
  obtain ⟨fresh, halong, hconfig, htells⟩ := (h.along k hk).turn h.sameConfig h.counts hturn
  refine ⟨log ++ fresh.map (k.client, ·), hconfig, ?_, fun other hother => ?_, fun c hc => ?_⟩
  · rw [verbsOf_append]
    exact htells
  · rw [requestsOf_append]
    rcases Table.mem_adjust.1 hother with ⟨_, -, -, rfl⟩ | ⟨hmem, hne⟩
    · rw [(turned hturn).client, if_pos rfl]
      exact halong
    · have hne : k.client ≠ other.client := Ne.symm hne
      rw [if_neg hne, List.append_nil]
      exact h.along other hmem
  · rw [hkeys] at hc
    have hne : k.client ≠ c := fun heq => hc (heq ▸ List.mem_map_of_mem hk)
    rw [requestsOf_append, if_neg hne, List.append_nil]
    exact h.silent c hc

/-- What the events of a run bring to the connection of a client. -/
def arrivals (s : Server) (c : ClientId) : List Event → List Read
  | [] => []
  | event :: rest => s.brings c event ++ (s.step event).arrivals c rest

theorem arrivals_append (s : Server) (c : ClientId) (events : List Event) (event : Event) :
    s.arrivals c (events ++ [event]) = s.arrivals c events ++ (s.after events).brings c event := by
  induction events generalizing s with
  | nil => exact List.append_nil _
  | cons first rest ih =>
    rw [List.cons_append, arrivals, ih, arrivals, List.append_assoc]
    rfl

/-- The bytes of a client that have been heard, up to the end of its stream. -/
def heard (s : Server) (c : ClientId) (events : List Event) : Bytes :=
  streamOf (s.arrivals c events)

/-! ## Accounts -/

/-- An event is taken account of. -/
theorem Logged.event (h : Logged config arrived log s) (hs : Sound s) (event : Event) :
    ∃ log, Logged config (fun c => arrived c ++ s.brings c event) log (s.step event) := by
  cases event with
  | accept => exact ⟨log, (h.accept hs).of_brings fun _ => rfl⟩
  | receive c bytes =>
    rw [Server.step, receive]
    split
    · next hempty => exact ⟨log, h.of_brings fun d => if_neg fun hd => by simp [hempty] at hd⟩
    · next hempty =>
      refine ⟨log, h.arrive c (.bytes bytes) fun d => ?_⟩
      simp only [Event.read?, Bool.not_eq_true _ ▸ hempty, and_true]
  | hangUp c => exact ⟨log, h.arrive c (.bytes []) fun _ => rfl⟩
  | turn c first =>
    rw [Server.step]
    rcases turn_eq_or s c first with hsame | hturns
    · exact ⟨log, hsame.symm ▸ h.of_brings fun _ => rfl⟩
    · obtain ⟨log, hlogged⟩ := h.turns hturns
      exact ⟨log, hlogged.of_brings fun _ => rfl⟩
  | advance span =>
    exact ⟨log, (h.passes (Broker.sameCounts_advance s.broker span)).of_brings fun _ => rfl⟩
  | delayedSweep =>
    exact ⟨log, (h.passes (Broker.sameCounts_delayedSweep s.broker)).of_brings fun _ => rfl⟩
  | expirySweep =>
    exact ⟨log, (h.passes (Broker.sameCounts_expirySweep s.broker)).of_brings fun _ => rfl⟩

/-- A log accounts for what a server has done with what its clients have been heard to say. The
requests of each client are the first ones of what is heard, up to where its connection stands when
it can make no turn, and the counts tell the verbs of all requests together. -/
structure Accounts (config : Config) (heard : ClientId → Bytes) (log : List (ClientId × Piece))
    (s : Server) : Prop where
  cut : ∀ c, ∃ rest, Cut (heard c) (requestsOf c log) rest ∧
    ∀ k ∈ s.connections, k.client = c → (∀ first, k.turn first s.broker = none) →
      k.doing.StandsAt config (requestsOf c log) rest
  shows : s.broker.Shows (verbsOf config log)

theorem Logged.accounts (h : Logged config arrived log s) (hs : Sound s) :
    Accounts config (fun c => streamOf (arrived c)) log s := by
  refine ⟨fun c => ?_, Broker.shows_of_tells h.counts⟩
  by_cases hc : c ∈ s.connections.keys
  · obtain ⟨k, hk, rfl⟩ := List.mem_map.1 hc
    have hself {other : Connection} (hother : other ∈ s.connections)
        (hclient : other.client = k.client) : other = k :=
      Table.eq_of_key_eq hs.keys hother hk hclient
    by_cases hstill : ∀ first, k.turn first s.broker = none
    · obtain ⟨rest, hcut, hstands⟩ := (h.along k hk).standsAt (hstill .answer)
      exact ⟨rest, hcut, fun other hother hclient _ => hself hother hclient ▸ hstands⟩
    · obtain ⟨rest, hcut⟩ := (h.along k hk).cut
      exact ⟨rest, hcut, fun other hother hclient hnone =>
        absurd (hself hother hclient ▸ hnone) hstill⟩
  · obtain ⟨harrived, hlog⟩ := h.silent c hc
    rw [harrived, hlog]
    exact ⟨[], .nil [], fun k hk hclient => absurd (hclient ▸ List.mem_map_of_mem hk) hc⟩

theorem logged_after (config : Config) (events : List Event) :
    ∃ log, Logged config ((start config).arrivals · events) log ((start config).after events) := by
  induction events using List.reverseRecOn with
  | nil =>
    exact ⟨[], rfl, CommandCounts.tells_new, List.forall_mem_nil _, fun _ _ => ⟨rfl, rfl⟩⟩
  | append_singleton earlier event ih =>
    obtain ⟨log, hlogged⟩ := ih
    have hs := ((Reachable.start config).after earlier).sound
    simp only [arrivals_append, after, List.foldl_append]
    exact hlogged.event hs event

/-- The counts that are shown are those of all verbs but `quit`, and they tell of each how often it
has been used : in every run of a broker by the commands of connected clients, and in every run of a
server by the requests in the streams of its clients. -/
theorem counts_commands (config : Config) :
    (CommandCounts.shown.Nodup ∧ CommandCounts.shown.length = 24 ∧
      ∀ v, v ∈ CommandCounts.shown ↔ v ≠ .quit) ∧
    (∀ events, ((Broker.start config).after events).Shows
      ((Broker.start config).history Broker.verb? events)) ∧
    ∀ events, ∃ log,
      Accounts config ((start config).heard · events) log ((start config).after events) := by
  refine ⟨⟨CommandCounts.nodup_shown, rfl, fun v => CommandCounts.mem_shown_iff⟩,
    fun events => Broker.shows_of_tells (Broker.tells_after config events), fun events => ?_⟩
  obtain ⟨log, hlogged⟩ := logged_after config events
  exact ⟨log, hlogged.accounts ((Reachable.start config).after events).sound⟩

end Server

/-- Of a body that is too big, one that does not end in time, an unknown word, and a `quit` with a
`stats` on either side of it, only the first `stats` is counted. -/
example :
    let s := (((Server.start { maxJobSize := 3 }).accept.receive 1 (ascii
      "put 0 0 60 4\r\nabcd\r\nput 0 0 60 1\r\nabcbogus\r\nstats\r\nquit\r\nstats\r\n"))).settle
    s.broker.commands.get .stats = 1 ∧ ∀ v ∈ Verb.all, v ≠ .stats →
      s.broker.commands.get v = 0 := by decide +kernel

end WorkQueue
