import Mathlib.Data.List.Nodup
import WorkQueue.Proofs.Addresses
import WorkQueue.Proofs.Headcount
import WorkQueue.Proofs.Leaving

/-!
# Watch lists and the list of tubes

The commands of a client tell what it watches : it starts with the default tube, a name that it
watches comes last, and one that it ignores is taken out unless it is the only one
(`Broker.watchList`). And the uses and watches of all clients tell what tubes there are : the
default one, and then each name when it is mentioned first (`Broker.tubeList`).

`Broker.lists_follow` has it that the broker goes by these lists at every moment, and that the
replies show them. A tube that is mentioned again is the one that is there, and no other event makes
a tube.

The directory that goes along with the broker has the same tubes, each at an address of its own for
good, in its map as in its list, and gives the same replies, although it watches by address and
ignores by name (`Directory.Keeps`).
-/

namespace WorkQueue

/-- A tube but for the counts of its clients. -/
def Tube.unmanned (tube : Tube) : Tube :=
  { tube with users := 0, watchers := 0 }

/-! ## The lists -/

namespace Command

/-- What a command makes of a watch list. -/
def rewatch (names : List TubeName) : Command → List TubeName
  | watch name => if name ∈ names then names else names ++ [name]
  | ignore name => if names = [name] then names else names.erase name
  | _ => names

/-- The name of a tube that is made unless it is there. -/
def mention? : Command → Option TubeName
  | useTube name | watch name => some name
  | _ => none

variable {names : List TubeName}

theorem nodup_rewatch (h : names.Nodup) (command : Command) :
    (command.rewatch names).Nodup := by
  unfold rewatch
  split
  · split
    · exact h
    · next hnew =>
      rw [← List.concat_eq_append]
      exact h.concat hnew
  · split
    · exact h
    · exact h.erase _
  · exact h

theorem rewatch_ne_nil (h : names ≠ []) (command : Command) : command.rewatch names ≠ [] := by
  unfold rewatch
  split
  · split
    · exact h
    · exact List.append_ne_nil_of_right_ne_nil _ (List.cons_ne_nil _ _)
  · split
    · exact h
    · next hnot => exact fun hnil => (List.erase_eq_nil_iff.1 hnil).elim h hnot
  · exact h

end Command

/-- Whether a reply is one of those about a watch list. -/
def Reply.tellsWatched : Reply → Bool
  | .now (.watching _) | .now (.notice .notIgnored) => true
  | _ => false

namespace Broker

open Engine

/-- The command of a connected client. -/
def commandOf? (c : ClientId) (b : Broker) : Event → Option Command
  | .command d command _ => if b.isConnected d && c = d then some command else none
  | _ => none

/-- The tubes that a client watches by the commands of a run. -/
def watchList (b : Broker) (events : List Event) (c : ClientId) : List TubeName :=
  (b.history (commandOf? c) events).foldl Command.rewatch [.default]

/-- The name that a connected client uses or watches. -/
def mention? (b : Broker) : Event → Option TubeName
  | .command c command _ => if b.isConnected c then command.mention? else none
  | _ => none

/-- The tubes of a run, each when it was mentioned first. -/
def tubeList (b : Broker) (events : List Event) : List TubeName :=
  (.default :: b.history mention? events).eraseDups

variable {b : Broker} {c : ClientId} {event : Event} {names : List TubeName}

theorem watchList_append (b : Broker) (events : List Event) (event : Event) (c : ClientId) :
    b.watchList (events ++ [event]) c =
      ((b.after events).commandOf? c event).elim (b.watchList events c)
        (Command.rewatch (b.watchList events c)) := by
  rw [watchList, history_append, List.foldl_append]
  cases (b.after events).commandOf? c event <;> rfl

theorem watchList_keeps {P : List TubeName → Prop} (hdefault : P [.default])
    (hstep : ∀ names command, P names → P (Command.rewatch names command)) (b : Broker)
    (events : List Event) (c : ClientId) : P (b.watchList events c) :=
  List.foldlRecOn _ _ hdefault fun names h command _ => hstep names command h

theorem eraseDups_concat {α : Type} [DecidableEq α] (l : List α) (a : α) :
    (l ++ [a]).eraseDups = if a ∈ l.eraseDups then l.eraseDups else l.eraseDups ++ [a] := by
  rw [List.eraseDups_append]
  by_cases h : a ∈ l <;> simp [List.removeAll, List.mem_eraseDups, List.eraseDups_cons, h]

theorem tubeList_append (b : Broker) (events : List Event) (event : Event) :
    b.tubeList (events ++ [event]) = ((b.after events).mention? event).elim (b.tubeList events)
      fun name => if name ∈ b.tubeList events then b.tubeList events
        else b.tubeList events ++ [name] := by
  rw [tubeList, history_append, ← List.cons_append]
  cases (b.after events).mention? event with
  | none => rw [Option.toList_none, List.append_nil]; rfl
  | some name => exact eraseDups_concat _ name

/-! ## The replies about watch lists -/

theorem tellsWatched_acknowledge {notice : Notice} (hnotice : notice ≠ .notIgnored)
    (result : Bool × Engine) : (b.acknowledge notice result).1.tellsWatched = false := by
  obtain ⟨done, s⟩ := result
  cases done with
  | true =>
    change (Reply.now (.notice notice)).tellsWatched = false
    cases notice <;> first | rfl | exact absurd rfl hnotice
  | false => rfl

/-- Only a watch and an ignore are answered so. -/
theorem command_of_tellsWatched {command : Command} {body : Option Bytes}
    (h : (b.perform c command body).1.tellsWatched = true) :
    ∃ name, command = .watch name ∨ command = .ignore name := by
  cases command with
  | watch name => exact ⟨name, Or.inl rfl⟩
  | ignore name => exact ⟨name, Or.inr rfl⟩
  | reserve | reserveWithTimeout | stats | listTubes | quit | useTube => cases h
  | release | bury | touch | kickJob =>
    exact absurd h (Bool.eq_false_iff.1 (tellsWatched_acknowledge (by decide) _))
  | put =>
    simp only [perform, put] at h
    split at h
    · split at h <;> cases h
    · cases h
  | _ =>
    simp only [perform, reserveJob, delete, kick, pauseTube, peekTube, show?] at h
    split at h <;> cases h

theorem watchCount_eq (b : Broker) (c : ClientId) :
    b.engine.watchCount c = (b.watchedBy c).length := by
  rw [watchCount, watchedBy]
  cases b.engine.client? c <;> rfl

theorem watchesOnly_eq (b : Broker) (c : ClientId) (name : TubeName) :
    b.engine.watchesOnly c name = decide (b.watchedBy c = [name]) := by
  rw [watchesOnly, watchedBy]
  cases b.engine.client? c with
  | none => rfl
  | some client => exact Bool.beq_eq_decide_eq client.watching [name]

/-- The count is that of the tubes that are watched afterwards. -/
theorem reply_watch (hc : b.isConnected c = true) (name : TubeName) (body : Option Bytes) :
    (b.dispatch c (.watch name) body).1 =
      .now (.watching ((b.step (.command c (.watch name) body)).watchedBy c).length) := by
  rw [← watchCount_eq, step, if_pos hc]
  rfl

theorem reply_ignore (hc : b.isConnected c = true) (name : TubeName) (body : Option Bytes) :
    (b.dispatch c (.ignore name) body).1 =
      if b.watchedBy c = [name] then .now (.notice .notIgnored)
      else .now (.watching ((b.step (.command c (.ignore name) body)).watchedBy c).length) := by
  rw [← watchCount_eq, step, if_pos hc]
  have honly := watchesOnly_eq b c name
  simp only [dispatch, perform, ignore, engine_record, honly, decide_eq_true_eq]
  split <;> rfl

/-! ## What is watched -/

theorem watching_assigns (reply : Reply) {post : Post} (h : post.watching.Nodup)
    (command : Command) :
    (command.assigns reply post).watching = command.rewatch post.watching := by
  unfold Command.assigns
  cases command with
  | watch name =>
    simp only [Command.rewatch, List.contains_iff_mem]
    split <;> rfl
  | ignore name =>
    simp only [Command.rewatch, beq_iff_eq]
    split
    · rfl
    · rw [h.erase_eq_filter]
      exact List.filter_congr fun other _ => by rw [bne, beq_eq_decide, decide_not]
  | _ => rfl

/-- What an event makes of the watch list of a client that is open afterwards. -/
theorem watching_assigns_event (b : Broker) (event : Event) {post : Post}
    (h : post.watching.Nodup) (hopen : (b.assigns event post).closed = false) :
    (b.assigns event post).watching =
      (b.commandOf? post.id event).elim post.watching (Command.rewatch post.watching) := by
  cases event with
  | command c command body =>
    simp only [assigns, commandOf?]
    split
    · next hsent => rw [watching_assigns _ h]; rfl
    · rfl
  | disconnect c =>
    simp only [assigns] at hopen ⊢
    split at hopen
    · cases hopen
    · next hnot => rw [if_neg hnot]; rfl
  | _ => rfl

/-- In every run, an open client watches what its commands tell. -/
theorem watched_told (config : Config) (events : List Event) :
    (∀ post ∈ ((start config).after events).engine.clients.map Client.post,
      post.closed = false → post.watching = (start config).watchList events post.id) ∧
    ∀ c, c ∉ (((start config).after events).engine.clients.map Client.post).map (·.id) →
      (start config).watchList events c = [.default] := by
  induction events using List.reverseRecOn with
  | nil => exact ⟨List.forall_mem_nil _, fun _ _ => rfl⟩
  | append_singleton earlier event ih =>
    obtain ⟨htold, hstrange⟩ := ih
    have h := (Reachable.start config).after earlier
    have hdistinct : ∀ post ∈ ((start config).after earlier).engine.clients.map Client.post,
        post.watching.Nodup := fun post hpost => by
      obtain ⟨client, hmem, rfl⟩ := List.mem_map.1 hpost
      exact h.sound.posted.distinct client hmem
    rw [after_append, h.posts_step event]
    set d := (start config).after earlier
    set posts := d.engine.clients.map Client.post
    have hnone {c : ClientId} (hc : c ∉ posts.map (·.id)) :
        (start config).watchList (earlier ++ [event]) c = [.default] := by
      have hnot : d.commandOf? c event = none := by
        unfold commandOf?
        split
        · refine if_neg fun hsent => hc ?_
          obtain ⟨hcon, hd⟩ := Bool.and_eq_true_iff.1 hsent
          exact of_decide_eq_true hd ▸ mem_ids_of_isConnected hcon
        · rfl
      rw [watchList_append, hnot]
      exact hstrange c hc
    refine ⟨fun post hpost hopen => ?_, fun c hc => hnone fun hmem => hc ?_⟩
    · rcases List.mem_append.1 hpost with hold | hcome
      · obtain ⟨old, hmem, rfl⟩ := List.mem_map.1 hold
        have hopen' : old.closed = false := by
          rw [closed_assigns, Bool.or_eq_false_iff] at hopen
          exact hopen.1
        rw [id_assigns, watchList_append, watching_assigns_event d event (hdistinct old hmem) hopen,
          htold old hmem hopen']
      · cases event with
        | connect =>
          rw [List.mem_singleton.1 hcome, hnone]
          rw [List.map_map]
          exact h.sound.listed.clients.next_not_mem
        | _ => cases hcome
    · obtain ⟨old, hold, hid⟩ := List.mem_map.1 hmem
      rw [List.map_append, List.map_map]
      refine List.mem_append_left _ (List.mem_map.2 ⟨old, hold, ?_⟩)
      exact (id_assigns d event old).trans hid

theorem watchedBy_eq (config : Config) (events : List Event)
    (hc : ((start config).after events).isConnected c = true) :
    ((start config).after events).watchedBy c = (start config).watchList events c := by
  obtain ⟨client, rfl, hclient, hopen⟩ := client?_of_isConnected hc
  rw [watchedBy, hclient]
  exact (watched_told config events).1 client.post
    (List.mem_map_of_mem (Table.mem_of_lookup hclient)) hopen

/-! ## What tubes there are -/

section Unmanned

variable {s t : Engine}

theorem unmanned_adjustTube (s : Engine) (name : TubeName) {f : Tube → Tube}
    (hf : ∀ tube, (f tube).unmanned = tube.unmanned) :
    (s.adjustTube name f).tubes.map Tube.unmanned = s.tubes.map Tube.unmanned := by
  refine List.map_map.trans (List.map_congr_left fun tube _ => ?_)
  rw [Function.comp_apply]
  split
  · exact hf tube
  · rfl

theorem keys_of_unmanned (h : t.tubes.map Tube.unmanned = s.tubes.map Tube.unmanned) :
    t.tubes.keys = s.tubes.keys := by
  have hkeys (u : Engine) : u.tubes.keys = (u.tubes.map Tube.unmanned).map Tube.name := by
    rw [List.map_map]
    rfl
  rw [hkeys, hkeys, h]

theorem unmanned_useTube (hc : (s.client? c).isSome = true) (name : TubeName) :
    (s.useTube c name).tubes.map Tube.unmanned = (s.ensureTube name).tubes.map Tube.unmanned := by
  obtain ⟨client, hc⟩ := Option.isSome_iff_exists.1 hc
  simp only [Engine.useTube, hc]
  refine (unmanned_adjustTube _ client.used ?_).trans (unmanned_adjustTube _ name ?_)
  all_goals exact fun _ => rfl

theorem unmanned_watch (s : Engine) (c : ClientId) (name : TubeName) :
    (s.watch c name).tubes.map Tube.unmanned = (s.ensureTube name).tubes.map Tube.unmanned := by
  unfold Engine.watch
  dsimp only
  split
  · split
    · rfl
    · exact unmanned_adjustTube _ name fun _ => rfl
  · rfl

theorem unmanned_ignore (s : Engine) (c : ClientId) (name : TubeName) :
    (s.ignore c name).tubes.map Tube.unmanned = s.tubes.map Tube.unmanned := by
  unfold Engine.ignore
  split
  · split
    · exact unmanned_adjustTube s name fun _ => rfl
    · rfl
  · rfl

end Unmanned

theorem tubes_ensureTube (s : Engine) (name : TubeName) : (s.ensureTube name).tubes =
    if name ∈ s.tubes.keys then s.tubes else s.tubes ++ [{ name := name }] := by
  simp only [ensureTube, tube?, Table.lookup_isSome_iff]
  split <;> rfl

theorem keys_ensureTube (s : Engine) (name : TubeName) : (s.ensureTube name).tubes.keys =
    if name ∈ s.tubes.keys then s.tubes.keys else s.tubes.keys ++ [name] := by
  rw [tubes_ensureTube]
  split
  · rfl
  · exact List.map_append

/-- The mention of a tube makes it, unless it is there. But for the counts of clients, nothing else
changes. -/
theorem unmanned_of_mention {name : TubeName} (hname : b.mention? event = some name) :
    (b.step event).engine.tubes.map Tube.unmanned =
      (b.engine.ensureTube name).tubes.map Tube.unmanned := by
  unfold mention? at hname
  split at hname
  · next c command body =>
    obtain ⟨hc, hmention⟩ := Option.ite_none_right_eq_some.1 hname
    rw [step, if_pos hc]
    cases command with
    | useTube other =>
      cases hmention
      simp only [dispatch, perform, engine_record]
      exact unmanned_useTube (isSome_of_isConnected hc) name
    | watch other =>
      cases hmention
      simp only [dispatch, perform, engine_record]
      exact unmanned_watch b.engine c name
    | _ => cases hmention
  · cases hname

/-- An event without a mention makes no tube. -/
theorem Reachable.keys_of_no_mention (h : Reachable b) (hnone : b.mention? event = none) :
    (b.step event).engine.tubes.keys = b.engine.tubes.keys := by
  rw [(h.samePosts event).keys]
  cases event with
  | connect =>
    refine keys_of_unmanned ((unmanned_adjustTube _ .default ?_).trans
      (unmanned_adjustTube b.engine .default ?_))
    all_goals exact fun _ => rfl
  | command c command body =>
    simp only [repost]
    split
    · next hc =>
      simp only [mention?, hc, if_true] at hnone
      cases command with
      | useTube name | watch name => cases hnone
      | ignore name => exact keys_of_unmanned (unmanned_ignore b.engine c name)
      | pauseTube name delay =>
        unfold Command.repost
        dsimp only
        split
        · exact keys_adjustTube b.engine name fun _ => rfl
        · rfl
      | put | reserveJob =>
        unfold Command.repost
        dsimp only
        split <;> rfl
      | _ => rfl
    · rfl
  | disconnect c =>
    rw [repost]
    split
    · next hc =>
      obtain ⟨client, rfl, hclient, -⟩ := client?_of_isConnected hc
      rw [hclient]
      exact keys_depart b.engine client
    · rfl
  | advance | delayedSweep | expirySweep => rfl

theorem Reachable.keys_tubes_step (h : Reachable b) (event : Event) :
    (b.step event).engine.tubes.keys = (b.mention? event).elim b.engine.tubes.keys fun name =>
      if name ∈ b.engine.tubes.keys then b.engine.tubes.keys
      else b.engine.tubes.keys ++ [name] := by
  cases hname : b.mention? event with
  | none => exact h.keys_of_no_mention hname
  | some name => exact (keys_of_unmanned (unmanned_of_mention hname)).trans (keys_ensureTube _ _)

/-- In every run, the tubes are those that its mentions tell. -/
theorem keys_eq_tubeList (config : Config) (events : List Event) :
    ((start config).after events).engine.tubes.keys = (start config).tubeList events := by
  induction events using List.reverseRecOn with
  | nil => rfl
  | append_singleton earlier event ih =>
    rw [after_append, ((Reachable.start config).after earlier).keys_tubes_step, tubeList_append, ih]

/-- A tube stays where it is on the list. -/
theorem Reachable.tubes_stay (h : Reachable b) (later : List Event) :
    b.engine.tubes.keys <+: (b.after later).engine.tubes.keys := by
  induction later using List.reverseRecOn with
  | nil => exact List.prefix_refl _
  | append_singleton earlier event ih =>
    rw [after_append, (h.after earlier).keys_tubes_step]
    refine ih.trans ?_
    cases (b.after earlier).mention? event with
    | none => exact List.prefix_refl _
    | some name =>
      rw [Option.elim_some]
      split
      · exact List.prefix_refl _
      · exact List.prefix_append _ _

/-! ## In every run -/

/-- A connected client watches the tubes of a list, and the replies tell so. -/
structure Watches (b : Broker) (c : ClientId) (names : List TubeName) : Prop where
  distinct : names.Nodup
  nonempty : names ≠ []
  watched : b.watchedBy c = names
  shown : ∀ body, (b.dispatch c .listTubesWatched body).1 = .now (.tubes names)
  watch : ∀ name body, (b.dispatch c (.watch name) body).1 =
    .now (.watching ((Command.watch name).rewatch names).length)
  ignore : ∀ name body, names ≠ [name] → (b.dispatch c (.ignore name) body).1 =
    .now (.watching ((Command.ignore name).rewatch names).length)
  counted : ∀ command body n, (b.dispatch c command body).1 = .now (.watching n) →
    n = (command.rewatch names).length
  refused : ∀ command body, (b.dispatch c command body).1 = .now (.notice .notIgnored) ↔
    ∃ name, command = .ignore name ∧ names = [name]

/-- There are the tubes of a list, each once and for good, and the replies tell so. -/
structure HasTubes (b : Broker) (names : List TubeName) : Prop where
  distinct : names.Nodup
  keys : b.engine.tubes.keys = names
  shown : ∀ c body, (b.dispatch c .listTubes body).1 = .now (.tubes names)
  stay : ∀ later, names <+: (b.after later).engine.tubes.keys
  others : ∀ event, b.mention? event = none → (b.step event).engine.tubes.keys = names
  mentioned : ∀ event name, b.mention? event = some name →
    (b.step event).engine.tubes.map Tube.unmanned =
      (if name ∈ names then b.engine.tubes
        else b.engine.tubes ++ [{ name := name }]).map Tube.unmanned

theorem watches_watchList (config : Config) (events : List Event)
    (hc : ((start config).after events).isConnected c = true) :
    ((start config).after events).Watches c ((start config).watchList events c) := by
  have hwatched := watchedBy_eq config events hc
  have h : Reachable ((start config).after events) := (Reachable.start config).after events
  -- the client is still connected after its command, and watches what the longer run tells
  have hnext (command : Command) (body : Option Bytes) :
      (((start config).after events).step (.command c command body)).watchedBy c =
        command.rewatch ((start config).watchList events c) := by
    have hstays : ((start config).after (events ++ [.command c command body])).isConnected c =
        true := by
      rw [after_append, h.isConnected_step _ (isSome_of_isConnected hc), hc]
      rfl
    have hcommand : ((start config).after events).commandOf? c (.command c command body) =
        some command := by simp [commandOf?, hc]
    rw [← after_append, watchedBy_eq config _ hstays, watchList_append, hcommand]
    rfl
  have hwatch (name : TubeName) (body : Option Bytes) := reply_watch hc name body
  have hignore (name : TubeName) (body : Option Bytes) := reply_ignore hc name body
  simp only [hnext, hwatched] at hwatch hignore
  refine
    { distinct := watchList_keeps (P := List.Nodup) (List.nodup_singleton _)
        (fun _ command h => Command.nodup_rewatch h command) _ _ _
      nonempty := watchList_keeps (P := (· ≠ [])) (List.cons_ne_nil _ _)
        (fun _ command h => Command.rewatch_ne_nil h command) _ _ _
      watched := hwatched
      shown := fun body => ?_
      watch := hwatch
      ignore := fun name body hnot => (hignore name body).trans (if_neg hnot)
      counted := fun command body n hreply => ?_
      refused := fun command body => ⟨fun hreply => ?_, ?_⟩ }
  · obtain ⟨client, rfl, hclient, -⟩ := client?_of_isConnected hc
    have hclient : ((start config).after events).engine.client? client.id = some client := hclient
    rw [watchedBy, hclient] at hwatched
    simp only [dispatch, perform, engine_record, hclient]
    rw [← hwatched]
    rfl
  · obtain ⟨name, rfl | rfl⟩ := command_of_tellsWatched (congrArg Reply.tellsWatched hreply)
    · rw [hwatch] at hreply
      cases hreply
      rfl
    · rw [hignore] at hreply
      split at hreply <;> cases hreply
      rfl
  · obtain ⟨name, rfl | rfl⟩ := command_of_tellsWatched (congrArg Reply.tellsWatched hreply)
    · rw [hwatch] at hreply
      cases hreply
    · rw [hignore] at hreply
      split at hreply
      · next honly => exact ⟨name, rfl, honly⟩
      · cases hreply
  · rintro ⟨name, rfl, honly⟩
    exact (hignore name body).trans (if_pos honly)

/-! ## The directory beneath -/

end Broker

namespace Directory

variable {d : Directory} {c : ClientId} {seat : Seat} {names : List TubeName}

/-- A directory has the tubes of a list, each at one address for good, which is in its map and in
its list, and the broker answers as it does. -/
structure Keeps (d : Directory) (b : Broker) (names : List TubeName) : Prop where
  distinct : d.order.Nodup
  listed : d.order.map d.name? = names.map some
  sameSet : ∀ ref, ref ∈ d.order ↔ ∃ name, d.get name = some ref
  byName : ∀ name ref, d.get name = some ref ↔ d.name? ref = some name
  found : ∀ name, (d.get name).isSome ↔ name ∈ names
  stay : ∀ name ref later, d.get name = some ref → (d.after later).get name = some ref
  mirrors : d.Mirrors b.engine
  replies : ∀ c, b.isConnected c = true → ∀ command response, d.reply? c command = some response →
    ∀ body, (b.dispatch c command body).1 = .now response

section Seated

variable (hk : d.Kept) (hseat : d.seat? c = some seat)
  (hnames : List.Forall₂ (fun ref name => d.name? ref = some name) seat.watching names)

include hk hseat hnames

theorem watch_answer (name : TubeName) :
    (d.watch c name).1 = some ((Command.watch name).rewatch names).length := by
  have hlength : seat.watching.length = names.length := hnames.length_eq
  have hmem : (d.create name).1 ∈ seat.watching ↔ name ∈ names :=
    Kept.mem_iff (hnames.imp (Kept.grows_create d name)) (hk.create name) (hk.name?_create name)
  rw [watch_eq hseat, Command.rewatch]
  simp only [List.contains_iff_mem, hmem, hlength]
  split
  · rfl
  · rw [List.length_append, List.length_singleton]

omit hk in
theorem ignore_answer (name : TubeName) : (d.ignore c name).1 =
    if names = [name] then none else some ((Command.ignore name).rewatch names).length := by
  have hlength : seat.watching.length = names.length := hnames.length_eq
  have hfound := findFinIdx?_name hnames name
  rw [Command.rewatch]
  cases hfind : seat.watching.findFinIdx? fun ref => d.name? ref = some name with
  | none =>
    rw [hfind] at hfound
    have hfree : name ∉ names := hfound
    have hnot : names ≠ [name] := fun honly => hfree (honly ▸ List.mem_singleton_self name)
    simp only [ignore, hseat, hfind, hlength, hnot, if_false, List.erase_of_not_mem hfree]
  | some i =>
    rw [hfind] at hfound
    obtain ⟨hmem, -, -⟩ := hfound
    have hmem : name ∈ names := hmem
    have hone : names.length = 1 ↔ names = [name] := by
      refine ⟨fun h => ?_, fun h => congrArg List.length h⟩
      obtain ⟨other, hother⟩ := List.length_eq_one_iff.1 h
      rw [hother] at hmem ⊢
      rw [List.mem_singleton.1 hmem]
    simp only [ignore, hseat, hfind, hlength, hone]
    split
    · rfl
    · rw [List.length_erase_of_mem hmem]

end Seated

end Directory

namespace Broker

open Engine

variable {b : Broker} {c : ClientId} {names : List TubeName}

/-- The directory gives the replies of the broker. -/
theorem reply_of_directory {d : Directory} (hd : d.Mirrors b.engine) (hc : b.isConnected c = true)
    (hw : b.Watches c names) {command : Command} {response : Response}
    (hreply : d.reply? c command = some response) (body : Option Bytes) :
    (b.dispatch c command body).1 = .now response := by
  obtain ⟨client, -, hclient, -⟩ := client?_of_isConnected hc
  obtain ⟨seat, hseat, hpost⟩ := hd.seat? hclient
  have hwatched : client.watching = names := by
    rw [← hw.watched, watchedBy, hclient]
    rfl
  have hnames : List.Forall₂ (fun ref name => d.name? ref = some name) seat.watching names :=
    hwatched ▸ hpost.watching
  cases command with
  | useTube name =>
    cases hreply
    rfl
  | watch name =>
    rw [Directory.reply?, Directory.watch_answer hd.kept hseat hnames] at hreply
    cases hreply
    exact hw.watch name body
  | ignore name =>
    rw [Directory.reply?, Directory.ignore_answer hseat hnames] at hreply
    split at hreply
    · next honly =>
      cases hreply
      exact (hw.refused (.ignore name) body).2 ⟨name, rfl, honly⟩
    · next hnot =>
      cases hreply
      exact hw.ignore name body hnot
  | listTubes =>
    cases hreply
    simp only [dispatch, perform, engine_record, hd.toShelves.names_eq]
  | listTubeUsed =>
    rw [Directory.reply?, hseat, Option.bind_some, hpost.used] at hreply
    cases hreply
    simp only [dispatch, perform, engine_record, hclient]
    rfl
  | listTubesWatched =>
    rw [Directory.reply?, hseat, Option.map_some, Directory.namesOf_eq hnames] at hreply
    cases hreply
    exact hw.shown body
  | _ => cases hreply

/-- In every run, the tubes that a client watches and those that there are follow from the commands.
-/
theorem lists_follow (config : Config) (events : List Event) :
    (∀ c, ((start config).after events).isConnected c = true →
      ((start config).after events).Watches c ((start config).watchList events c)) ∧
    ((start config).after events).HasTubes ((start config).tubeList events) ∧
    (Directory.start.after events).Keeps ((start config).after events)
      ((start config).tubeList events) := by
  have h : Reachable ((start config).after events) := (Reachable.start config).after events
  have hkeys := keys_eq_tubeList config events
  have hd := mirrors_after config events
  refine ⟨fun c hc => watches_watchList config events hc, ?_, ?_⟩
  · rw [← hkeys]
    exact
      { distinct := h.sound.listed.tubes
        keys := rfl
        shown := fun c body => by simp only [dispatch, perform, engine_record]
        stay := h.tubes_stay
        others := fun event => h.keys_of_no_mention
        mentioned := fun event name hname => by
          rw [unmanned_of_mention hname, tubes_ensureTube] }
  · set d := Directory.start.after events
    rw [← hkeys]
    exact
      { distinct := hd.kept.order ▸ List.nodup_range
        listed := by
          rw [hd.kept.map_order, ← hd.kept.names_eq, hd.toShelves.names_eq]
        sameSet := fun ref => hd.kept.mem_order
        byName := hd.kept.byName
        found := fun name => by
          rw [hd.toShelves.isSome_get, tube?, Table.lookup_isSome_iff]
        stay := fun name ref later hget => hd.kept.get_after hget later
        mirrors := hd
        replies := fun c hc command response hreply body =>
          reply_of_directory hd hc (watches_watchList config events hc) hreply body }

theorem isName_logs : TubeName.isName (ascii "logs") = true := by decide

/-- The tubes that are mentioned below. -/
def mailTube : TubeName :=
  ⟨ascii "mail", isName_mail⟩

def logsTube : TubeName :=
  ⟨ascii "logs", isName_logs⟩

/-- Two clients mention tubes. One of the tubes is ignored and paused before it is there. -/
def tubesMentioned : List Event :=
  [.connect, .connect, .command 2 (.ignore logsTube) none,
    .command 2 (.pauseTube logsTube 9) none, .command 1 (.watch mailTube) none,
    .command 2 (.useTube logsTube) none, .command 1 (.ignore .default) none,
    .command 1 (.ignore mailTube) none, .command 2 (.watch mailTube) none,
    .command 1 (.watch .default) none]

theorem lists_follow_tubesMentioned :
    let b := (start {}).after tubesMentioned
    b.isConnected 1 = true ∧ b.Watches 1 [mailTube, .default] ∧
    b.HasTubes [.default, mailTube, logsTube] ∧
    (Directory.start.after tubesMentioned).Keeps b [.default, mailTube, logsTube] := by
  intro b
  have hc : b.isConnected 1 = true := by decide
  obtain ⟨hwatches, htubes⟩ := lists_follow {} tubesMentioned
  have hwatched : (start {}).watchList tubesMentioned 1 = [mailTube, .default] := by decide
  have hnamed : (start {}).tubeList tubesMentioned = [.default, mailTube, logsTube] := by decide
  exact ⟨hc, hwatched ▸ hwatches 1 hc, hnamed ▸ htubes⟩

end Broker

end WorkQueue
