import WorkQueue.Proofs.Roster
import WorkQueue.Proofs.OpenTasks
import WorkQueue.Proofs.Waiters

/-!
# Counting the clients

The counts that a tube keeps of its users and watchers are 64-bit words, changed by one at a time
when a client comes, takes up a tube or goes. They are right at every moment
(`Broker.Reachable.manned`), so none of them ever goes below zero.

The statistics of the server count the connected clients, those that have shown that they are
producers or workers, and those that wait. `Broker.headcount` has all of these for any run : which
clients are connected, and what each of them has done, is read off the events and their replies.
-/

namespace WorkQueue

/-- Whether a client is connected and uses a tube. -/
def Client.isUser (client : Client) (name : TubeName) : Bool :=
  !client.closed && client.used = name

/-- Whether a client is connected and watches a tube. -/
def Client.isWatcher (client : Client) (name : TubeName) : Bool :=
  !client.closed && client.watching.contains name

/-- Whether an event is a command of a client. -/
def Event.isFrom (c : ClientId) : Event → Bool
  | .command d _ _ => d = c
  | _ => false

/-- Whether a command makes a worker of its client, by the reply to it. -/
def Command.engages (reply : Reply) : Command → Bool
  | reserve | reserveWithTimeout _ => true
  | reserveJob n => reply.brings n.toNat
  | _ => false

namespace Engine

variable {s t : Engine} {users watchers : TubeName → UInt64} {name : TubeName}

/-! ## The counts of a tube -/

/-- What a test adds to a count. -/
def word (test : Bool) : UInt64 :=
  UInt64.ofNat test.toNat

/-- The counts that the tubes keep, by their names. -/
def Counts (s : Engine) (users watchers : TubeName → UInt64) : Prop :=
  ∀ tube ∈ s.tubes, tube.users = users tube.name ∧ tube.watchers = watchers tube.name

/-- The counts that the tubes keep are right. -/
def Manned (s : Engine) : Prop :=
  s.Counts (fun name => UInt64.ofNat (s.clients.countP (·.isUser name))) fun name =>
    UInt64.ofNat (s.clients.countP (·.isWatcher name))

namespace Counts

variable {users' watchers' : TubeName → UInt64}

theorem congr (h : s.Counts users watchers) (ht : t.tubes = s.tubes)
    (hu : ∀ name, users' name = users name) (hw : ∀ name, watchers' name = watchers name) :
    t.Counts users' watchers' := fun tube hmem =>
  ⟨(h tube (ht ▸ hmem)).1.trans (hu _).symm, (h tube (ht ▸ hmem)).2.trans (hw _).symm⟩

/-- A change of one tube that changes its counts. -/
theorem adjustTube (h : s.Counts users watchers) (name : TubeName) {f : Tube → Tube}
    (hname : ∀ tube, (f tube).name = tube.name)
    (hself : ∀ tube, tube.users = users name → tube.watchers = watchers name →
      (f tube).users = users' name ∧ (f tube).watchers = watchers' name)
    (hother : ∀ other, other ≠ name →
      users' other = users other ∧ watchers' other = watchers other) :
    (s.adjustTube name f).Counts users' watchers' := by
  intro tube ht
  rcases Table.mem_adjust.1 ht with ⟨old, hold, rfl, rfl⟩ | ⟨hold, hne⟩
  · rw [hname]
    exact hself old (h old hold).1 (h old hold).2
  · obtain ⟨hu, hw⟩ := hother tube.name hne
    exact ⟨(h tube hold).1.trans hu.symm, (h tube hold).2.trans hw.symm⟩

theorem addUser (h : s.Counts users watchers) (name : TubeName) :
    (s.addUser name).Counts (fun other => users other + word (name = other)) watchers :=
  h.adjustTube name (fun _ => rfl) (fun _ hu hw => ⟨by simp [hu, word], hw⟩)
    fun _ hne => ⟨by simp [hne.symm, word], rfl⟩

theorem removeUser (h : s.Counts users watchers) (name : TubeName) :
    (s.removeUser name).Counts (fun other => users other - word (name = other)) watchers :=
  h.adjustTube name (fun _ => rfl) (fun _ hu hw => ⟨by simp [hu, word], hw⟩)
    fun _ hne => ⟨by simp [hne.symm, word], rfl⟩

theorem addWatcher (h : s.Counts users watchers) (name : TubeName) :
    (s.addWatcher name).Counts users fun other => watchers other + word (name = other) :=
  h.adjustTube name (fun _ => rfl) (fun _ hu hw => ⟨hu, by simp [hw, word]⟩)
    fun _ hne => ⟨rfl, by simp [hne.symm, word]⟩

theorem removeWatcher (h : s.Counts users watchers) (name : TubeName) :
    (s.removeWatcher name).Counts users fun other => watchers other - word (name = other) :=
  h.adjustTube name (fun _ => rfl) (fun _ hu hw => ⟨hu, by simp [hw, word]⟩)
    fun _ hne => ⟨rfl, by simp [hne.symm, word]⟩

theorem removeWatchers : ∀ {names : List TubeName} {s : Engine} {watchers : TubeName → UInt64},
    names.Nodup → s.Counts users watchers → (names.foldl Engine.removeWatcher s).Counts users
      fun other => watchers other - word (names.contains other)
  | [], _, _, _, h => h.congr rfl (fun _ => rfl) fun _ => by simp [word]
  | name :: rest, _, _, hn, h => by
    obtain ⟨hfree, hrest⟩ := List.nodup_cons.1 hn
    refine (removeWatchers hrest (h.removeWatcher name)).congr rfl (fun _ => rfl) fun other => ?_
    by_cases hname : name = other
    · subst hname
      simp [word, hfree]
    · simp [word, hname, Ne.symm hname]

/-- A new tube has no user and no watcher. -/
theorem ensureTube (h : s.Counts users watchers)
    (hnew : name ∉ s.tubes.keys → users name = 0 ∧ watchers name = 0) :
    (s.ensureTube name).Counts users watchers := by
  unfold Engine.ensureTube
  split
  · exact h
  · next hnone =>
    have hnone : name ∉ s.tubes.keys := by simpa [tube?, Table.lookup_isSome_iff] using hnone
    obtain ⟨hu, hw⟩ := hnew hnone
    intro tube ht
    rcases List.mem_append.1 ht with ht | ht
    · exact h tube ht
    · rw [List.mem_singleton.1 ht]
      exact ⟨hu.symm, hw.symm⟩

end Counts

namespace Manned

theorem of_samePosts (h : s.Manned) (hp : SamePosts s t) : t.Manned := by
  have hcount {p : Client → Bool} {q : Post → Bool} (hpq : ∀ client, p client = q client.post) :
      t.clients.countP p = s.clients.countP p := by
    have hp' : p = q ∘ Client.post := funext hpq
    rw [hp', ← List.countP_map, ← List.countP_map, hp.clients]
  intro tube ht
  obtain ⟨old, hold, hstays⟩ := hp.tubes tube ht
  have husers : t.clients.countP (·.isUser tube.name) = s.clients.countP (·.isUser tube.name) :=
    hcount (q := fun post => !post.closed && post.used = tube.name) fun _ => rfl
  have hwatchers : t.clients.countP (·.isWatcher tube.name) =
      s.clients.countP (·.isWatcher tube.name) :=
    hcount (q := fun post => !post.closed && post.watching.contains tube.name) fun _ => rfl
  obtain ⟨hu, hw⟩ := h old hold
  dsimp only
  rw [hstays.users, hstays.watchers, husers, hwatchers, hstays.name]
  exact ⟨hu, hw⟩

theorem ofNat_replace {n m : Nat} {x y : Bool} (h : n + x.toNat = m + y.toNat) :
    UInt64.ofNat n = UInt64.ofNat m - word x + word y := by
  have hwords := congrArg UInt64.ofNat h
  rw [UInt64.ofNat_add, UInt64.ofNat_add] at hwords
  unfold word
  grind

/-- One client changes, and with it what it adds to the counts. -/
theorem adjustClient {client : Client} (hn : s.clients.Numbered)
    (hc : s.client? client.id = some client) {f : Client → Client} (ht : t.clients = s.clients)
    (h : t.Counts
      (fun name => UInt64.ofNat (s.clients.countP (·.isUser name)) - word (client.isUser name) +
        word ((f client).isUser name))
      fun name => UInt64.ofNat (s.clients.countP (·.isWatcher name)) -
        word (client.isWatcher name) + word ((f client).isWatcher name)) :
    (t.adjustClient client.id f).Manned := by
  obtain ⟨hmem, -⟩ := (client?_eq_some_iff hn).1 hc
  have hone : (t.adjustClient client.id f).clients = s.clients.adjust client.id fun _ => f client :=
    (congrArg (Table.adjust · client.id f) ht).trans (Table.adjust_eq_const hn.nodup hmem f)
  refine h.congr rfl (fun name => ?_) fun name => ?_
  · rw [hone]
    exact ofNat_replace (Table.countP_adjust_const hn.nodup hmem (f client) (·.isUser name))
  · rw [hone]
    exact ofNat_replace (Table.countP_adjust_const hn.nodup hmem (f client) (·.isWatcher name))

theorem ensureTube (h : s.Manned) (hp : s.Posted) (name : TubeName) :
    (s.ensureTube name).Manned := by
  have hnew : name ∉ s.tubes.keys → UInt64.ofNat (s.clients.countP (·.isUser name)) = 0 ∧
      UInt64.ofNat (s.clients.countP (·.isWatcher name)) = 0 := by
    intro hnew
    have husers : s.clients.countP (·.isUser name) = 0 :=
      List.countP_eq_zero.2 fun client hc hu => by
        obtain ⟨-, hused⟩ := by simpa [Client.isUser] using hu
        exact hnew (hused ▸ hp.used client hc)
    have hwatchers : s.clients.countP (·.isWatcher name) = 0 :=
      List.countP_eq_zero.2 fun client hc hw => by
        obtain ⟨-, hwatched⟩ := by simpa [Client.isWatcher] using hw
        exact hnew (hp.watching client hc hwatched)
    rw [husers, hwatchers]
    exact ⟨rfl, rfl⟩
  have hcounts := Counts.ensureTube h hnew
  unfold Manned
  rwa [Broker.clients_ensureTube]

theorem openClient (h : s.Manned) : s.openClient.Manned := by
  refine ((Counts.addUser h .default).addWatcher .default).congr rfl (fun name => ?_) fun name => ?_
  all_goals
    by_cases hname : name = .default
    all_goals
      simp [Engine.openClient, Client.isUser, Client.isWatcher, List.countP_append, word, hname,
        eq_comm]

theorem useTube (h : s.Manned) (hs : Sound none none s) {client : Client}
    (hc : s.client? client.id = some client) (hopen : client.closed = false) (name : TubeName) :
    (s.useTube client.id name).Manned := by
  have hensured := h.ensureTube hs.posted name
  have hc' : (s.ensureTube name).client? client.id = some client := by
    rwa [client?, Broker.clients_ensureTube]
  simp only [Engine.useTube, hc]
  refine adjustClient (hs.ensureTube name).listed.clients hc' rfl ?_
  refine ((Counts.addUser hensured name).removeUser client.used).congr rfl (fun other => ?_)
    fun other => ?_
  · have hold : client.isUser other = decide (client.used = other) := by
      simp [Client.isUser, hopen]
    have hnew : ({ client with used := name } : Client).isUser other = decide (name = other) := by
      simp [Client.isUser, hopen]
    rw [hold, hnew]
    grind
  · simp [Client.isWatcher]

theorem watch (h : s.Manned) (hs : Sound none none s) {client : Client}
    (hc : s.client? client.id = some client) (hopen : client.closed = false) (name : TubeName) :
    (s.watch client.id name).Manned := by
  have hensured := h.ensureTube hs.posted name
  have hc' : (s.ensureTube name).client? client.id = some client := by
    rwa [client?, Broker.clients_ensureTube]
  simp only [Engine.watch, hc']
  split
  · exact hensured
  · next hnew =>
    refine adjustClient (hs.ensureTube name).listed.clients hc' rfl ?_
    refine (Counts.addWatcher hensured name).congr rfl (fun other => ?_) fun other => ?_
    · simp [Client.isUser]
    · by_cases hname : name = other
      · subst hname
        have hnew : name ∉ client.watching := by simpa using hnew
        simp [Client.isWatcher, hopen, hnew, word]
      · simp [Client.isWatcher, hopen, hname, Ne.symm hname, word]

theorem ignore (h : s.Manned) (hs : Sound none none s) {client : Client}
    (hc : s.client? client.id = some client) (hopen : client.closed = false) (name : TubeName) :
    (s.ignore client.id name).Manned := by
  simp only [Engine.ignore, hc]
  split
  · next hpass =>
    refine adjustClient hs.listed.clients hc rfl ?_
    refine (Counts.removeWatcher h name).congr rfl (fun other => ?_) fun other => ?_
    · simp [Client.isUser]
    · by_cases hname : name = other
      · subst hname
        have hwatched : name ∈ client.watching := by
          simpa using (Bool.and_eq_true_iff.1 hpass).1
        simp [Client.isWatcher, hopen, hwatched, word]
      · simp [Client.isWatcher, hopen, hname, Ne.symm hname, word]
  · exact h

theorem depart (h : s.Manned) (hs : Sound none none s) {client : Client}
    (hc : s.client? client.id = some client) (hopen : client.closed = false) :
    (s.depart client).Manned := by
  have hdistinct := hs.posted.distinct client (Table.mem_of_lookup hc)
  refine adjustClient hs.listed.clients hc (Broker.clients_removeWatchers client.watching _) ?_
  refine ((Counts.removeUser h client.used).removeWatchers hdistinct).congr rfl (fun other => ?_)
    fun other => ?_
  · simp [Client.isUser, hopen, word]
  · simp [Client.isWatcher, hopen, word]

/-- A mark on a client changes no count. -/
theorem mark (h : s.Manned) (c : ClientId) {f : Client → Client}
    (hu : ∀ client, (f client).isUser = client.isUser)
    (hw : ∀ client, (f client).isWatcher = client.isWatcher) : (s.adjustClient c f).Manned := by
  refine Counts.congr h rfl (fun name => ?_) fun name => ?_
  all_goals
    simp only [Engine.adjustClient, Table.adjust, List.countP_map]
    refine congrArg UInt64.ofNat (congrArg (List.countP · s.clients) (funext fun client => ?_))
    rw [Function.comp_apply]
    split
    · first | rw [hu] | rw [hw]
    · rfl

theorem repost (h : s.Manned) (hs : Sound none none s) {client : Client}
    (hc : s.client? client.id = some client) (hopen : client.closed = false) (command : Command)
    (reply : Reply) : (command.repost s client.id reply).Manned := by
  cases command with
  | useTube name => exact h.useTube hs hc hopen name
  | watch name => exact h.watch hs hc hopen name
  | ignore name => exact h.ignore hs hc hopen name
  | put pri delay ttr size =>
    unfold Command.repost
    dsimp only
    split
    · exact h.mark client.id (fun _ => rfl) fun _ => rfl
    · exact h
  | reserve | reserveWithTimeout => exact h.mark client.id (fun _ => rfl) fun _ => rfl
  | reserveJob n =>
    unfold Command.repost
    dsimp only
    split
    · exact h.mark client.id (fun _ => rfl) fun _ => rfl
    · exact h
  | pauseTube name delay =>
    unfold Command.repost
    dsimp only
    split
    · exact Counts.adjustTube h name (fun _ => rfl) (fun _ hu hw => ⟨hu, hw⟩) fun _ _ => ⟨rfl, rfl⟩
    · exact h
  | _ => exact h

end Manned

end Engine

namespace Broker

open Engine

variable {b : Broker} {c : ClientId}

theorem manned_start (config : Config) : (start config).engine.Manned := fun tube ht => by
  rw [List.mem_singleton.1 ht]
  exact ⟨rfl, rfl⟩

theorem Reachable.manned_repost (h : Reachable b) (hm : b.engine.Manned) (event : Event) :
    (b.repost event).Manned := by
  cases event with
  | connect => exact hm.openClient
  | command c command body =>
    rw [repost]
    split
    · next hc =>
      obtain ⟨client, rfl, hclient, hopen⟩ := client?_of_isConnected hc
      exact hm.repost h.sound hclient hopen command _
    · exact hm
  | disconnect c =>
    rw [repost]
    split
    · next hc =>
      obtain ⟨client, rfl, hclient, hopen⟩ := client?_of_isConnected hc
      rw [hclient]
      exact hm.depart h.sound hclient hopen
    · exact hm
  | advance | delayedSweep | expirySweep => exact hm

/-- The counts of users and watchers are right in every state. -/
theorem Reachable.manned (h : Reachable b) : b.engine.Manned := by
  induction h with
  | start config => exact manned_start config
  | step event h ih => exact (h.manned_repost ih event).of_samePosts (h.samePosts event)
  | @tick b i requests _ _ _ _ ih =>
    have hclock : Engine.Manned { b.engine with now := i } := ih
    exact hclock.of_samePosts (samePosts_tick b i requests)

/-! ## Who has come, and what they have done -/

def arrives (_ : Broker) (event : Event) : Bool :=
  event = .connect

/-- A client is disconnected. -/
def leaves (c : ClientId) (b : Broker) (event : Event) : Bool :=
  event = .disconnect c && b.isConnected c

/-- A client has a put accepted. -/
def produces (c : ClientId) (b : Broker) (event : Event) : Bool :=
  event.isFrom c && b.inserts event

/-- A client makes a reservation, or gets a job by its number. -/
def works (c : ClientId) (b : Broker) : Event → Bool
  | .command d command body =>
    d = c && (b.isConnected c && command.engages (b.dispatch c command body).1)
  | _ => false

/-- The clients that have come and not left. -/
def present (b : Broker) (events : List Event) : List ClientId :=
  (List.range' 1 (b.times arrives events)).filter fun c => b.times (leaves c) events = 0

/-- What a command makes of the flags of its client. -/
theorem flags_assigns (reply : Reply) (post : Post) (command : Command) :
    (command.assigns reply post).id = post.id ∧
      (command.assigns reply post).closed = post.closed ∧
      (command.assigns reply post).producer =
        (post.producer || (command.verb = .put && reply.isInserted)) ∧
      (command.assigns reply post).worker = (post.worker || command.engages reply) := by
  cases command with
  | watch | ignore =>
    unfold Command.assigns
    dsimp only
    split <;> simp [Command.verb, Command.engages]
  | _ =>
    unfold Command.assigns
    simp [Command.verb, Command.engages]

theorem id_assigns (b : Broker) (event : Event) (post : Post) :
    (b.assigns event post).id = post.id := by
  unfold assigns
  split
  · split
    · exact (flags_assigns ..).1
    · rfl
  · split <;> rfl
  · rfl

theorem mem_ids_of_isConnected (hc : b.isConnected c = true) :
    c ∈ (b.engine.clients.map Client.post).map (·.id) := by
  obtain ⟨client, rfl, hclient, -⟩ := client?_of_isConnected hc
  exact List.mem_map_of_mem (List.mem_map_of_mem (Table.mem_of_lookup hclient))

/-- A flag that only the client's own events can set tells whether there has been such an event. -/
theorem flag_told (flag : Post → Bool) (test : ClientId → Broker → Event → Bool)
    (hnew : ∀ c, flag { id := c } = false)
    (hstep : ∀ b event post, flag (b.assigns event post) = (flag post || test post.id b event))
    (hconnected : ∀ c b event, test c b event = true → b.isConnected c = true)
    (config : Config) (events : List Event) :
    (∀ post ∈ ((start config).after events).engine.clients.map Client.post,
      flag post = decide (0 < (start config).times (test post.id) events)) ∧
    ∀ c, c ∉ (((start config).after events).engine.clients.map Client.post).map (·.id) →
      (start config).times (test c) events = 0 := by
  induction events using List.reverseRecOn with
  | nil => exact ⟨List.forall_mem_nil _, fun _ _ => rfl⟩
  | append_singleton earlier event ih =>
    obtain ⟨htold, hstrange⟩ := ih
    have hearlier := (Reachable.start config).after earlier
    rw [after_append, hearlier.posts_step event]
    set d := (start config).after earlier
    set posts := d.engine.clients.map Client.post
    have hnone {c : ClientId} (hc : c ∉ posts.map (·.id)) :
        (start config).times (test c) (earlier ++ [event]) = 0 := by
      have htest : test c d event = false := eq_false_of_ne_true fun htest =>
        hc (mem_ids_of_isConnected (hconnected c d event htest))
      rw [times_append, hstrange c hc, htest]
      rfl
    refine ⟨fun post hpost => ?_, fun c hc => hnone fun hmem => hc ?_⟩
    · rcases List.mem_append.1 hpost with hold | hcome
      · obtain ⟨old, hmem, rfl⟩ := List.mem_map.1 hold
        rw [hstep, htold old hmem, id_assigns, times_append]
        cases test old.id d event <;> simp
      · cases event with
        | connect =>
          rw [List.mem_singleton.1 hcome, hnew, hnone]
          · rfl
          · rw [List.map_map]
            exact hearlier.sound.listed.clients.next_not_mem
        | _ => cases hcome
    · obtain ⟨old, hold, hid⟩ := List.mem_map.1 hmem
      rw [List.map_append, List.map_map]
      refine List.mem_append_left _ (List.mem_map.2 ⟨old, hold, ?_⟩)
      exact (id_assigns d event old).trans hid

/-- Only by leaving does a client come to be closed. -/
theorem closed_assigns (b : Broker) (event : Event) (post : Post) :
    (b.assigns event post).closed = (post.closed || leaves post.id b event) := by
  cases event with
  | command c command body =>
    simp only [assigns, leaves]
    split
    · rw [(flags_assigns ..).2.1]
      simp
    · simp
  | disconnect c =>
    simp only [assigns, leaves]
    by_cases hid : post.id = c
    · subst hid
      cases b.isConnected post.id <;> simp
    · simp [hid, Ne.symm hid]
  | _ => simp [assigns, leaves]

/-- A client that has come stays connected until it leaves. -/
theorem Reachable.isConnected_step (h : Reachable b) (event : Event)
    (hknown : (b.engine.client? c).isSome = true) :
    (b.step event).isConnected c = (b.isConnected c && !leaves c b event) := by
  obtain ⟨client, hclient⟩ := Option.isSome_iff_exists.1 hknown
  obtain ⟨hmem, rfl⟩ := (client?_eq_some_iff h.sound.listed.clients).1 hclient
  have hpost : b.assigns event client.post ∈ (b.step event).engine.clients.map Client.post := by
    rw [h.posts_step event]
    exact List.mem_append_left _ (List.mem_map_of_mem (List.mem_map_of_mem hmem))
  obtain ⟨later, hlater, hassigned⟩ := List.mem_map.1 hpost
  have hid : later.id = client.id := (congrArg Post.id hassigned).trans (id_assigns b event _)
  have hclosed : later.closed = (client.closed || leaves client.id b event) :=
    (congrArg Post.closed hassigned).trans (closed_assigns b event client.post)
  have hsome : (b.step event).engine.client? client.id = some later :=
    (client?_eq_some_iff (h.step event).sound.listed.clients).2 ⟨hlater, hid⟩
  simp only [isConnected, Engine.isConnected, hclient, hsome, Option.any_some, hclosed,
    Bool.not_or]

theorem closed_told (config : Config) (events : List Event) :
    ∀ post ∈ ((start config).after events).engine.clients.map Client.post,
      post.closed = decide (0 < (start config).times (leaves post.id) events) :=
  (flag_told Post.closed leaves (fun _ => rfl) closed_assigns
    (fun _ _ _ h => (Bool.and_eq_true_iff.1 h).2) config events).1

theorem producer_told (config : Config) (events : List Event) :
    ∀ post ∈ ((start config).after events).engine.clients.map Client.post,
      post.producer = decide (0 < (start config).times (produces post.id) events) := by
  refine (flag_told Post.producer produces (fun _ => rfl) (fun b event post => ?_)
    (fun c b event h => ?_) config events).1
  · cases event with
    | command c command body =>
      by_cases hid : post.id = c
      · subst hid
        cases hc : b.isConnected post.id <;>
          simp [assigns, produces, inserts, hc, Event.isFrom, (flags_assigns ..).2.2.1]
      · simp [assigns, produces, Event.isFrom, hid, Ne.symm hid]
    | disconnect c =>
      simp only [assigns, produces, inserts, Bool.and_false, Bool.or_false]
      split <;> rfl
    | _ => simp [assigns, produces, inserts]
  · obtain ⟨hfrom, hinserts⟩ := Bool.and_eq_true_iff.1 h
    cases event with
    | command d command body =>
      obtain rfl := of_decide_eq_true hfrom
      exact (Bool.and_eq_true_iff.1 hinserts).1
    | _ => cases hfrom

theorem worker_told (config : Config) (events : List Event) :
    ∀ post ∈ ((start config).after events).engine.clients.map Client.post,
      post.worker = decide (0 < (start config).times (works post.id) events) := by
  refine (flag_told Post.worker works (fun _ => rfl) (fun b event post => ?_)
    (fun c b event h => ?_) config events).1
  · cases event with
    | command c command body =>
      by_cases hid : post.id = c
      · subst hid
        cases hc : b.isConnected post.id <;> simp [assigns, works, hc, (flags_assigns ..).2.2.2]
      · simp [assigns, works, hid, Ne.symm hid]
    | disconnect c =>
      simp only [assigns, works, Bool.or_false]
      split <;> rfl
    | _ => simp [assigns, works]
  · cases event with
    | command d command body =>
      obtain ⟨hid, hpass⟩ := Bool.and_eq_true_iff.1 h
      obtain rfl := of_decide_eq_true hid
      exact (Bool.and_eq_true_iff.1 hpass).1
    | _ => cases h

/-! ## The statistics -/

/-- The number of clients of a run is that of its arrivals. -/
theorem arrivals (config : Config) (events : List Event) :
    ((start config).after events).engine.clients.length = (start config).times arrives events := by
  induction events using List.reverseRecOn with
  | nil => rfl
  | append_singleton earlier event ih =>
    have hlength := congrArg List.length
      (((Reachable.start config).after earlier).posts_step event)
    simp only [List.length_append, List.length_map] at hlength
    rw [after_append, hlength, ih, times_append]
    cases event <;> rfl

/-- Whether a client still waits for the answer to a request that it has made. -/
def waitsFor (b : Broker) (c : ClientId) (asking : Asking) : Bool :=
  asking.client = c && (b.engine.outcome? asking.request).isNone

theorem isWaiting_told (config : Config) (events : List Event) {client : Client}
    (hc : client ∈ ((start config).after events).clients) : client.isWaiting =
      ((start config).history asking? events).any
        (((start config).after events).waitsFor client.id) := by
  have hb := (Reachable.start config).after events
  rw [← requests_history]
  set b := (start config).after events
  obtain ⟨hmem, hopen⟩ := List.mem_filter.1 hc
  have hclient := (client?_eq_some_iff hb.sound.listed.clients).2 ⟨hmem, rfl⟩
  have hconnected : b.engine.isConnected client.id = true := by
    rw [Engine.isConnected, hclient]
    exact hopen
  rw [Bool.eq_iff_iff, hb.backed.isWaiting_iff hclient, List.any_map, List.any_eq_true]
  refine exists_congr fun q => and_congr_right fun hq => ?_
  simp only [Function.comp_apply, waitsFor, Bool.and_eq_true, decide_eq_true_eq]
  refine and_congr_right fun hqc => ?_
  have hqc : q.client = client.id := hqc
  rw [hb.sound.isOpen_eq hq, hqc, hconnected, Bool.true_and]
  rfl

/-- What the statistics tell of the clients, by those that are present and what each has done. -/
structure Mustered (b : Broker) (present : List ClientId)
    (produced worked waits : ClientId → Bool) : Prop where
  clients : b.clients.map (·.id) = present
  currentUsing : ∀ tube ∈ b.engine.tubes, (b.engine.tubeStats tube).currentUsing =
    b.clients.countP (·.used = tube.name) % 2 ^ 64
  currentWatching : ∀ tube ∈ b.engine.tubes, (b.engine.tubeStats tube).currentWatching =
    b.clients.countP (·.watching.contains tube.name) % 2 ^ 64
  /-- No count of a tube wraps as long as the clients can be counted at all. -/
  unwrapped : present.length < 2 ^ 64 → ∀ tube ∈ b.engine.tubes,
    (b.engine.tubeStats tube).currentUsing = b.clients.countP (·.used = tube.name) ∧
      (b.engine.tubeStats tube).currentWatching =
        b.clients.countP (·.watching.contains tube.name)
  atMost : ∀ tube ∈ b.engine.tubes, (b.engine.tubeStats tube).currentUsing ≤ present.length ∧
    (b.engine.tubeStats tube).currentWatching ≤ present.length
  currentConnections : b.stats.currentConnections = present.length
  currentProducers : b.stats.currentProducers = present.countP produced
  currentWorkers : b.stats.currentWorkers = present.countP worked
  currentWaiting : b.stats.currentWaiting = present.countP waits

/-- The connected clients are those that have come and not left. -/
theorem clients_told (config : Config) (events : List Event) :
    ((start config).after events).clients.map (·.id) = (start config).present events := by
  have hclosed := closed_told config events
  have hkeys := ((Reachable.start config).after events).sound.listed.clients
  rw [Table.Numbered, arrivals config events] at hkeys
  rw [present, ← hkeys, Table.keys, List.filter_map]
  refine congrArg (List.map _) (List.filter_congr fun client hc => ?_)
  have hclient := hclosed client.post (List.mem_map_of_mem hc)
  change (!client.post.closed) = _
  rw [hclient]
  simp [Client.post, Keyed.key, Nat.pos_iff_ne_zero]

theorem Reachable.currentUsing (h : Reachable b) {tube : Tube} (ht : tube ∈ b.engine.tubes) :
    (b.engine.tubeStats tube).currentUsing =
      b.clients.countP (·.used = tube.name) % 2 ^ 64 := by
  have hcount : b.clients.countP (·.used = tube.name) =
      b.engine.clients.countP (·.isUser tube.name) := by
    rw [clients, List.countP_filter]
    exact congrArg (List.countP · _) (funext fun client => Bool.and_comm ..)
  rw [hcount, ← UInt64.toNat_ofNat']
  exact congrArg UInt64.toNat (h.manned tube ht).1

theorem Reachable.currentWatching (h : Reachable b) {tube : Tube} (ht : tube ∈ b.engine.tubes) :
    (b.engine.tubeStats tube).currentWatching =
      b.clients.countP (·.watching.contains tube.name) % 2 ^ 64 := by
  have hcount : b.clients.countP (·.watching.contains tube.name) =
      b.engine.clients.countP (·.isWatcher tube.name) := by
    rw [clients, List.countP_filter]
    exact congrArg (List.countP · _) (funext fun client => Bool.and_comm ..)
  rw [hcount, ← UInt64.toNat_ofNat']
  exact congrArg UInt64.toNat (h.manned tube ht).2

/-- In every run, the statistics count the clients as they are. -/
theorem headcount (config : Config) (events : List Event) :
    ((start config).after events).Mustered ((start config).present events)
      (fun c => 0 < (start config).times (produces c) events)
      (fun c => 0 < (start config).times (works c) events)
      fun c => ((start config).history asking? events).any
        (((start config).after events).waitsFor c) := by
  have hclients := clients_told config events
  have hproducer := producer_told config events
  have hworker := worker_told config events
  have hwaiting {client : Client} := @isWaiting_told config events client
  have hb := (Reachable.start config).after events
  set b := (start config).after events
  have hlength : b.clients.length = ((start config).present events).length := by
    rw [← hclients, List.length_map]
  have hcount {flag : Client → Bool} {told : ClientId → Bool}
      (htold : ∀ client ∈ b.clients, flag client = told client.id) :
      (b.clients.filter flag).length = ((start config).present events).countP told := by
    rw [← hclients, List.countP_map, ← List.countP_eq_length_filter]
    exact List.countP_congr fun client hc => by rw [htold client hc]; rfl
  have hpost {client : Client} (hc : client ∈ b.clients) :
      client.post ∈ b.engine.clients.map Client.post :=
    List.mem_map_of_mem (List.mem_of_mem_filter hc)
  refine
    { clients := hclients
      currentUsing := fun tube ht => hb.currentUsing ht
      currentWatching := fun tube ht => hb.currentWatching ht
      unwrapped := fun hfew tube ht => ?_
      atMost := fun tube ht => ?_
      currentConnections := hlength
      currentProducers := hcount fun client hc => hproducer client.post (hpost hc)
      currentWorkers := hcount fun client hc => hworker client.post (hpost hc)
      currentWaiting := hcount fun client hc => hwaiting hc }
  · rw [← hlength] at hfew
    rw [hb.currentUsing ht, hb.currentWatching ht]
    exact ⟨Nat.mod_eq_of_lt (Nat.lt_of_le_of_lt List.countP_le_length hfew),
      Nat.mod_eq_of_lt (Nat.lt_of_le_of_lt List.countP_le_length hfew)⟩
  · rw [← hlength, hb.currentUsing ht, hb.currentWatching ht]
    exact ⟨Nat.le_trans (Nat.mod_le ..) List.countP_le_length,
      Nat.le_trans (Nat.mod_le ..) List.countP_le_length⟩

theorem isName_mail : TubeName.isName (ascii "mail") = true := by decide

/-- The first client puts and goes, the second reserves twice, and the third gets a job by its
number and watches a tube that it does not use. -/
def threeClients : List Event :=
  [.connect, .connect, .connect, .command 1 (.put 0 0 5 1) (some (ascii "x")), .disconnect 1,
    .command 3 (.reserveJob 1) none, .command 2 .reserve none,
    .command 2 (.reserveWithTimeout 0) none, .command 3 (.watch ⟨ascii "mail", isName_mail⟩) none]

example : (start {}).present threeClients = [2, 3] ∧
    ((start {}).after threeClients).stats.currentProducers = 0 ∧
    ((start {}).after threeClients).stats.currentWorkers = 2 ∧
    ((start {}).after threeClients).stats.currentWaiting = 1 := by decide

end Broker

end WorkQueue
