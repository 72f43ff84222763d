import WorkQueue.Proofs.Conservation
import WorkQueue.Proofs.Dealings
import WorkQueue.Proofs.Posts

/-!
# What an event does to the posts

Of all that an event does, a small change is all that concerns the posts of the clients, the counts
of users and watchers and the pauses (`Broker.repost`) : a client comes or departs, takes up another
tube, shows that it is a producer or a worker, or a tube is paused. Everything else, such as the
jobs that move and the requests that are served, leaves the posts as they are after that change
(`Broker.Reachable.samePosts`). So what is said of posts has to be shown of the small change only.

In the same way, the post of each client is what the commands of the client make of it, by the
replies to them (`Broker.Reachable.posts_step`).
-/

namespace WorkQueue

namespace Engine

variable {s t : Engine}

/-! ## The same change in two states -/

namespace SamePosts

/-- A change of a tube that goes by what stays. -/
theorem adjustTube₂ (h : SamePosts s t) (name : TubeName) {f : Tube → Tube}
    (hname : ∀ tube, (f tube).name = tube.name)
    (hf : ∀ a b : Tube, a.Stays s.now b → (f a).Stays s.now (f b)) :
    SamePosts (s.adjustTube name f) (t.adjustTube name f) := by
  refine ⟨h.now, h.clients, ?_, fun b hb => ?_⟩
  · rw [keys_adjustTube t name hname, keys_adjustTube s name hname]
    exact h.keys
  · rcases Table.mem_adjust.1 hb with ⟨b, hmem, hkey, rfl⟩ | ⟨hb, hkey⟩
    · obtain ⟨a, ha, hab⟩ := h.tubes b hmem
      exact ⟨f a, Table.mem_adjust.2 (Or.inl ⟨a, ha, hab.name.symm.trans hkey, rfl⟩), hf a b hab⟩
    · obtain ⟨a, ha, hab⟩ := h.tubes b hb
      exact ⟨a, Table.mem_adjust.2 (Or.inr ⟨ha, fun he => hkey (hab.name.trans he)⟩), hab⟩

theorem removeUser (h : SamePosts s t) (name : TubeName) :
    SamePosts (s.removeUser name) (t.removeUser name) :=
  h.adjustTube₂ name (fun _ => rfl) fun _ _ hab =>
    ⟨hab.name, congrArg (· - 1) hab.users, hab.watchers, hab.pause⟩

theorem removeWatchers : ∀ (names : List TubeName) {s t : Engine}, SamePosts s t →
    SamePosts (names.foldl removeWatcher s) (names.foldl removeWatcher t)
  | [], _, _, h => h
  | name :: rest, _, _, h =>
    removeWatchers rest <| h.adjustTube₂ name (fun _ => rfl) fun _ _ hab =>
      ⟨hab.name, hab.users, congrArg (· - 1) hab.watchers, hab.pause⟩

end SamePosts

/-- A client gets another post. -/
theorem posts_adjustClient (s : Engine) (c : ClientId) {f : Client → Client} {g : Post → Post}
    (hfg : ∀ client, (f client).post = g client.post) :
    (s.adjustClient c f).clients.map Client.post =
      (s.clients.map Client.post).map fun post => if post.id = c then g post else post := by
  simp only [adjustClient, Table.adjust, List.map_map]
  refine List.map_congr_left fun client _ => ?_
  by_cases hid : client.id = c
  · simp only [Function.comp_apply, Keyed.key, hid, if_true, hfg]
    exact (if_pos hid).symm
  · simp only [Function.comp_apply, Keyed.key, hid, if_false]
    exact (if_neg hid).symm

namespace SamePosts

theorem adjustClient₂ (h : SamePosts s t) (c : ClientId) {f : Client → Client} {g : Post → Post}
    (hfg : ∀ client, (f client).post = g client.post) :
    SamePosts (s.adjustClient c f) (t.adjustClient c f) := by
  refine ⟨h.now, ?_, h.keys, h.tubes⟩
  rw [posts_adjustClient t c hfg, posts_adjustClient s c hfg, h.clients]

theorem depart (h : SamePosts s t) (client : Client) :
    SamePosts (s.depart client) (t.depart client) :=
  (removeWatchers client.watching (h.removeUser client.used)).adjustClient₂ client.id
    (g := fun post => { post with closed := true, watching := [] }) fun _ => rfl

theorem markWorker (h : SamePosts s t) (c : ClientId) :
    SamePosts (Broker.markWorker s c) (Broker.markWorker t c) :=
  h.adjustClient₂ c (g := fun post => { post with worker := true }) fun _ => rfl

end SamePosts

end Engine

/-! ## The small change -/

/-- What a command changes of the posts, by the reply to it. -/
def Command.repost (s : Engine) (c : ClientId) (reply : Reply) : Command → Engine
  | useTube name => s.useTube c name
  | watch name => s.watch c name
  | ignore name => s.ignore c name
  | pauseTube name delay =>
    if reply.isNotice .paused then
      s.adjustTube name (·.startPause s.now (seconds delay.toNat))
    else s
  | put .. =>
    if reply.isInserted then s.adjustClient c fun client => { client with producer := true } else s
  | reserve | reserveWithTimeout _ => Broker.markWorker s c
  | reserveJob n => if reply.brings n.toNat then Broker.markWorker s c else s
  | _ => s

namespace Broker

open Engine

/-- What an event changes of the posts. -/
def repost (b : Broker) : Event → Engine
  | .connect => b.engine.openClient
  | .command c command body =>
    if b.isConnected c then command.repost b.engine c (b.dispatch c command body).1 else b.engine
  | .disconnect c =>
    if b.isConnected c then ((b.engine.client? c).map b.engine.depart).getD b.engine else b.engine
  | .advance span => { b.engine with now := b.engine.now + span }
  | .delayedSweep | .expirySweep => b.engine

variable {b : Broker} {c : ClientId}

theorem samePosts_onJob {id : JobId} {isOpenTo : Job → Bool} {go : Job → Engine}
    {act : Engine → JobId → Bool × Engine}
    (hact : act b.engine id = b.engine.transition id isOpenTo go)
    (hgo : ∀ job, SamePosts b.engine (go job)) : SamePosts b.engine (b.onJob id act).2 :=
  onJob_cases (.refl b.engine) (hact ▸ .transition b.engine id isOpenTo hgo)

theorem samePosts_put (hc : b.isConnected c = true) (pri delay ttr size : UInt32)
    (body : Option Bytes) : SamePosts
      ((Command.put pri delay ttr size).repost b.engine c
        (b.perform c (.put pri delay ttr size) body).1)
      (b.perform c (.put pri delay ttr size) body).2.engine := by
  cases body with
  | none => exact .refl b.engine
  | some body =>
    obtain ⟨client, -, hclient, -⟩ := client?_of_isConnected hc
    simp only [perform, put, hclient]
    set s := b.engine.adjustClient c fun client => { client with producer := true }
    change SamePosts s (Engine.put s client.used pri.toNat (seconds delay.toNat)
      (seconds ttr.toNat) body)
    have hmade : SamePosts s (s.create client.used pri.toNat (seconds delay.toNat)
        (seconds ttr.toNat) body) := .of_eq rfl rfl rfl
    have hcounted := hmade.trans (.adjustTube _ client.used
      (f := fun tube => { tube with totalJobs := tube.totalJobs + 1 })
      fun _ => ⟨rfl, rfl, rfl, Or.inl rfl⟩)
    refine hcounted.trans (.transition _ _ _ fun job => ?_)
    split
    · exact .enterReady _ job _
    · exact .move _ _ _

theorem samePosts_reserveJob (n : UInt32) (body : Option Bytes) : SamePosts
    ((Command.reserveJob n).repost b.engine c (b.perform c (.reserveJob n) body).1)
    (b.perform c (.reserveJob n) body).2.engine := by
  have hdone : SamePosts b.engine (b.onJob n.toNat (·.reserveJob c)).2 :=
    onJob_cases (.refl b.engine) <| .transition b.engine n.toNat isReservable fun job => by
      split
      · exact .move _ _ _
      · exact .enterReady _ job _
  rcases hon : b.onJob n.toNat (·.reserveJob c) with ⟨done, t⟩
  rw [hon] at hdone
  unfold Command.repost
  simp only [perform, reserveJob, hon]
  cases done with
  | false => exact hdone
  | true =>
    cases b.engine.find? n.toNat with
    | none => exact hdone
    | some job =>
      have hbrings : (Reply.now (.reserved n.toNat job.body)).brings n.toNat = true :=
        decide_eq_true rfl
      rw [if_pos hbrings]
      exact (hdone.markWorker c).trans (.watchDeadlines _ c)

/-- A command changes no more of the posts. -/
theorem perform_samePosts (hc : b.isConnected c = true) (command : Command)
    (body : Option Bytes) : SamePosts
      (command.repost b.engine c (b.perform c command body).1)
      (b.perform c command body).2.engine := by
  cases command with
  | put pri delay ttr size => exact samePosts_put hc pri delay ttr size body
  | reserve => exact .reserve _ c none
  | reserveWithTimeout timeout => exact .reserve _ c _
  | reserveJob n => exact samePosts_reserveJob n body
  | release n pri delay =>
    refine samePosts_onJob rfl fun job => ?_
    split
    · exact .enterReady _ job _
    · exact .move _ _ _
  | bury n pri => exact samePosts_onJob rfl fun job => .move _ _ _
  | touch n => exact samePosts_onJob rfl fun job => .move _ _ _
  | kickJob n => exact samePosts_onJob rfl fun job => .enterReady _ job _
  | delete n =>
    have hdone : SamePosts b.engine (b.onJob n.toNat (·.delete c)).2 :=
      samePosts_onJob rfl fun job => .move _ _ _
    unfold Command.repost
    simp only [perform, delete]
    split
    · next job _ _ =>
      have hforgot : SamePosts b.engine
          ((b.onJob n.toNat (·.delete c)).2.unregister n.toNat) := hdone.trans (.of_eq rfl rfl rfl)
      exact hforgot.trans (.adjustTube _ job.tube
        (f := fun tube => { tube with cmdDelete := tube.cmdDelete + 1 })
        fun _ => ⟨rfl, rfl, rfl, Or.inl rfl⟩)
    · exact hdone
  | kick bound =>
    unfold Command.repost
    simp only [perform, kick]
    split
    · exact .kick _ _ _
    · exact .refl _
  | watch name => exact .refl _
  | useTube name => exact .refl _
  | ignore name =>
    unfold Command.repost
    simp only [perform, ignore]
    split
    · next honly =>
      have hsame : b.engine.ignore c name = b.engine := by
        unfold Engine.ignore
        split
        · simp [honly]
        · rfl
      rw [hsame]
      exact .refl _
    · exact .refl _
  | pauseTube name delay =>
    unfold Command.repost
    simp only [perform, pauseTube]
    split <;> exact .refl _
  | peek | peekReady | peekDelayed | peekBuried =>
    unfold Command.repost
    simp only [perform, peekTube, show?]
    split <;> exact .refl _
  | statsJob | statsTube | listTubeUsed | listTubesWatched =>
    unfold Command.repost
    simp only [perform]
    split <;> exact .refl _
  | stats | listTubes | quit => exact .refl _

/-- Timers change no posts. -/
theorem samePosts_tick (b : Broker) (i : Instant) (requests : List Request) :
    SamePosts { b.engine with now := i } (b.tick i requests).engine := by
  have hfired := SamePosts.fireTimers i requests b.engine
  obtain ⟨-, -, htubes⟩ := foldl_fireTimer_frame i requests b.engine
  exact ⟨rfl, hfired.clients, hfired.keys, fun a ha => ⟨a, htubes ▸ ha, .refl _ a⟩⟩

/-- An event changes no more of the posts. -/
theorem Reachable.samePosts (h : Reachable b) (event : Event) :
    SamePosts (b.repost event) (b.step event).engine := by
  cases event with
  | connect => exact .refl _
  | command c command body =>
    rw [Broker.step, repost]
    split
    · next hc =>
      have hc' : (b.record command.verb).isConnected c = true := by
        rwa [Broker.isConnected, engine_record]
      have hperform := perform_samePosts hc' command body
      rwa [engine_record] at hperform
    · exact .refl _
  | disconnect c =>
    rw [Broker.step, repost]
    split
    · next hc =>
      obtain ⟨client, rfl, hclient, -⟩ := client?_of_isConnected hc
      have hgiven : SamePosts b.engine ((b.engine.finishAll client.id).giveBackAll client.id) :=
        (SamePosts.adjustClient b.engine client.id
          (f := fun client => { client with tasks := client.tasks.finishAll })
          fun _ => rfl).trans (.giveBackAll _ _)
      simp only [hclient, Option.map_some, Option.getD_some, disconnect]
      rw [close_eq hclient]
      exact hgiven.depart client
    · exact .refl _
  | advance span => exact samePosts_tick b _ _
  | delayedSweep => exact .delayedSweep b.engine h.sound.listed.tubes
  | expirySweep => exact .expirySweep b.engine

end Broker

/-! ## The post of each client -/

/-- What a command makes of the post of its client, by the reply to it. -/
def Command.assigns (reply : Reply) (post : Post) : Command → Post
  | useTube name => { post with used := name }
  | watch name =>
    if post.watching.contains name then post
    else { post with watching := post.watching ++ [name] }
  | ignore name =>
    if post.watching == [name] then post
    else { post with watching := post.watching.filter (· ≠ name) }
  | put .. => { post with producer := post.producer || reply.isInserted }
  | reserve | reserveWithTimeout _ => { post with worker := true }
  | reserveJob n => { post with worker := post.worker || reply.brings n.toNat }
  | _ => post

namespace Broker

open Engine

/-- What an event makes of a post. -/
def assigns (b : Broker) (event : Event) (post : Post) : Post :=
  match event with
  | .command c command body =>
    if b.isConnected c && post.id = c then command.assigns (b.dispatch c command body).1 post
    else post
  | .disconnect c =>
    if b.isConnected c && post.id = c then { post with closed := true, watching := [] } else post
  | _ => post

/-- The post of a client that comes. -/
def joins (b : Broker) : Event → List Post
  | .connect => [{ id := b.nextClient }]
  | _ => []

variable {b : Broker} {s t : Engine} {c : ClientId} {client : Client}

theorem posts_of_client (hn : s.clients.Numbered) (hc : s.client? c = some client)
    {f : Client → Client} {g : Post → Post} (hfg : (f client).post = g client.post)
    (ht : t.clients = (s.adjustClient c f).clients) : t.clients.map Client.post =
      (s.clients.map Client.post).map fun post => if post.id = c then g post else post := by
  rw [ht]
  simp only [adjustClient, Table.adjust, List.map_map]
  refine List.map_congr_left fun other hother => ?_
  obtain ⟨hmem, rfl⟩ := (client?_eq_some_iff hn).1 hc
  by_cases hid : other.id = client.id
  · obtain rfl := Table.eq_of_key_eq hn.nodup hother hmem hid
    simp only [Function.comp_apply, Keyed.key, if_true, hfg]
    exact (if_pos rfl).symm
  · simp only [Function.comp_apply, Keyed.key, hid, if_false]
    exact (if_neg hid).symm

theorem posts_of_clients_eq (hn : s.clients.Numbered) (hc : s.client? c = some client)
    {g : Post → Post} (hg : g client.post = client.post) (ht : t.clients = s.clients) :
    t.clients.map Client.post =
      (s.clients.map Client.post).map fun post => if post.id = c then g post else post := by
  refine posts_of_client (f := fun client => client) hn hc hg.symm ?_
  simp [ht, adjustClient, Table.adjust]

theorem clients_ensureTube (s : Engine) (name : TubeName) :
    (s.ensureTube name).clients = s.clients := by
  unfold ensureTube
  split <;> rfl

theorem clients_removeWatchers (names : List TubeName) (s : Engine) :
    (names.foldl removeWatcher s).clients = s.clients :=
  List.foldlRecOn names removeWatcher (motive := fun t => t.clients = s.clients) rfl
    fun t (h : t.clients = s.clients) _ _ => h

theorem posts_repost (hn : s.clients.Numbered) (hc : s.client? c = some client) (command : Command)
    (reply : Reply) : (command.repost s c reply).clients.map Client.post =
      (s.clients.map Client.post).map fun post =>
        if post.id = c then command.assigns reply post else post := by
  cases command with
  | useTube name =>
    refine posts_of_client (f := fun client => { client with used := name }) hn hc rfl ?_
    unfold Command.repost
    simp only [Engine.useTube, hc, adjustClient, removeUser, addUser, adjustTube,
      clients_ensureTube]
  | watch name =>
    have hc' : (s.ensureTube name).client? c = some client := by
      rw [client?, clients_ensureTube]
      exact hc
    unfold Command.repost Command.assigns
    simp only [Engine.watch, hc']
    split
    · next hmem => exact posts_of_clients_eq hn hc (if_pos hmem) (clients_ensureTube s name)
    · next hnew =>
      refine posts_of_client
        (f := fun client => { client with watching := client.watching ++ [name] }) hn hc
        (if_neg hnew).symm ?_
      simp only [adjustClient, addWatcher, adjustTube, clients_ensureTube]
  | ignore name =>
    have honly : s.watchesOnly c name = (client.watching == [name]) := by simp [watchesOnly, hc]
    unfold Command.repost Command.assigns
    simp only [Engine.ignore, hc, honly]
    split
    · next hpass =>
      rw [Bool.and_eq_true, Bool.not_eq_true'] at hpass
      exact posts_of_client
        (f := fun client => { client with watching := client.watching.filter (· ≠ name) }) hn hc
        (if_neg (ne_true_of_eq_false hpass.2)).symm rfl
    · next hpass =>
      refine posts_of_clients_eq hn hc ?_ rfl
      split
      · rfl
      · next hnot =>
        -- a tube that is not watched is not missed
        have hnot : (client.watching == [name]) = false := eq_false_of_ne_true hnot
        have hfree : name ∉ client.watching := fun hmem => hpass <| by
          rw [List.contains_iff_mem.2 hmem, hnot]
          rfl
        have hfilter : client.watching.filter (· ≠ name) = client.watching :=
          List.filter_eq_self.2 fun other hother => decide_eq_true fun he => hfree (he ▸ hother)
        exact congrArg (fun names => { client.post with watching := names }) hfilter
  | put pri delay ttr size =>
    unfold Command.repost Command.assigns
    dsimp only
    cases reply.isInserted with
    | true =>
      exact posts_of_client (f := fun client => { client with producer := true })
        (g := fun post => { post with producer := post.producer || true }) hn hc
        (by simp [Client.post]) rfl
    | false =>
      exact posts_of_clients_eq (g := fun post => { post with producer := post.producer || false })
        hn hc (by simp) rfl
  | reserve | reserveWithTimeout =>
    exact posts_of_client (f := fun client => { client with worker := true })
      (g := fun post => { post with worker := true }) hn hc rfl rfl
  | reserveJob n =>
    unfold Command.repost Command.assigns
    dsimp only
    cases reply.brings n.toNat with
    | true =>
      exact posts_of_client (f := fun client => { client with worker := true })
        (g := fun post => { post with worker := post.worker || true }) hn hc
        (by simp [Client.post]) rfl
    | false =>
      exact posts_of_clients_eq (g := fun post => { post with worker := post.worker || false })
        hn hc (by simp) rfl
  | pauseTube name delay =>
    refine posts_of_clients_eq hn hc rfl ?_
    unfold Command.repost
    dsimp only
    split <;> rfl
  | _ => exact posts_of_clients_eq hn hc rfl rfl

/-- Each post is what the event makes of it, and a client that comes has a new one. -/
theorem Reachable.posts_step (h : Reachable b) (event : Event) :
    (b.step event).engine.clients.map Client.post =
      (b.engine.clients.map Client.post).map (b.assigns event) ++ b.joins event := by
  have hn := h.sound.listed.clients
  rw [(h.samePosts event).clients]
  cases event with
  | connect =>
    have hkept : b.assigns .connect = id := rfl
    rw [hkept, List.map_id]
    exact List.map_append
  | command c command body =>
    refine Eq.trans ?_ (List.append_nil _).symm
    rw [repost]
    split
    · next hc =>
      obtain ⟨client, -, hclient, -⟩ := client?_of_isConnected hc
      rw [posts_repost hn hclient]
      refine List.map_congr_left fun post _ => ?_
      simp only [assigns, hc, Bool.true_and, decide_eq_true_eq]
    · next hc =>
      refine (List.map_id _).symm.trans (List.map_congr_left fun post _ => ?_)
      simp [assigns, hc]
  | disconnect c =>
    refine Eq.trans ?_ (List.append_nil _).symm
    rw [repost]
    split
    · next hc =>
      obtain ⟨client, rfl, hclient, -⟩ := client?_of_isConnected hc
      simp only [hclient, Option.map_some, Option.getD_some]
      refine (posts_of_client (f := fun client => { client with closed := true, watching := [] })
        (g := fun post => { post with closed := true, watching := [] }) hn hclient rfl ?_).trans
        (List.map_congr_left fun post _ => ?_)
      · simp only [depart, adjustClient, clients_removeWatchers]
        rfl
      · simp only [assigns, hc, Bool.true_and, decide_eq_true_eq]
    · next hc =>
      refine (List.map_id _).symm.trans (List.map_congr_left fun post _ => ?_)
      simp [assigns, hc]
  | advance | delayedSweep | expirySweep =>
    exact (List.map_id _).symm.trans (List.append_nil _).symm

end Broker

end WorkQueue
