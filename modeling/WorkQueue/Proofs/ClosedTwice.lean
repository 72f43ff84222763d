import WorkQueue.Proofs.Leaving
import WorkQueue.Proofs.Roster

/-!
# Closing a client once more

A client that is closed has no request left that waits, holds none of the jobs that it was listed
with (`Engine.Resigned`), and watches no tube. All this is taken from it, and when it is closed once
more there is nothing to give up and nothing to give back. Only the tube that it used is still on
its record, and that tube loses another user (`Engine.close_close`). So a second time changes
nothing but the count of users of one tube, which goes below zero if nobody uses the tube any more
(`Engine.close_again`). Nothing is assumed of the engine.
-/

namespace WorkQueue

namespace Table

variable {α κ : Type} [Keyed α κ] [DecidableEq κ]

theorem lookup_adjust_const (table : Table α) {k : κ} {b : α} (hb : Keyed.key b = k) (l : κ) :
    (table.adjust k fun _ => b).lookup l =
      (table.lookup l).map fun a => if Keyed.key a = k then b else a := by
  refine lookup_map table _ (fun a => ?_) l
  split
  · next ha => exact hb.trans ha.symm
  · rfl

end Table

namespace Engine

variable {s t : Engine} {c : ClientId} {row : Agenda} {back : List JobId} {id : JobId}

/-! ## A client that has given up its requests -/

/-- A client waits for nothing, is listed with jobs of a row only, and holds none that it has given
back. -/
structure Resigned (c : ClientId) (row : Agenda) (back : List JobId) (s : Engine) : Prop where
  idle : ∀ client ∈ s.clients, client.id = c → client.tasks.pending = []
  listed : ∀ client, s.client? c = some client → client.held ⊆ row
  free : ∀ id ∈ back, ∀ job, s.job? id = some job → job.isHeldBy c = false

namespace Resigned

/-- The client has the same tasks, and no more jobs on its list. -/
theorem of_map (h : Resigned c row back s) {g : Client → Client} {back' : List JobId}
    (hclients : t.clients = s.clients.map g) (hid : ∀ client, (g client).id = client.id)
    (hkeep : ∀ client, client.id = c →
      (g client).tasks = client.tasks ∧ (g client).held ⊆ client.held)
    (hfree : ∀ id ∈ back', ∀ job, t.job? id = some job → job.isHeldBy c = false) :
    Resigned c row back' t := by
  refine ⟨fun client hmem hc => ?_, fun client hc => ?_, hfree⟩
  · obtain ⟨old, hold, rfl⟩ := List.mem_map.1 (hclients ▸ hmem)
    have hold' : old.id = c := (hid old).symm.trans hc
    rw [(hkeep old hold').1]
    exact h.idle old hold hold'
  · rw [client?, hclients, Table.lookup_map s.clients g hid, Option.map_eq_some_iff] at hc
    obtain ⟨old, hold, rfl⟩ := hc
    exact List.Subset.trans (hkeep old (Table.key_of_lookup hold)).2 (h.listed old hold)

theorem of_eq (h : Resigned c row back s) (hclients : t.clients = s.clients)
    (hjobs : t.jobs = s.jobs) : Resigned c row back t := by
  refine h.of_map (g := fun client => client) (hclients.trans (List.map_id' _).symm)
    (fun _ => rfl) (fun _ _ => ⟨rfl, List.Subset.refl _⟩) fun id hid job hj => ?_
  rw [job?, hjobs] at hj
  exact h.free id hid job hj

/-- A change of another client, or one of neither tasks nor jobs. -/
theorem adjustClient (h : Resigned c row back s) (d : ClientId) {f : Client → Client}
    (hid : ∀ client, (f client).id = client.id)
    (hf : d = c → ∀ client, (f client).tasks = client.tasks ∧ (f client).held = client.held) :
    Resigned c row back (s.adjustClient d f) := by
  refine h.of_map rfl (fun client => ?_) (fun client hc => ?_) h.free
  · split
    · exact hid client
    · rfl
  · split
    · next hd =>
      obtain ⟨htasks, hheld⟩ := hf (hd.symm.trans hc) client
      exact ⟨htasks, hheld ▸ List.Subset.refl _⟩
    · exact ⟨rfl, List.Subset.refl _⟩

theorem ne_of_isOpen (h : Resigned c row back s) {q : Request} (hq : s.isOpen q = true) :
    q.client ≠ c := by
  rintro rfl
  obtain ⟨client, hc, hopen⟩ := (Option.any_eq_true _ _).1 hq
  have hidle := h.idle client (Table.mem_of_lookup hc) (Table.key_of_lookup hc)
  simp [Tasks.isOpen, hidle] at hopen

/-! ## Jobs that move -/

/-- A job moves that the client does not hold afterwards. -/
theorem move (h : Resigned c row back s) (id : JobId) {f : Job → Job}
    (hf : ∀ job, (f job).id = job.id ∧ (f job).tube = job.tube ∧ (f job).isHeldBy c = false) :
    Resigned c row (id :: back) (s.move id f) := by
  cases hj : s.job? id with
  | none =>
    have hsame : s.move id f = s := by rw [Engine.move, hj]
    rw [hsame]
    refine ⟨h.idle, h.listed, List.forall_mem_cons.2 ⟨fun job hsome => ?_, h.free⟩⟩
    cases hj.symm.trans hsome
  | some job =>
    obtain ⟨hid, htube, hfree⟩ := hf job
    obtain rfl : job.id = id := Table.key_of_lookup hj
    rw [move_eq hj htube]
    refine h.of_map rfl (fun client => (rehold_frame job (f job) client).1)
      (fun client hc => ⟨(rehold_frame job (f job) client).2.1, ?_⟩) fun id hmem x hx => ?_
    · have hnot (client : Client) (hc : client.id = c) : ¬(f job).isHeldBy client.id = true := by
        rw [hc, hfree]
        exact Bool.false_ne_true
      unfold Client.rehold
      split
      · rw [if_neg (hnot (client.letGo job) hc)]
        exact List.filter_subset_self _
      · rw [if_neg (hnot client hc)]
        exact List.Subset.refl _
    · rw [job?, Table.lookup_adjust_const s.jobs hid, Option.map_eq_some_iff] at hx
      obtain ⟨old, hold, rfl⟩ := hx
      split
      · exact hfree
      · next hne =>
        have hback := (List.mem_cons.1 hmem).resolve_left fun he =>
          hne ((Table.key_of_lookup hold).trans he)
        exact h.free id hback old hold

theorem mono (h : Resigned c row back s) {back' : List JobId} (hback : back' ⊆ back) :
    Resigned c row back' s :=
  { h with free := fun id hid => h.free id (hback hid) }

theorem finish (h : Resigned c row back s) {q : Request} (hq : q.client ≠ c) :
    Resigned c row back (s.finish q) :=
  h.adjustClient q.client (fun _ => by rfl) fun he => absurd he hq

theorem grant (h : Resigned c row back s) {q : Request} (hq : q.client ≠ c) (id : JobId) :
    Resigned c row back (s.grant q id) := by
  unfold Engine.grant
  dsimp only
  split
  · have hmoved := (h.finish hq).move id (f := (·.makeReserved (s.finish q).now q.client))
      fun job => ⟨rfl, rfl, decide_eq_false fun he => hq (Option.some.inj he)⟩
    rw [watchDeadlines_eq]
    exact (hmoved.mono (List.subset_cons_self _ _)).of_eq rfl rfl
  · exact h.finish hq

theorem serve (h : Resigned c row back s) (r : RequestId) (id : JobId) :
    Resigned c row back (s.serve r id) := by
  unfold Engine.serve
  split
  · split
    · next hopen => exact h.grant (h.ne_of_isOpen hopen) id
    · exact h
  · exact h

theorem offer (name : TubeName) (queue : List RequestId) {s : Engine}
    (h : Resigned c row back s) : Resigned c row back (offer name queue s).2 := by
  induction queue generalizing s with
  | nil => exact h
  | cons r rest ih =>
    rw [Engine.offer]
    split
    · exact ih (h.serve r _)
    · exact h

theorem drain (h : Resigned c row back s) (name : TubeName) :
    Resigned c row back (s.drain name) := by
  unfold Engine.drain
  split
  · exact (offer name _ h).of_eq rfl rfl
  · exact h

/-- A job that is given back is not held any more, whether it was or not. -/
theorem giveBack (h : Resigned c row back s) (id : JobId) :
    Resigned c row (id :: back) (s.giveBack c id).2 := by
  refine transition_cases (fun hrefused => ?_) fun job _ hid _ => ?_
  · exact { h with free := List.forall_mem_cons.2 ⟨hrefused, h.free⟩ }
  · have hmoved := h.move job.id (f := (·.makeReady)) fun _ => ⟨rfl, rfl, rfl⟩
    exact hid ▸ hmoved.drain job.tube

theorem foldl_giveBack (slots : Agenda) {s : Engine} {back : List JobId}
    (h : Resigned c row back s) : Resigned c row (slots.map (·.job) ++ back)
      (slots.foldl (fun s slot => (s.giveBack c slot.job).2) s) := by
  induction slots generalizing s back with
  | nil => exact h
  | cons slot rest ih => exact (ih (h.giveBack slot.job)).mono List.perm_middle.symm.subset

/-! ## Nothing is left to do -/

theorem finishAll_eq_self (h : Resigned c row back s) : s.finishAll c = s := by
  have hclients : s.clients.adjust c (fun client =>
      { client with tasks := client.tasks.finishAll }) = s.clients := by
    refine (List.map_congr_left fun client hmem => ?_).trans (List.map_id s.clients)
    split
    · next hc =>
      have htasks : client.tasks.finishAll = client.tasks := by
        rw [Tasks.finishAll, ← h.idle client hmem hc]
      change { client with tasks := client.tasks.finishAll } = client
      rw [htasks]
    · rfl
  rw [finishAll, Engine.adjustClient, hclients]

theorem giveBack_eq_self (h : Resigned c row back s) (hid : id ∈ back) :
    (s.giveBack c id).2 = s := by
  refine transition_cases (P := fun t => t = s) (fun _ => rfl) fun job hj hsame hheld => ?_
  rw [h.free id hid job (hsame ▸ hj)] at hheld
  cases hheld

theorem giveBackAll_eq_self (h : Resigned c row back s) (hrow : ∀ slot ∈ row, slot.job ∈ back) :
    s.giveBackAll c = s := by
  unfold giveBackAll
  split
  · next client hc =>
    have hheld : ∀ slot ∈ client.held, slot.job ∈ back := fun slot hslot =>
      hrow slot (h.listed client hc hslot)
    generalize client.held = slots at hheld
    induction slots with
    | nil => rfl
    | cons slot rest ih =>
      obtain ⟨hslot, hrest⟩ := List.forall_mem_cons.1 hheld
      rw [List.foldl_cons, h.giveBack_eq_self hslot]
      exact ih hrest
  · rfl

end Resigned

/-! ## Once more -/

theorem SamePosts.post? (h : SamePosts s t) (c : ClientId) :
    (t.client? c).map Client.post = (s.client? c).map Client.post := by
  have hfind (u : Engine) : (u.client? c).map Client.post =
      (u.clients.map Client.post).find? fun post => post.id = c := by
    rw [List.find?_map]
    rfl
  rw [hfind, hfind, h.clients]

theorem Resigned.shut (h : Resigned c row back s) : Resigned c row back (s.shut c) :=
  h.adjustClient c (fun _ => by rfl) fun _ _ => ⟨rfl, rfl⟩

theorem shut_shut (s : Engine) (c : ClientId) : (s.shut c).shut c = s.shut c := by
  have htwice := Table.adjust_adjust s.clients c
    (fun client => { client with closed := true, watching := [] })
    (fun client => { client with closed := true, watching := [] }) fun _ => id
  simp only [Engine.shut, Engine.adjustClient, htwice]

theorem resigned_finishAll {client : Client} (hc : s.client? c = some client) :
    Resigned c client.held [] (s.finishAll c) := by
  refine ⟨fun x hx hid => ?_, fun x hx => ?_, List.forall_mem_nil _⟩
  · rcases Table.mem_adjust.1 hx with ⟨old, -, -, rfl⟩ | ⟨-, hne⟩
    · rfl
    · exact absurd hid hne
  · rw [finishAll, client?_adjustClient s c (fun _ => by rfl), hc, Option.map_some] at hx
    obtain rfl := Option.some.inj hx
    split <;> exact List.Subset.refl _

/-- Before a client is shut, it has resigned and given back what it was listed with. -/
theorem close_eq_shut {client : Client} (hc : s.client? client.id = some client) :
    ∃ u, s.close client.id = u.shut client.id ∧ SamePosts (s.depart client) (u.shut client.id) ∧
      Resigned client.id client.held (client.held.map (·.job)) u := by
  have hlookup : (s.finishAll client.id).client? client.id =
      some { client with tasks := client.tasks.finishAll } := by
    rw [finishAll, client?_adjustClient s client.id (fun _ => by rfl), hc, Option.map_some,
      if_pos rfl]
  have hgiven : (s.finishAll client.id).giveBackAll client.id = client.held.foldl
      (fun s slot => (s.giveBack client.id slot.job).2) (s.finishAll client.id) := by
    rw [giveBackAll, hlookup]
  have hposts : SamePosts s ((s.finishAll client.id).giveBackAll client.id) :=
    (SamePosts.adjustClient s client.id
      (f := fun client => { client with tasks := client.tasks.finishAll }) fun _ => rfl).trans
      (.giveBackAll _ _)
  refine ⟨_, close_eq hc, hposts.depart client, ?_⟩
  have hresigned := (resigned_finishAll hc).foldl_giveBack client.held
  rw [← hgiven, List.append_nil] at hresigned
  exact List.foldlRecOn client.watching removeWatcher (hresigned.of_eq rfl rfl)
    fun _ h _ _ => h.of_eq rfl rfl

theorem client?_depart {client : Client} (hc : s.client? client.id = some client) :
    (s.depart client).client? client.id = some { client with closed := true, watching := [] } := by
  rw [depart, client?_adjustClient _ _ (fun _ => by rfl), client?, Broker.clients_removeWatchers]
  change Option.map _ (s.client? client.id) = _
  rw [hc, Option.map_some, if_pos rfl]

/-- Closing a client once more takes another user from its tube. -/
theorem close_close {client : Client} (hc : s.client? client.id = some client) :
    (s.close client.id).close client.id = (s.close client.id).removeUser client.used := by
  obtain ⟨u, hclose, hposts, hresigned⟩ := close_eq_shut hc
  have hpost := hposts.post? client.id
  rw [client?_depart hc, Option.map_some] at hpost
  obtain ⟨closed, hclosed, hsame⟩ := Option.map_eq_some_iff.1 hpost
  obtain ⟨hid, hused, hwatching⟩ : closed.id = client.id ∧ closed.used = client.used ∧
      closed.watching = [] :=
    ⟨congrArg Post.id hsame, congrArg Post.used hsame, congrArg Post.watching hsame⟩
  have hshut := hresigned.shut
  calc (s.close client.id).close client.id
      = ((u.shut client.id).removeUser client.used).shut client.id := by
        rw [hclose, ← hid, close_eq (hid ▸ hclosed), hid, hshut.finishAll_eq_self,
          hshut.giveBackAll_eq_self fun _ => List.mem_map_of_mem, depart, hwatching, hused, hid]
        rfl
    _ = ((u.shut client.id).shut client.id).removeUser client.used := rfl
    _ = (s.close client.id).removeUser client.used := by rw [shut_shut, hclose]

theorem keys_close {client : Client} (hc : s.client? client.id = some client) :
    (s.close client.id).tubes.keys = s.tubes.keys := by
  obtain ⟨u, hclose, hposts, -⟩ := close_eq_shut hc
  rw [hclose, hposts.keys, keys_depart]

theorem adjustTube_eq_self_iff (s : Engine) (name : TubeName) {f : Tube → Tube}
    (hf : ∀ tube, f tube ≠ tube) : s.adjustTube name f = s ↔ name ∉ s.tubes.keys := by
  constructor
  · intro hsame hname
    obtain ⟨tube, ht, hkey⟩ := List.mem_map.1 hname
    have htubes : s.tubes.map (fun tube => if Keyed.key tube = name then f tube else tube) =
        s.tubes.map id := (congrArg Engine.tubes hsame).trans (List.map_id _).symm
    have hchanged := List.map_inj_left.1 htubes tube ht
    rw [if_pos hkey] at hchanged
    exact hf tube hchanged
  · intro hname
    have htubes : s.tubes.adjust name f = s.tubes := by
      refine (List.map_congr_left fun tube ht => if_neg fun hkey => ?_).trans (List.map_id _)
      exact hname (hkey ▸ List.mem_map_of_mem ht)
    rw [adjustTube, htubes]

/-- When a client is closed once more, the tube that it used loses another user, and nothing else
changes. It is no change at all only if there is no such tube. -/
theorem close_again {client : Client} (hc : s.client? client.id = some client) :
    let t := s.close client.id
    t.close client.id = { t with
      tubes := t.tubes.adjust client.used fun tube => { tube with users := tube.users - 1 } } ∧
    (t.close client.id).tubes.map (t.close client.id).tubeStats = t.tubes.map (fun tube =>
      { t.tubeStats tube with
        currentUsing := (if tube.name = client.used then tube.users - 1 else tube.users).toNat }) ∧
    (t.close client.id = t ↔ client.used ∉ s.tubes.keys) := by
  intro t
  have hclose : t.close client.id = t.removeUser client.used := close_close hc
  rw [hclose]
  refine ⟨rfl, ?_, ?_⟩
  · refine List.map_map.trans (List.map_congr_left fun tube _ => ?_)
    by_cases hname : tube.name = client.used
    · have hkey : Keyed.key tube = client.used := hname
      rw [Function.comp_apply, if_pos hkey, if_pos hname]
      rfl
    · have hkey : Keyed.key tube ≠ client.used := hname
      rw [Function.comp_apply, if_neg hkey, if_neg hname]
      rfl
  · rw [← keys_close hc]
    refine adjustTube_eq_self_iff t client.used fun tube hsame => ?_
    have husers : tube.users - 1 = tube.users := congrArg Tube.users hsame
    grind

end Engine

namespace Broker

open Engine

/-- A client holds a job, and another one waits for it. -/
def heldAndAwaited : List Event :=
  [.connect, .connect, .command 1 (.put 0 0 60 1) (some [120]), .command 1 .reserve none,
    .command 2 .reserve none]

/-- The client of `heldAndAwaited` that holds the job. -/
def jobHolder : Client where
  id := 1
  tasks := { begun := 1 }
  held := [⟨60000, 1⟩]
  producer := true
  worker := true

theorem close_again_jobHolder :
    let s := ((start {}).after heldAndAwaited).engine
    s.client? jobHolder.id = some jobHolder ∧ (s.close 1).close 1 ≠ s.close 1 ∧
    (s.close 1).tubes.map (fun tube => ((s.close 1).tubeStats tube).currentUsing) = [1] ∧
    ((s.close 1).close 1).tubes.map
      (fun tube => (((s.close 1).close 1).tubeStats tube).currentUsing) = [0] := by
  intro s
  have hc : s.client? jobHolder.id = some jobHolder := by decide
  obtain ⟨-, hstats, hsame⟩ := close_again hc
  refine ⟨hc, fun heq => hsame.1 heq (by decide), by decide, ?_⟩
  have husing := congrArg (List.map TubeStats.currentUsing) hstats
  rw [List.map_map, List.map_map] at husing
  exact husing.trans (by decide)

/-- The only client is closed twice, and its tube has less than no users. -/
theorem close_alone_twice :
    let s := ((start {}).after [.connect]).engine
    (s.close 1).close 1 ≠ s.close 1 ∧
    (s.close 1).tubes.map (fun tube => ((s.close 1).tubeStats tube).currentUsing) = [0] ∧
    ((s.close 1).close 1).tubes.map
      (fun tube => (((s.close 1).close 1).tubeStats tube).currentUsing) =
        [18446744073709551615] := by
  decide

end Broker

end WorkQueue
