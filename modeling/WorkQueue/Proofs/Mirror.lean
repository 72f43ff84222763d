import Mathlib.Data.List.Forall2
import Mathlib.Data.Nat.Basic
import Mathlib.Order.Monotone.Basic
import WorkQueue.Engine.Clients
import WorkQueue.Engine.Reserve
import WorkQueue.Engine.Sweep
import WorkQueue.Proofs.Table

/-!
# Engines that differ in numbers

One engine mirrors another (`Engine.Mirrors`) if it has the same tubes, jobs and clients, and the
same requests under other numbers (`Renaming`). It may have some more requests, which are answered
and wait nowhere, and differ in the flag that tells the workers among the clients. What is asked of
both is answered alike, and what is done to both leaves the one a mirror of the other.
-/

namespace WorkQueue

/-- Other numbers for the requests and for the tasks of each client, in the same order. -/
structure Renaming where
  request : RequestId → RequestId
  task : ClientId → TaskId → TaskId
  request_mono : StrictMono request
  task_mono : ∀ c, StrictMono (task c)

variable {ρ : Renaming}

def Tube.rename (ρ : Renaming) (tube : Tube) : Tube :=
  { tube with waiters := tube.waiters.map ρ.request }

def Request.rename (ρ : Renaming) (q : Request) : Request :=
  { q with id := ρ.request q.id, task := ρ.task q.client q.task }

/-- A client with the same open tasks under other numbers. Its next tasks have the numbers that the
renaming has for them. -/
inductive Client.Like (ρ : Renaming) (client : Client) : Client → Prop
  | mk (worker : Bool) (begun : Nat)
    (h : ∀ k, ρ.task client.id (client.tasks.begun + k + 1) = begun + k + 1) :
    Like ρ client
      { client with
        worker := worker
        tasks := ⟨begun, client.tasks.pending.map (ρ.task client.id)⟩ }

/-- The same requests under other numbers, with some among them that have a number of their own and
no timer. -/
inductive Among (ρ : Renaming) : List Request → List Request → Prop
  | nil : Among ρ [] []
  | same {qs ps : List Request} (q : Request) (h : Among ρ qs ps) :
    Among ρ (q :: qs) (q.rename ρ :: ps)
  | extra {qs ps : List Request} (p : Request) (htimer : p.timer = none)
    (hid : ∀ r, ρ.request r ≠ p.id) (h : Among ρ qs ps) : Among ρ qs (p :: ps)

namespace Engine

variable {s t : Engine} {c : ClientId} {name : TubeName}

/-- The answer to a request, and when it was given. -/
def answerTo? (s : Engine) (r : RequestId) : Option (Outcome × Instant) :=
  (s.deliveries.find? (·.request = r)).map fun d => (d.outcome, d.time)

/-- The second engine is the first under other numbers. -/
structure Mirrors (ρ : Renaming) (s t : Engine) : Prop where
  now : t.now = s.now
  tubes : t.tubes = s.tubes.map (Tube.rename ρ)
  jobs : t.jobs = s.jobs
  clients : List.Forall₂ (Client.Like ρ) s.clients t.clients
  requests : Among ρ s.requests t.requests
  answers : ∀ r, t.answerTo? (ρ.request r) = s.answerTo? r
  expiring : t.expiring = s.expiring
  /-- The next requests have the numbers that the renaming has for them. -/
  next : ∀ k, ρ.request (s.requests.length + k + 1) = t.requests.length + k + 1
  /-- A client that comes numbers its tasks as it likes. -/
  newcomers : ∀ c, s.clients.length < c → ∀ k, ρ.task c k = k

/-- Two results that agree, of engines that mirror each other. -/
structure Agrees {α : Type} (ρ : Renaming) (x y : α × Engine) : Prop where
  result : y.1 = x.1
  mirrors : Mirrors ρ x.2 y.2

end Engine

/-! ## Renamed records -/

theorem Client.Like.id_eq {a b : Client} (h : Client.Like ρ a b) : b.id = a.id := by
  cases h
  rfl

theorem Client.Like.isOpen {a b : Client} (h : Client.Like ρ a b) (k : TaskId) :
    b.tasks.isOpen (ρ.task a.id k) = a.tasks.isOpen k := by
  cases h
  rw [Bool.eq_iff_iff, Tasks.isOpen, Tasks.isOpen, List.contains_iff_mem, List.contains_iff_mem]
  exact List.mem_map_of_injective (ρ.task_mono a.id).injective

theorem Tube.rename_withdraw (tube : Tube) (job : Job) :
    (tube.rename ρ).withdraw job = (tube.withdraw job).rename ρ := by
  unfold withdraw
  cases job.state <;> rfl

theorem Tube.rename_enlist (tube : Tube) (job : Job) :
    (tube.rename ρ).enlist job = (tube.enlist job).rename ρ := by
  unfold enlist
  cases job.state <;> rfl

/-- Each task of the renamed client is closed under its other number. -/
theorem Client.Like.finish {a b : Client} (h : Client.Like ρ a b) (k : TaskId) :
    Client.Like ρ { a with tasks := (a.tasks.finish k).2 }
      { b with tasks := (b.tasks.finish (ρ.task a.id k)).2 } := by
  obtain ⟨worker, begun, hnext⟩ := h
  have hpending : (a.tasks.pending.map (ρ.task a.id)).filter (· ≠ ρ.task a.id k) =
      (a.tasks.pending.filter (· ≠ k)).map (ρ.task a.id) := by
    rw [List.filter_map]
    refine congrArg (List.map _) (List.filter_congr fun j _ => ?_)
    simp [(ρ.task_mono a.id).injective.eq_iff]
  simp only [Tasks.finish, hpending]
  exact .mk worker begun hnext

/-- The task that the renamed client begins next has the other number of that which the client
begins. -/
theorem Client.Like.start {a b : Client} (h : Client.Like ρ a b) :
    b.tasks.start.1 = ρ.task a.id a.tasks.start.1 ∧
      Client.Like ρ { a with tasks := a.tasks.start.2 } { b with tasks := b.tasks.start.2 } := by
  obtain ⟨worker, begun, hnext⟩ := h
  have hfirst : ρ.task a.id (a.tasks.begun + 1) = begun + 1 := hnext 0
  refine ⟨hfirst.symm, ?_⟩
  simp only [Tasks.start, ← hfirst, ← List.map_singleton, ← List.map_append]
  rw [hfirst]
  refine .mk worker (begun + 1) fun k => ?_
  rw [Nat.add_right_comm begun, Nat.add_right_comm a.tasks.begun]
  exact hnext (k + 1)

theorem Client.Like.request {a b : Client} (h : Client.Like ρ a b) (r : RequestId) (now : Instant)
    (timeout : Option Millis) :
    b.request (ρ.request r) now timeout = (a.request r now timeout).rename ρ := by
  have htask := h.start.1
  cases h
  simp only [Client.request, Request.rename, Client.nearestDeadline?, htask]

namespace Among

variable {qs ps : List Request}

theorem append (h : Among ρ qs ps) (q : Request) : Among ρ (qs ++ [q]) (ps ++ [q.rename ρ]) := by
  induction h with
  | nil => exact .same q .nil
  | same p _ ih => exact .same p ih
  | extra p htimer hid _ ih => exact .extra p htimer hid ih

/-- A number that the renaming gives leads to the renamed request. -/
theorem lookup (h : Among ρ qs ps) (r : RequestId) :
    Table.lookup ps (ρ.request r) = (Table.lookup qs r).map (Request.rename ρ) := by
  induction h with
  | nil => rfl
  | same q _ ih =>
    have hkey : (Keyed.key (q.rename ρ) = ρ.request r) = (Keyed.key q = r) :=
      propext (ρ.request_mono.injective.eq_iff (a := q.id) (b := r))
    simp only [Table.lookup, List.find?_cons, hkey] at ih ⊢
    split
    · rfl
    · exact ih
  | extra p _ hid _ ih =>
    have hkey : ¬Keyed.key p = ρ.request r := fun he => hid r he.symm
    simp only [Table.lookup, List.find?_cons, hkey, decide_false] at ih ⊢
    exact ih

end Among

namespace Engine

namespace Mirrors

/-! ## What is asked of both -/

variable (h : Mirrors ρ s t)

include h

theorem tube? (name : TubeName) : t.tube? name = (s.tube? name).map (Tube.rename ρ) := by
  rw [Engine.tube?, h.tubes]
  exact Table.lookup_map s.tubes (Tube.rename ρ) (fun _ => rfl) name

theorem keys : t.tubes.keys = s.tubes.keys := by
  rw [h.tubes]
  exact Table.keys_map s.tubes (Tube.rename ρ) fun _ => rfl

theorem job? (id : JobId) : t.job? id = s.job? id := by
  rw [Engine.job?, h.jobs]
  rfl

theorem find? (id : JobId) : t.find? id = s.find? id := by
  rw [Engine.find?, h.job?]
  rfl

theorem client? (c : ClientId) : (s.client? c = none ∧ t.client? c = none) ∨
    ∃ a b, s.client? c = some a ∧ t.client? c = some b ∧ Client.Like ρ a b := by
  unfold Engine.client?
  generalize hs : s.clients = as, ht : t.clients = bs
  have hclients : List.Forall₂ (Client.Like ρ) as bs := hs ▸ ht ▸ h.clients
  clear hs ht
  induction hclients with
  | nil => exact Or.inl ⟨rfl, rfl⟩
  | @cons a b _ _ hab _ ih =>
    have hkey : Keyed.key b = Keyed.key a := hab.id_eq
    simp only [Table.lookup, List.find?_cons, hkey] at ih ⊢
    split
    · exact Or.inr ⟨a, b, rfl, rfl, hab⟩
    · exact ih

theorem isConnected (c : ClientId) : t.isConnected c = s.isConnected c := by
  unfold Engine.isConnected
  rcases h.client? c with ⟨hs, ht⟩ | ⟨a, b, hs, ht, hab⟩
  · rw [hs, ht]
  · rw [hs, ht]
    cases hab
    rfl

theorem request? (r : RequestId) :
    t.request? (ρ.request r) = (s.request? r).map (Request.rename ρ) :=
  h.requests.lookup r

theorem isOpen (q : Request) : t.isOpen (q.rename ρ) = s.isOpen q := by
  unfold Engine.isOpen
  rcases h.client? q.client with ⟨hs, ht⟩ | ⟨a, b, hs, ht, hab⟩
  · rw [hs, show t.client? (q.rename ρ).client = none from ht]
    rfl
  · rw [hs, show t.client? (q.rename ρ).client = some b from ht]
    have hid : a.id = q.client := Table.key_of_lookup hs
    have hopen := hab.isOpen q.task
    rw [hid] at hopen
    exact hopen

theorem isPending (r : RequestId) : t.isPending (ρ.request r) = s.isPending r := by
  rw [Engine.isPending, Engine.isPending, h.request?, Option.any_map]
  congr 1
  funext q
  exact h.isOpen q

theorem next? (name : TubeName) : t.next? name = s.next? name := by
  rw [Engine.next?, Engine.next?, h.tube?, Option.bind_map, h.now]
  rfl

theorem nextRequest : t.nextRequest = ρ.request s.nextRequest :=
  (h.next 0).symm

theorem nextJob : t.nextJob = s.nextJob := by
  rw [Engine.nextJob, h.jobs]
  rfl

theorem nextClient : t.nextClient = s.nextClient := by
  rw [Engine.nextClient, ← h.clients.length_eq]
  rfl

/-! ## What is done to both -/

theorem adjustTube (name : TubeName) {f g : Tube → Tube}
    (hfg : ∀ tube, g (tube.rename ρ) = (f tube).rename ρ) :
    Mirrors ρ (s.adjustTube name f) (t.adjustTube name g) := by
  refine { h with tubes := ?_ }
  simp only [Engine.adjustTube, h.tubes, Table.adjust, List.map_map]
  refine List.map_congr_left fun tube _ => ?_
  simp only [Function.comp_apply]
  have hkey : Keyed.key (tube.rename ρ) = Keyed.key tube := rfl
  rw [hkey]
  split
  · exact hfg tube
  · rfl

theorem adjustJob (id : JobId) (f : Job → Job) :
    Mirrors ρ (s.adjustJob id f) (t.adjustJob id f) :=
  { h with jobs := congrArg (Table.adjust · id f) h.jobs }

theorem adjustClient (c : ClientId) {f g : Client → Client}
    (hfg : ∀ a b, a.id = c → Client.Like ρ a b → Client.Like ρ (f a) (g b)) :
    Mirrors ρ (s.adjustClient c f) (t.adjustClient c g) := by
  refine { h with clients := ?_, newcomers := ?_ }
  · refine List.forall₂_map_left_iff.2 (List.forall₂_map_right_iff.2 (h.clients.imp ?_))
    intro a b hab
    have hkey : Keyed.key b = Keyed.key a := hab.id_eq
    rw [hkey]
    split
    · next hid => exact hfg a b hid hab
    · exact hab
  · rw [show (s.adjustClient c f).clients.length = s.clients.length from List.length_map ..]
    exact h.newcomers

theorem adjustHolder (job : Job) {f : Client → Client}
    (hf : ∀ a b, Client.Like ρ a b → Client.Like ρ (f a) (f b)) :
    Mirrors ρ (s.adjustHolder job f) (t.adjustHolder job f) := by
  unfold Engine.adjustHolder
  split
  · exact h.adjustClient _ fun a b _ => hf a b
  · exact h

theorem withdraw (job : Job) : Mirrors ρ (s.withdraw job) (t.withdraw job) :=
  (h.adjustTube job.tube fun tube => tube.rename_withdraw job).adjustHolder job
    fun _ _ ⟨worker, begun, hnext⟩ => ⟨worker, begun, hnext⟩

theorem enlist (job : Job) : Mirrors ρ (s.enlist job) (t.enlist job) :=
  (h.adjustTube job.tube fun tube => tube.rename_enlist job).adjustHolder job
    fun _ _ ⟨worker, begun, hnext⟩ => ⟨worker, begun, hnext⟩

theorem move (id : JobId) (f : Job → Job) : Mirrors ρ (s.move id f) (t.move id f) := by
  unfold Engine.move
  rw [h.job?]
  split
  · next job _ => exact ((h.withdraw job).adjustJob id fun _ => f job).enlist (f job)
  · exact h

theorem finish (q : Request) : Mirrors ρ (s.finish q) (t.finish (q.rename ρ)) :=
  h.adjustClient q.client fun _ _ hid hab => hid ▸ hab.finish q.task

theorem deliver (r : RequestId) (outcome : Outcome) (time : Instant) :
    Mirrors ρ (s.deliver r outcome time) (t.deliver (ρ.request r) outcome time) := by
  refine { h with answers := fun p => ?_ }
  have hanswers := h.answers p
  simp only [answerTo?, Engine.deliver, List.find?_append, Option.map_or] at hanswers ⊢
  have hkey : (ρ.request r = ρ.request p) = (r = p) :=
    propext ρ.request_mono.injective.eq_iff
  rw [hanswers]
  simp only [List.find?_singleton, hkey]
  split <;> rfl

theorem watchDeadlines (c : ClientId) : Mirrors ρ (s.watchDeadlines c) (t.watchDeadlines c) := by
  unfold Engine.watchDeadlines
  rw [h.expiring]
  split
  · exact h
  · exact { h with expiring := rfl }

theorem grant (q : Request) (id : JobId) : Mirrors ρ (s.grant q id) (t.grant (q.rename ρ) id) := by
  have hdone := h.finish q
  have hcon := hdone.isConnected q.client
  unfold Engine.grant
  dsimp only
  rw [show (t.finish (q.rename ρ)).isConnected (q.rename ρ).client = _ from hcon, hdone.now]
  split
  · exact ((hdone.move id _).watchDeadlines q.client).deliver q.id _ _
  · exact hdone

theorem serve (r : RequestId) (id : JobId) :
    Mirrors ρ (s.serve r id) (t.serve (ρ.request r) id) := by
  unfold Engine.serve
  rw [h.request?]
  cases s.request? r with
  | none => exact h
  | some q =>
    simp only [Option.map_some, h.isOpen]
    split
    · exact h.grant q id
    · exact h

omit h in
theorem offer (name : TubeName) : ∀ (queue : List RequestId) {s t : Engine}, Mirrors ρ s t →
    (Engine.offer name (queue.map ρ.request) t).1 = (Engine.offer name queue s).1.map ρ.request ∧
      Mirrors ρ (Engine.offer name queue s).2 (Engine.offer name (queue.map ρ.request) t).2
  | [], _, _, h => ⟨rfl, h⟩
  | r :: rest, s, t, h => by
    rw [List.map_cons, Engine.offer, Engine.offer, h.next?]
    cases s.next? name with
    | none => exact ⟨rfl, h⟩
    | some id => exact offer name rest (h.serve r id)

theorem drain (name : TubeName) : Mirrors ρ (s.drain name) (t.drain name) := by
  unfold Engine.drain
  rw [h.tube?]
  cases s.tube? name with
  | none => exact h
  | some tube =>
    obtain ⟨hrest, hserved⟩ := offer name tube.waiters h
    have hqueue : (tube.rename ρ).waiters = tube.waiters.map ρ.request := rfl
    simp only [Option.map_some, hqueue, hrest]
    exact hserved.adjustTube name fun _ => rfl

theorem enqueueWaiter (r : RequestId) (name : TubeName) :
    Mirrors ρ (s.enqueueWaiter r name) (t.enqueueWaiter (ρ.request r) name) := by
  refine h.adjustTube name fun tube => ?_
  have hqueue : (tube.waiters.map ρ.request).filter t.isPending =
      (tube.waiters.filter s.isPending).map ρ.request := by
    rw [List.filter_map]
    exact congrArg (List.map _) (List.filter_congr fun r _ => h.isPending r)
  simp only [Tube.rename, hqueue, List.map_append, List.map_singleton]

/-! ## Requests that are made -/

theorem openRequest (q : Request) :
    Mirrors ρ (s.openRequest q) (t.openRequest (q.rename ρ)) := by
  have hstarted := h.adjustClient q.client
    (f := fun client => { client with tasks := client.tasks.start.2 })
    (g := fun client => { client with tasks := client.tasks.start.2 }) fun _ _ _ hab => hab.start.2
  refine { hstarted with requests := h.requests.append q, next := fun k => ?_ }
  simp only [Engine.openRequest, List.length_append, List.length_singleton]
  rw [Nat.add_right_comm s.requests.length, Nat.add_right_comm t.requests.length]
  exact h.next (k + 1)

theorem enqueueWaiters (r : RequestId) (names : List TubeName) :
    Mirrors ρ (names.foldl (fun s name => s.enqueueWaiter r name) s)
      (names.foldl (fun t name => t.enqueueWaiter (ρ.request r) name) t) := by
  induction names generalizing s t with
  | nil => exact h
  | cons name rest ih => exact ih (h.enqueueWaiter r name)

theorem take? (q : Request) (name : TubeName) :
    Option.Rel (Mirrors ρ) (s.take? q name) (t.take? (q.rename ρ) name) := by
  unfold Engine.take?
  rw [h.next?]
  cases s.next? name with
  | none => exact .none
  | some id =>
    have hgranted := h.grant q id
    rw [Option.map_some, Option.map_some,
      show t.isConnected (q.rename ρ).client = _ from h.isConnected q.client]
    refine .some ?_
    split
    · exact hgranted
    · exact hgranted.drain name

omit h in
theorem findSome?_rel {α β : Type} {R : β → β → Prop} {f g : α → Option β}
    (hfg : ∀ a, Option.Rel R (f a) (g a)) :
    ∀ list : List α, Option.Rel R (list.findSome? f) (list.findSome? g)
  | [] => .none
  | a :: rest => by
    have ha := hfg a
    rw [List.findSome?_cons, List.findSome?_cons]
    cases hf : f a <;> cases hg : g a <;> rw [hf, hg] at ha
    · exact findSome?_rel hfg rest
    · cases ha
    · cases ha
    · exact ha

theorem reserve (c : ClientId) (timeout : Option Millis) :
    Mirrors ρ (s.reserve c timeout) (t.reserve c timeout) := by
  unfold Engine.reserve
  rcases h.client? c with ⟨hs, ht⟩ | ⟨a, b, hs, ht, hab⟩
  · rw [hs, ht]
    exact h
  · simp only [hs, ht, h.nextRequest, h.now, hab.request]
    set q := a.request s.nextRequest s.now timeout
    have hopened := h.openRequest q
    have htook := findSome?_rel (hopened.take? q) q.tubes
    rw [show (q.rename ρ).tubes = q.tubes from rfl]
    generalize q.tubes.findSome? ((s.openRequest q).take? q) = x at htook ⊢
    generalize q.tubes.findSome? ((t.openRequest (q.rename ρ)).take? (q.rename ρ)) = y at htook ⊢
    cases htook with
    | some htook => exact htook
    | none =>
      dsimp only
      split
      · rw [hopened.now]
        exact (hopened.finish q).deliver q.id .notFound _
      · exact hopened.enqueueWaiters q.id q.tubes

end Mirrors

end Engine

end WorkQueue
