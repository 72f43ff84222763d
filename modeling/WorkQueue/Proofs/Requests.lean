import WorkQueue.Engine.Clients
import WorkQueue.Engine.Reserve
import WorkQueue.Proofs.Move

/-!
# Requests and their answers

A request is open while its task is, and the answer closes the task. `Engine.Tracked` is what that
comes to : every answer is to a request, no request has two, and an open one has none. It is kept by
every change after which no more is open (`Tracked.of_fewer`), by an answer to a request that is not
open any more (`Tracked.deliver`) and by a new request (`Tracked.openRequest`). `Engine.Attended` is
the other half : a request without an answer is open, as long as its client is connected.
-/

namespace WorkQueue

/-! ## Tasks -/

namespace Tasks

theorem isOpen_finish (tasks : Tasks) (k l : TaskId) :
    (tasks.finish k).2.isOpen l = (tasks.isOpen l && decide (l ≠ k)) := by
  by_cases h : l = k <;> simp [finish, isOpen, h]

theorem isOpen_start (tasks : Tasks) (l : TaskId) :
    tasks.start.2.isOpen l = (tasks.isOpen l || decide (l = tasks.begun + 1)) := by
  simp [start, isOpen]

end Tasks

/-- The answers that a request may get : a job, and without one only those that its timeout allows.
-/
def Request.Admits (q : Request) : Outcome → Prop
  | .reserved _ => True
  | .notFound => q.timeout = some 0
  | .deadlineSoon | .timedOut => ∃ span, q.timeout = some span ∧ 0 < span

namespace Engine

variable {s t u : Engine}

/-- The requests that have an answer, in the order of the answers. -/
def answered (s : Engine) : List RequestId :=
  s.deliveries.map (·.request)

/-! ## Fewer open tasks -/

theorem client?_adjustClient (s : Engine) (c : ClientId) {f : Client → Client}
    (hf : ∀ client, (f client).id = client.id) (d : ClientId) :
    (s.adjustClient c f).client? d =
      (s.client? d).map fun client => if client.id = c then f client else client := by
  refine Table.lookup_map s.clients _ (fun client => ?_) d
  dsimp only [Keyed.key]
  split
  · exact hf client
  · rfl

/-- The requests and the clients are the same, with the same or fewer tasks open. -/
structure Fewer (s t : Engine) : Prop where
  requests : t.requests = s.requests
  known : ∀ c, (t.client? c).isSome = (s.client? c).isSome
  clients : ∀ c client client', s.client? c = some client → t.client? c = some client' →
    client'.closed = client.closed ∧ client'.tasks.begun = client.tasks.begun ∧
      client'.tasks.pending ⊆ client.tasks.pending

namespace Fewer

theorem of_sameDesk (h : SameDesk s t) : Fewer s t := by
  refine ⟨h.requests, fun c => ?_, fun c client client' hs ht => ?_⟩
  · have hc := congrArg Option.isSome (h.clients c)
    simpa using hc
  · have hc := h.clients c
    rw [hs, ht] at hc
    simp only [Option.map_some, Option.some.injEq, Prod.mk.injEq] at hc
    rw [hc.1, hc.2]
    exact ⟨rfl, rfl, List.Subset.refl _⟩

theorem refl (s : Engine) : Fewer s s :=
  of_sameDesk (.refl s)

/-- The record of a client before. -/
theorem client? (h : Fewer s t) {c : ClientId} {client' : Client}
    (ht : t.client? c = some client') : ∃ client, s.client? c = some client ∧
      client'.closed = client.closed ∧ client'.tasks.begun = client.tasks.begun ∧
        client'.tasks.pending ⊆ client.tasks.pending := by
  have hk := h.known c
  rw [ht, Option.isSome_some, eq_comm, Option.isSome_iff_exists] at hk
  obtain ⟨client, hs⟩ := hk
  exact ⟨client, hs, h.clients c client client' hs ht⟩

theorem trans (h₁ : Fewer s t) (h₂ : Fewer t u) : Fewer s u := by
  refine ⟨h₂.requests.trans h₁.requests, fun c => (h₂.known c).trans (h₁.known c),
    fun c client client' hs hu => ?_⟩
  obtain ⟨mid, ht, hc₂, hb₂, hp₂⟩ := h₂.client? hu
  obtain ⟨hc₁, hb₁, hp₁⟩ := h₁.clients c client mid hs ht
  exact ⟨hc₂.trans hc₁, hb₂.trans hb₁, List.Subset.trans hp₂ hp₁⟩

theorem isOpen (h : Fewer s t) {q : Request} (ho : t.isOpen q = true) : s.isOpen q = true := by
  rw [Engine.isOpen, Option.any_eq_true] at ho ⊢
  obtain ⟨client', ht, hopen⟩ := ho
  obtain ⟨client, hs, -, -, hsub⟩ := h.client? ht
  refine ⟨client, hs, ?_⟩
  simp only [Tasks.isOpen, List.contains_eq_mem, decide_eq_true_eq] at hopen ⊢
  exact hsub hopen

theorem isConnected (h : Fewer s t) (c : ClientId) : t.isConnected c = s.isConnected c := by
  have hk := h.known c
  simp only [Engine.isConnected]
  cases ht : t.client? c with
  | none =>
    rw [ht, eq_comm, Option.isSome_none, Option.isSome_eq_false_iff, Option.isNone_iff_eq_none]
      at hk
    rw [hk]
  | some client' =>
    obtain ⟨client, hs, hclosed, -⟩ := h.client? ht
    simp [hs, hclosed]

/-- Changes of tasks that close some. -/
theorem adjustClient (s : Engine) (c : ClientId) {f : Client → Client}
    (hf : ∀ client, (f client).id = client.id ∧ (f client).closed = client.closed ∧
      (f client).tasks.begun = client.tasks.begun ∧
      (f client).tasks.pending ⊆ client.tasks.pending) : Fewer s (s.adjustClient c f) := by
  have hself := client?_adjustClient s c fun client => (hf client).1
  refine ⟨rfl, fun d => by rw [hself, Option.isSome_map], fun d client client' hs ht => ?_⟩
  rw [hself, hs, Option.map_some, Option.some.injEq] at ht
  subst ht
  split
  · exact (hf client).2
  · exact ⟨rfl, rfl, List.Subset.refl _⟩

end Fewer

theorem fewer_finish (s : Engine) (q : Request) : Fewer s (s.finish q) :=
  Fewer.adjustClient s q.client fun _ => ⟨rfl, rfl, rfl, List.filter_subset_self _⟩

theorem fewer_answer (s : Engine) (q : Request) (outcome : Outcome) (time : Instant) :
    Fewer s ((s.finish q).deliver q.id outcome time) :=
  (fewer_finish s q).trans (.of_sameDesk (.of_eq rfl rfl))

theorem fewer_finishAll (s : Engine) (c : ClientId) : Fewer s (s.finishAll c) :=
  Fewer.adjustClient s c fun _ => ⟨rfl, rfl, rfl, List.nil_subset _⟩

/-! ## Clients that come and go -/

/-- All clients are still known, and connected or closed as they were. -/
def SameClients (s t : Engine) : Prop :=
  ∀ c, (s.client? c).isSome = true → (t.client? c).isSome = true ∧ t.isConnected c = s.isConnected c

theorem SameClients.trans (h₁ : SameClients s t) (h₂ : SameClients t u) : SameClients s u :=
  fun c hc =>
    have ht := h₁ c hc
    have hu := h₂ c ht.1
    ⟨hu.1, hu.2.trans ht.2⟩

theorem Fewer.sameClients (h : Fewer s t) : SameClients s t :=
  fun c hc => ⟨(h.known c).trans hc, h.isConnected c⟩

theorem SameDesk.sameClients (h : SameDesk s t) : SameClients s t :=
  (Fewer.of_sameDesk h).sameClients

theorem isSome_of_isConnected {c : ClientId} (h : s.isConnected c = true) :
    (s.client? c).isSome = true := by
  rw [isConnected, Option.any_eq_true] at h
  obtain ⟨client, hc, -⟩ := h
  exact Option.isSome_of_eq_some hc

/-! ## Closing tasks -/

/-- Finishing a request closes its task and no other. -/
theorem isOpen_finish (s : Engine) (q p : Request) :
    (s.finish q).isOpen p =
      (s.isOpen p && decide (¬(p.client = q.client ∧ p.task = q.task))) := by
  by_cases hc : p.client = q.client
  · have hl := Table.lookup_adjust_self s.clients q.client
      (fun client => { client with tasks := (client.tasks.finish q.task).2 }) fun _ => rfl
    simp only [isOpen, client?, finish, adjustClient, hc, hl, Option.any_map, true_and]
    cases s.clients.lookup q.client with
    | none => rfl
    | some client => exact Tasks.isOpen_finish client.tasks q.task p.task
  · have hl := Table.lookup_adjust_ne s.clients hc
      (fun client => { client with tasks := (client.tasks.finish q.task).2 }) fun _ => rfl
    simp only [isOpen, client?, finish, adjustClient, hl, hc, false_and, not_false_eq_true,
      decide_true, Bool.and_true]

theorem not_isOpen_finish_self (s : Engine) (q : Request) : (s.finish q).isOpen q = false := by
  simp [isOpen_finish]

/-- A client that gives up its requests has none open. -/
theorem isOpen_finishAll (s : Engine) (c : ClientId) (p : Request) :
    (s.finishAll c).isOpen p = (s.isOpen p && decide (p.client ≠ c)) := by
  by_cases hc : p.client = c
  · have hl := Table.lookup_adjust_self s.clients c
      (fun client => { client with tasks := client.tasks.finishAll }) fun _ => rfl
    rw [isOpen, hc, client?, finishAll, adjustClient, hl, Option.any_map]
    cases s.clients.lookup c <;> simp [Tasks.finishAll, Tasks.isOpen]
  · have hl := Table.lookup_adjust_ne s.clients hc
      (fun client => { client with tasks := client.tasks.finishAll }) fun _ => rfl
    simp only [isOpen, client?, finishAll, adjustClient, hl, ne_eq, hc, not_false_eq_true,
      decide_true, Bool.and_true]

/-- What is open then is of other clients. -/
theorem ne_of_isOpen_finishAll {c : ClientId} {p : Request}
    (h : (s.finishAll c).isOpen p = true) : some p.client ≠ some c := by
  rw [isOpen_finishAll, Bool.and_eq_true, decide_eq_true_eq] at h
  exact fun he => h.2 (Option.some.inj he)

/-! ## A new client -/

theorem client?_openClient_of_ne (s : Engine) {c : ClientId} (hc : c ≠ s.nextClient) :
    s.openClient.client? c = s.client? c :=
  Table.lookup_append_of_ne s.clients (a := { id := s.nextClient }) hc.symm

theorem client?_openClient_self (hn : s.clients.Numbered) :
    s.openClient.client? s.nextClient = some { id := s.nextClient } :=
  Table.lookup_append_self s.clients (a := { id := s.nextClient }) hn.next_not_mem

theorem ne_nextClient (hn : s.clients.Numbered) {c : ClientId} {client : Client}
    (hs : s.client? c = some client) : c ≠ s.nextClient := by
  rintro rfl
  exact hn.next_not_mem (Table.lookup_isSome_iff.1 (Option.isSome_of_eq_some hs))

theorem sameClients_openClient (hn : s.clients.Numbered) : SameClients s s.openClient := by
  intro c hc
  obtain ⟨client, hs⟩ := Option.isSome_iff_exists.1 hc
  have hclient := client?_openClient_of_ne s (ne_nextClient hn hs)
  rw [isConnected, isConnected, hclient]
  exact ⟨hc, rfl⟩

/-! ## A new request -/

/-- A timer gives an answer without a job that the timeout of its request allows. -/
theorem admits_timer_request {client : Client} {id : RequestId} {now : Instant}
    {timeout : Option Millis} {timer : Timer}
    (h : (client.request id now timeout).timer = some timer) :
    (client.request id now timeout).Admits timer.outcome ∧
      ∀ job, timer.outcome ≠ .reserved job := by
  simp only [Client.request] at h
  split at h
  · cases h
  obtain ⟨span, rfl, htimer⟩ := Option.bind_eq_some_iff.1 h
  unfold timerFor at htimer
  dsimp only at htimer
  split at htimer
  · next wait hsoon =>
    obtain ⟨hwait, hle⟩ := Option.filter_eq_some_iff.1 hsoon
    obtain ⟨deadline, -, rfl⟩ := Option.map_eq_some_iff.1 hwait
    have hpos : minDeadlineWait ≤ deadlineWait now deadline := Nat.le_max_left _ _
    obtain rfl := Option.some.inj htimer
    have hspan : 0 < span :=
      Nat.lt_of_lt_of_le Nat.zero_lt_one (Nat.le_trans hpos (by simpa using hle))
    exact ⟨⟨span, rfl, hspan⟩, nofun⟩
  · split at htimer
    · cases htimer
    · next hne =>
      obtain rfl := Option.some.inj htimer
      exact ⟨⟨span, rfl, Nat.pos_of_ne_zero hne⟩, nofun⟩

section Opened

variable {client : Client} {timeout : Option Millis}

theorem client?_openRequest (s : Engine) (q : Request) (c : ClientId) :
    (s.openRequest q).client? c = (s.client? c).map fun client =>
      if client.id = q.client then { client with tasks := client.tasks.start.2 } else client := by
  refine Table.lookup_map s.clients _ (fun client => ?_) c
  dsimp only [Keyed.key]
  split <;> rfl

theorem isConnected_openRequest (s : Engine) (q : Request) (c : ClientId) :
    (s.openRequest q).isConnected c = s.isConnected c := by
  rw [isConnected, isConnected, client?_openRequest, Option.any_map]
  congr 1
  funext client
  split <;> rfl

/-- A new request is open. -/
theorem isOpen_openRequest_self (hc : s.client? client.id = some client) (id : RequestId) :
    (s.openRequest (client.request id s.now timeout)).isOpen (client.request id s.now timeout) =
      true := by
  rw [isOpen, client?_openRequest]
  simp [Client.request, hc, Tasks.start, Tasks.isOpen]

/-- Another request stays as it is, since its task is an older one. -/
theorem isOpen_openRequest_of_task (hc : s.client? client.id = some client) (id : RequestId)
    {p : Request} (hp : p.client = client.id → p.task ≤ client.tasks.begun) :
    (s.openRequest (client.request id s.now timeout)).isOpen p = s.isOpen p := by
  rw [isOpen, isOpen, client?_openRequest]
  by_cases hpc : p.client = client.id
  · have hne : p.task ≠ client.tasks.begun + 1 := by
      have := hp hpc
      lia
    simp [Client.request, hpc, hc, Tasks.isOpen_start, hne]
  · cases hs : s.client? p.client with
    | none => rfl
    | some other =>
      have hid : other.id = p.client := Table.key_of_lookup hs
      simp [Client.request, hid, hpc]

end Opened

/-! ## Tracked requests -/

/-- Every request has a task of its own. A client that is closed has none open, an open request has
no answer, and no request has two. -/
structure Tracked (s : Engine) : Prop where
  numbered : s.requests.Numbered
  asked : ∀ q ∈ s.requests, ∃ client, s.client? q.client = some client ∧
    q.task ≤ client.tasks.begun
  distinct : ∀ q ∈ s.requests, ∀ p ∈ s.requests, q.client = p.client → q.task = p.task → q = p
  closed : ∀ c client, s.client? c = some client → client.closed = true →
    client.tasks.pending = []
  known : ∀ r ∈ s.answered, r ∈ s.requests.keys
  once : s.answered.Nodup
  unanswered : ∀ q ∈ s.requests, s.isOpen q = true → q.id ∉ s.answered
  admitted : ∀ d ∈ s.deliveries, ∀ q ∈ s.requests, q.id = d.request → q.Admits d.outcome
  timers : ∀ q ∈ s.requests, ∀ timer, q.timer = some timer →
    q.Admits timer.outcome ∧ ∀ job, timer.outcome ≠ .reserved job

theorem request?_eq_some_iff (h : s.requests.Numbered) {r : RequestId} {q : Request} :
    s.request? r = some q ↔ q ∈ s.requests ∧ q.id = r :=
  Table.lookup_eq_some_iff h.nodup

namespace Tracked

theorem request_ext (h : s.Tracked) {q p : Request} (hq : q ∈ s.requests) (hp : p ∈ s.requests)
    (hid : q.id = p.id) : q = p :=
  Table.eq_of_key_eq h.numbered.nodup hq hp hid

theorem isPending_id (h : s.Tracked) {q : Request} (hq : q ∈ s.requests) :
    s.isPending q.id = s.isOpen q := by
  simp [isPending, (request?_eq_some_iff h.numbered).2 ⟨hq, rfl⟩]

/-- Only a connected client has an open request. -/
theorem isConnected_of_isOpen (h : s.Tracked) {q : Request} (ho : s.isOpen q = true) :
    s.isConnected q.client = true := by
  rw [isOpen, Option.any_eq_true] at ho
  obtain ⟨client, hs, hopen⟩ := ho
  rw [isConnected, hs, Option.any_some, Bool.not_eq_true']
  by_contra hclosed
  have hnil := h.closed _ client hs (by simpa using hclosed)
  simp [Tasks.isOpen, hnil] at hopen

theorem of_fewer (h : s.Tracked) (hf : Fewer s t) (hd : t.deliveries = s.deliveries) :
    t.Tracked := by
  have ha : t.answered = s.answered := congrArg (List.map _) hd
  have hr := hf.requests
  refine
    { numbered := hr ▸ h.numbered, asked := ?_, distinct := hr ▸ h.distinct, closed := ?_
      known := by rw [ha, hr]; exact h.known
      once := ha ▸ h.once, unanswered := ?_
      admitted := by rw [hd, hr]; exact h.admitted
      timers := hr ▸ h.timers }
  · intro q hq
    obtain ⟨client, hs, hle⟩ := h.asked q (hr ▸ hq)
    have hk := hf.known q.client
    rw [hs, Option.isSome_some, Option.isSome_iff_exists] at hk
    obtain ⟨client', ht⟩ := hk
    exact ⟨client', ht, (hf.clients _ _ _ hs ht).2.1 ▸ hle⟩
  · intro c client' ht hclosed
    obtain ⟨client, hs, hc, -, hsub⟩ := hf.client? ht
    exact List.subset_nil.1 (h.closed c client hs (hc ▸ hclosed) ▸ hsub)
  · intro q hq ho
    rw [ha]
    exact h.unanswered q (hr ▸ hq) (hf.isOpen ho)

/-- An answer to a request that is closed and has none yet. -/
theorem deliver (h : s.Tracked) {q : Request} (hq : q ∈ s.requests) (ho : s.isOpen q = false)
    (hun : q.id ∉ s.answered) {outcome : Outcome} (hadm : q.Admits outcome) (time : Instant) :
    (s.deliver q.id outcome time).Tracked := by
  have ha : (s.deliver q.id outcome time).answered = s.answered ++ [q.id] := by
    simp [answered, Engine.deliver]
  refine
    { numbered := h.numbered, asked := h.asked, distinct := h.distinct, closed := h.closed
      known := ?_, once := ?_, unanswered := ?_, admitted := ?_, timers := h.timers }
  · intro r hr
    rw [ha] at hr
    rcases List.mem_append.1 hr with hr | hr
    · exact h.known r hr
    · rw [List.mem_singleton.1 hr]
      exact List.mem_map_of_mem hq
  · rw [ha]
    exact List.nodup_append_comm.mp (by simp [hun, h.once])
  · intro p hp hop
    rw [ha, List.mem_append, List.mem_singleton, not_or]
    refine ⟨h.unanswered p hp hop, fun hid => ?_⟩
    have hop : s.isOpen p = true := hop
    rw [h.request_ext hp hq hid, ho] at hop
    cases hop
  · intro d hd p hp hid
    rcases List.mem_append.1 hd with hd | hd
    · exact h.admitted d hd p hp hid
    · rw [List.mem_singleton.1 hd] at hid ⊢
      rw [h.request_ext hp hq hid]
      exact hadm

section Opening

variable (h : s.Tracked) {client : Client} (hc : s.client? client.id = some client)

include h hc

/-- The tasks of older requests are among those that the client has begun. -/
theorem task_le {p : Request} (hp : p ∈ s.requests) (hpc : p.client = client.id) :
    p.task ≤ client.tasks.begun := by
  obtain ⟨other, hs, hle⟩ := h.asked p hp
  rw [hpc, hc] at hs
  cases hs
  exact hle

theorem closed_openRequest (hopen : client.closed = false) (timeout : Option Millis) {c : ClientId}
    {client' : Client}
    (ht : (s.openRequest (client.request s.nextRequest s.now timeout)).client? c = some client')
    (hclosed : client'.closed = true) : client'.tasks.pending = [] := by
  rw [client?_openRequest, Option.map_eq_some_iff] at ht
  obtain ⟨other, hs, rfl⟩ := ht
  split at hclosed
  · next hid =>
    have hid : other.id = client.id := hid
    have hkey : other.id = c := Table.key_of_lookup hs
    rw [← hkey, hid, hc] at hs
    cases hs
    rw [show client.closed = true from hclosed] at hopen
    cases hopen
  · next hid =>
    rw [if_neg hid]
    exact h.closed c other hs hclosed

/-- A new request has a new task and no answer. -/
theorem openRequest (hopen : client.closed = false) (timeout : Option Millis) :
    (s.openRequest (client.request s.nextRequest s.now timeout)).Tracked := by
  set q := client.request s.nextRequest s.now timeout with hq
  have hmem {p : Request} : p ∈ (s.openRequest q).requests ↔ p ∈ s.requests ∨ p = q := by
    simp [Engine.openRequest]
  have hnew : q.id ∉ s.requests.keys := h.numbered.next_not_mem
  have hlate {p : Request} (hp : p ∈ s.requests) (hpc : p.client = q.client) :
      p.task ≠ q.task := by
    have hle := h.task_le hc hp hpc
    have htask : q.task = client.tasks.begun + 1 := rfl
    lia
  refine
    { numbered := h.numbered.append rfl, asked := ?_, distinct := ?_
      closed := fun _ _ ht hclosed => h.closed_openRequest hc hopen timeout ht hclosed
      known := ?_, once := h.once, unanswered := ?_, admitted := ?_, timers := ?_ }
  · intro p hp
    rw [client?_openRequest]
    rcases hmem.1 hp with hp | rfl
    · obtain ⟨other, hs, hle⟩ := h.asked p hp
      rw [hs]
      refine ⟨_, rfl, ?_⟩
      dsimp only
      split
      · exact Nat.le_succ_of_le hle
      · exact hle
    · refine ⟨{ client with tasks := client.tasks.start.2 }, ?_, Nat.le_refl _⟩
      simp [hq, Client.request, hc]
  · intro p hp p' hp' hcl htask
    rcases hmem.1 hp with hp | rfl <;> rcases hmem.1 hp' with hp' | rfl
    · exact h.distinct p hp p' hp' hcl htask
    · exact absurd htask (hlate hp hcl)
    · exact absurd htask.symm (hlate hp' hcl.symm)
    · rfl
  · intro r hr
    have hk := h.known r hr
    simp only [Table.keys, Engine.openRequest, List.map_append, List.mem_append]
    exact Or.inl hk
  · intro p hp ho
    rcases hmem.1 hp with hp | rfl
    · rw [isOpen_openRequest_of_task hc _ (h.task_le hc hp)] at ho
      exact h.unanswered p hp ho
    · exact fun ha => hnew (h.known _ ha)
  · intro d hd p hp hid
    rcases hmem.1 hp with hp | rfl
    · exact h.admitted d hd p hp hid
    · exact absurd (hid ▸ h.known _ (List.mem_map_of_mem hd)) hnew
  · intro p hp timer htimer
    rcases hmem.1 hp with hp | rfl
    · exact h.timers p hp timer htimer
    · exact admits_timer_request htimer

end Opening

/-- A new client has asked for nothing. -/
theorem openClient (h : s.Tracked) (hn : s.clients.Numbered) : s.openClient.Tracked := by
  have hclient {q : Request} (hq : q ∈ s.requests) :
      s.openClient.client? q.client = s.client? q.client := by
    obtain ⟨client, hs, -⟩ := h.asked q hq
    exact client?_openClient_of_ne s (ne_nextClient hn hs)
  refine { h with asked := ?_, closed := ?_, unanswered := ?_ }
  · intro q hq
    rw [hclient hq]
    exact h.asked q hq
  · intro c client ht hclosed
    by_cases hc : c = s.nextClient
    · rw [hc, client?_openClient_self hn] at ht
      cases ht
      rfl
    · rw [client?_openClient_of_ne s hc] at ht
      exact h.closed c client ht hclosed
  · intro q hq ho
    rw [isOpen, hclient hq] at ho
    exact h.unanswered q hq ho

end Tracked

/-! ## Attended requests -/

/-- A request of a connected client is open until it has its answer. While a client is `leaving`,
its own requests may have been given up before it is closed. -/
def Attended (leaving : Option ClientId) (s : Engine) : Prop :=
  ∀ q ∈ s.requests, some q.client ≠ leaving → s.isConnected q.client = true →
    q.id ∉ s.answered → s.isOpen q = true

namespace Attended

variable {leaving : Option ClientId}

theorem of_sameDesk (h : Attended leaving s) (hd : SameDesk s t)
    (hdel : t.deliveries = s.deliveries) : Attended leaving t := by
  intro q hq hne hcon hun
  rw [hd.isConnected] at hcon
  rw [hd.isOpen]
  exact h q (hd.requests ▸ hq) hne hcon (by rwa [answered, hdel] at hun)

/-- An answer ends the wait of its own request only. -/
theorem answer (h : Attended leaving s) (ht : s.Tracked) {q : Request} (hq : q ∈ s.requests)
    (hd : SameDesk (s.finish q) t) (hdel : t.deliveries = s.deliveries) (outcome : Outcome)
    (time : Instant) : Attended leaving (t.deliver q.id outcome time) := by
  intro p hp hne hcon hun
  have hp : p ∈ s.requests := hd.requests ▸ hp
  have hun : p.id ∉ s.answered ++ [q.id] := by
    simpa [answered, deliver, hdel] using hun
  rw [List.mem_append, List.mem_singleton, not_or] at hun
  have hcon : t.isConnected p.client = true := hcon
  rw [hd.isConnected, (fewer_finish s q).isConnected] at hcon
  show t.isOpen p = true
  rw [hd.isOpen, isOpen_finish, Bool.and_eq_true, decide_eq_true_eq]
  refine ⟨h p hp hne hcon hun.1, fun hsame => hun.2 ?_⟩
  rw [ht.distinct p hp q hq hsame.1 hsame.2]

theorem openRequest (h : Attended leaving s) (ht : s.Tracked) {client : Client}
    (hc : s.client? client.id = some client) (timeout : Option Millis) :
    Attended leaving (s.openRequest (client.request s.nextRequest s.now timeout)) := by
  intro p hp hne hcon hun
  rw [isConnected_openRequest] at hcon
  rcases List.mem_append.1 hp with hp | hp
  · rw [isOpen_openRequest_of_task hc _ (ht.task_le hc hp)]
    exact h p hp hne hcon hun
  · rw [List.mem_singleton.1 hp]
    exact isOpen_openRequest_self hc _

theorem openClient (h : Attended leaving s) (ht : s.Tracked) (hn : s.clients.Numbered) :
    Attended leaving s.openClient := by
  intro q hq hne hcon hun
  obtain ⟨client, hs, -⟩ := ht.asked q hq
  have hclient := client?_openClient_of_ne s (ne_nextClient hn hs)
  rw [isConnected, hclient] at hcon
  rw [isOpen, hclient]
  exact h q hq hne hcon hun

/-- A client that leaves may give up its requests. -/
theorem finishAll (h : Attended none s) (c : ClientId) : Attended (some c) (s.finishAll c) := by
  intro q hq hne hcon hun
  rw [(fewer_finishAll s c).isConnected] at hcon
  rw [isOpen_finishAll, Bool.and_eq_true, decide_eq_true_eq]
  exact ⟨h q hq (by simp) hcon hun, fun hc => hne (congrArg some hc)⟩

end Attended

end Engine

end WorkQueue
