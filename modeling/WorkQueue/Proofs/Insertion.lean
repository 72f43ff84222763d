import WorkQueue.Proofs.Alike
import WorkQueue.Proofs.Fruitless

/-!
# Commands that make no difference

Commands that come to nothing may be added to a run anywhere, and all others are answered as they
were (`Broker.Reachable.fruitless_commands`). A broker with some of them mirrors one without. When a
request is refused at once, the numbers of the requests and of its client's tasks from then on are
one higher (`Renaming.skip`), and the request is one more that is answered and waits nowhere
(`Engine.Mirrors.of_refuses`).
-/

namespace WorkQueue

variable {ρ σ : Renaming}

/-! ## Numbers that are passed over -/

/-- The numbers after `n` are one higher. -/
def passOver (f : Nat → Nat) (n k : Nat) : Nat :=
  if k ≤ n then f k else f k + 1

theorem passOver_of_le {f : Nat → Nat} {n k : Nat} (h : k ≤ n) : passOver f n k = f k :=
  if_pos h

theorem passOver_of_lt {f : Nat → Nat} {n k : Nat} (h : n < k) : passOver f n k = f k + 1 :=
  if_neg (Nat.not_le_of_lt h)

theorem strictMono_passOver {f : Nat → Nat} (hf : StrictMono f) (n : Nat) :
    StrictMono (passOver f n) := by
  intro a b hab
  have hlt := hf hab
  unfold passOver
  split <;> split <;> omega

namespace Renaming

/-- All numbers as they are. -/
protected def id : Renaming where
  request r := r
  task _ k := k
  request_mono := strictMono_id
  task_mono _ := strictMono_id

/-- One more request after the first `n`, which is one more task of a client after those that it has
begun. -/
def skip (ρ : Renaming) (n : Nat) (client : Client) : Renaming where
  request := passOver ρ.request n
  task c := if c = client.id then passOver (ρ.task c) client.tasks.begun else ρ.task c
  request_mono := strictMono_passOver ρ.request_mono n
  task_mono c := by
    split
    · exact strictMono_passOver (ρ.task_mono c) _
    · exact ρ.task_mono c

section Skip

variable {n : Nat} {client : Client}

theorem request_skip_of_le {r : RequestId} (h : r ≤ n) :
    (ρ.skip n client).request r = ρ.request r :=
  passOver_of_le h

theorem request_skip_of_lt {r : RequestId} (h : n < r) :
    (ρ.skip n client).request r = ρ.request r + 1 :=
  passOver_of_lt h

theorem task_skip_self :
    (ρ.skip n client).task client.id = passOver (ρ.task client.id) client.tasks.begun :=
  if_pos rfl

theorem task_skip_of_ne {c : ClientId} (h : c ≠ client.id) :
    (ρ.skip n client).task c = ρ.task c :=
  if_neg h

end Skip

end Renaming

theorem Client.Like.congr {a b : Client} (h : Client.Like ρ a b)
    (htask : σ.task a.id = ρ.task a.id) : Client.Like σ a b := by
  obtain ⟨worker, begun, hnext⟩ := h
  rw [← htask] at hnext ⊢
  exact .mk worker begun hnext

namespace Among

variable {qs ps : List Request}

/-- The numbers matter only as far as they are in use. -/
theorem congr (h : Among ρ qs ps) (hsame : ∀ q ∈ qs, q.rename σ = q.rename ρ)
    (hold : ∀ p ∈ ps, ∀ r, σ.request r = p.id → ρ.request r = p.id) : Among σ qs ps := by
  induction h with
  | nil => exact .nil
  | same q _ ih =>
    rw [← hsame q List.mem_cons_self]
    exact .same q (ih (fun q hq => hsame q (List.mem_cons_of_mem _ hq)) fun p hp =>
      hold p (List.mem_cons_of_mem _ hp))
  | extra p htimer hid _ ih =>
    exact .extra p htimer (fun r he => hid r (hold p List.mem_cons_self r he))
      (ih hsame fun q hq => hold q (List.mem_cons_of_mem _ hq))

/-- The numbers may stay as they are. -/
theorem refl (qs : List Request) : Among .id qs qs := by
  induction qs with
  | nil => exact .nil
  | cons q rest ih => exact .same q ih

theorem append_extra (h : Among ρ qs ps) (p : Request) (htimer : p.timer = none)
    (hid : ∀ r, ρ.request r ≠ p.id) : Among ρ qs (ps ++ [p]) := by
  induction h with
  | nil => exact .extra p htimer hid .nil
  | same q _ ih => exact .same q ih
  | extra q hq hne _ ih => exact .extra q hq hne ih

end Among

namespace Engine

variable {s t u : Engine} {client : Client}

theorem Tracked.answerTo?_eq_none (h : s.Tracked) {r : RequestId} (hr : s.requests.length < r) :
    s.answerTo? r = none := by
  refine Option.map_eq_none_iff.2 (List.find?_eq_none.2 fun d hd he => ?_)
  have hkey : d.request ∈ s.requests.keys := h.known d.request (List.mem_map_of_mem hd)
  obtain ⟨q, hq, hid⟩ := List.mem_map.1 hkey
  have hle : d.request ≤ s.requests.length := hid ▸ h.numbered.key_le hq
  rw [of_decide_eq_true he] at hle
  exact absurd hle (Nat.not_le_of_lt hr)

/-- What has been asked keeps its numbers. -/
theorem rename_skip (hs : Sound none none s) (hc : s.client? client.id = some client) {q : Request}
    (hq : q ∈ s.requests) : q.rename (ρ.skip s.requests.length client) = q.rename ρ := by
  have hid : (ρ.skip s.requests.length client).request q.id = ρ.request q.id :=
    Renaming.request_skip_of_le (hs.tracked.numbered.key_le hq)
  have htask : (ρ.skip s.requests.length client).task q.client q.task = ρ.task q.client q.task := by
    by_cases hclient : q.client = client.id
    · rw [hclient, Renaming.task_skip_self, passOver_of_le (hs.tracked.task_le hc hq hclient)]
    · rw [Renaming.task_skip_of_ne hclient]
  rw [Request.rename, hid, htask]
  rfl

namespace Mirrors

/-- An engine mirrors itself. -/
theorem refl (s : Engine) : Mirrors .id s s where
  now := rfl
  tubes := by
    refine (List.map_id s.tubes).symm.trans (List.map_congr_left fun tube _ => ?_)
    rw [Tube.rename, show tube.waiters.map Renaming.id.request = _ from List.map_id _]
    rfl
  jobs := rfl
  clients := by
    refine List.forall₂_same.2 fun client _ => ?_
    have hlike : Client.Like .id client { client with
        tasks := { client.tasks with
          pending := client.tasks.pending.map (Renaming.id.task client.id) } } :=
      .mk client.worker client.tasks.begun fun _ => rfl
    rwa [show client.tasks.pending.map (Renaming.id.task client.id) = _ from List.map_id _] at hlike
  requests := .refl s.requests
  answers _ := rfl
  expiring := rfl
  next _ := rfl
  newcomers _ _ _ := rfl

section Refused

variable (h : Mirrors ρ s t)

include h

/-- The older requests have older numbers. -/
theorem request_le {r : RequestId} (hr : r ≤ s.requests.length) :
    ρ.request r ≤ t.requests.length := by
  have hlt := ρ.request_mono (Nat.lt_succ_of_le hr)
  rw [h.next 0] at hlt
  exact Nat.le_of_lt_succ hlt

theorem lt_request {r : RequestId} (hr : s.requests.length < r) :
    t.requests.length < ρ.request r := by
  obtain ⟨k, rfl⟩ := Nat.exists_eq_add_of_lt hr
  rw [h.next k]
  exact Nat.lt_add_of_pos_right (Nat.succ_pos k)

/-- No request has the number that is passed over. -/
theorem skip_ne (client : Client) (r : RequestId) :
    (ρ.skip s.requests.length client).request r ≠ t.nextRequest := by
  rcases Nat.lt_or_ge s.requests.length r with hr | hr
  · rw [Renaming.request_skip_of_lt hr]
    exact Nat.ne_of_gt (Nat.succ_lt_succ (h.lt_request hr))
  · rw [Renaming.request_skip_of_le hr]
    exact Nat.ne_of_lt (Nat.lt_succ_of_le (h.request_le hr))

variable (hu : Refuses t u client.id)

include hu

theorem clients_skip (hs : Sound none none s) (hb : s.Backed)
    (hc : s.client? client.id = some client) :
    List.Forall₂ (Client.Like (ρ.skip s.requests.length client)) s.clients u.clients := by
  rw [hu.clients]
  refine List.forall₂_map_right_iff.2 ?_
  have hmem := ((client?_eq_some_iff hs.listed.clients).1 hc).1
  refine ((List.forall₂_and_left s.clients t.clients).2 ⟨fun _ ha => ha, h.clients⟩).imp ?_
  rintro a b ⟨ha, hab⟩
  have hkey : Keyed.key b = a.id := hab.id_eq
  rw [hkey]
  split
  · next hid =>
    obtain rfl := Table.eq_of_key_eq hs.listed.clients.nodup ha hmem hid
    obtain ⟨worker, begun, hnext⟩ := hab
    have hpending : a.tasks.pending.map (ρ.task a.id) =
        a.tasks.pending.map ((ρ.skip s.requests.length a).task a.id) :=
      List.map_congr_left fun k hk => by
        rw [Renaming.task_skip_self, passOver_of_le (hb.pending_le hs.tracked hc hk)]
    simp only [Client.turnedDown, hpending]
    refine .mk true (begun + 1) fun k => ?_
    rw [Renaming.task_skip_self, passOver_of_lt (by omega), hnext]
    exact congrArg (· + 1) (Nat.add_right_comm begun k 1)
  · next hid => exact hab.congr (Renaming.task_skip_of_ne hid)

variable (ht : t.Tracked)

include ht

theorem answerTo?_skip (hs : s.Tracked) (r : RequestId) :
    u.answerTo? ((ρ.skip s.requests.length client).request r) = s.answerTo? r := by
  obtain ⟨q, hq, -, -, hdeliveries⟩ := hu.recorded
  have hne : ¬q.id = (ρ.skip s.requests.length client).request r := fun he =>
    h.skip_ne client r (he ▸ hq)
  have hold : u.answerTo? ((ρ.skip s.requests.length client).request r) =
      t.answerTo? ((ρ.skip s.requests.length client).request r) := by
    simp [answerTo?, hdeliveries, List.find?_append, hne]
  rw [hold]
  rcases Nat.lt_or_ge s.requests.length r with hr | hr
  · rw [Renaming.request_skip_of_lt hr, hs.answerTo?_eq_none hr,
      ht.answerTo?_eq_none (Nat.lt_succ_of_lt (h.lt_request hr))]
  · rw [Renaming.request_skip_of_le hr]
    exact h.answers r

variable (hs : Sound none none s) (hc : s.client? client.id = some client)

include hs hc

theorem requests_skip : Among (ρ.skip s.requests.length client) s.requests u.requests := by
  obtain ⟨q, hq, htimer, hrequests, -⟩ := hu.recorded
  have hold : Among (ρ.skip s.requests.length client) s.requests t.requests := by
    refine h.requests.congr (fun q hq => rename_skip hs hc hq) fun p hp r he => ?_
    have hle : p.id ≤ t.requests.length := ht.numbered.key_le hp
    rcases Nat.lt_or_ge s.requests.length r with hr | hr
    · rw [Renaming.request_skip_of_lt hr] at he
      have hlt : ρ.request r < p.id := Nat.lt_of_succ_le (Nat.le_of_eq he)
      exact absurd (Nat.lt_trans (h.lt_request hr) hlt) (Nat.not_lt_of_le hle)
    · rwa [Renaming.request_skip_of_le hr] at he
  rw [hrequests]
  exact hold.append_extra q htimer fun r he => h.skip_ne client r (he.trans hq)

/-- A request that is refused at once makes no difference but for the numbers. -/
theorem of_refuses (hb : s.Backed) : Mirrors (ρ.skip s.requests.length client) s u where
  now := hu.now.trans h.now
  tubes := by
    rw [hu.tubes, h.tubes]
    refine List.map_congr_left fun tube ht => ?_
    have hwaiters : tube.waiters.map ρ.request =
        tube.waiters.map (ρ.skip s.requests.length client).request :=
      List.map_congr_left fun r hr => by
        obtain ⟨q, hq, rfl⟩ := List.mem_map.1 (hs.queued.known tube ht r hr)
        rw [Renaming.request_skip_of_le (hs.tracked.numbered.key_le hq)]
    rw [Tube.rename, Tube.rename, hwaiters]
  jobs := hu.jobs.trans h.jobs
  clients := h.clients_skip hu hs hb hc
  requests := h.requests_skip hu ht hs hc
  answers := h.answerTo?_skip hu ht hs.tracked
  expiring := hu.expiring.trans h.expiring
  next k := by
    obtain ⟨q, -, -, hrequests, -⟩ := hu.recorded
    rw [Renaming.request_skip_of_lt (by omega), h.next, hrequests, List.length_append,
      List.length_singleton]
    exact congrArg (· + 1) (Nat.add_right_comm t.requests.length k 1)
  newcomers d hd k := by
    have hmem := ((client?_eq_some_iff hs.listed.clients).1 hc).1
    have hne : d ≠ client.id := fun he =>
      absurd (hs.listed.clients.key_le hmem) (Nat.not_le_of_lt (Nat.lt_of_lt_of_eq hd he))
    rw [Renaming.task_skip_of_ne hne]
    exact h.newcomers d hd k

end Refused

end Mirrors

end Engine

namespace Broker

open Engine

variable {b b' : Broker}

/-- An answer without the counts that `stats` tells of the commands and of the current workers. -/
def withoutCounts (answer : Response × Instant) : Response × Instant :=
  (answer.1.withoutCounts, answer.2)

/-- An event of a run, and whether it has been added to the run. -/
structure Entry where
  event : Event
  added : Bool

/-- The answers to the events of a run that have not been added, in their order. -/
def answers (b : Broker) : List Entry → List (Option (Response × Instant))
  | [] => []
  | entry :: rest =>
    let later := (b.step entry.event).answers rest
    if entry.added then later else b.answerTo? entry.event (rest.map (·.event)) :: later

/-- Whether all events that have been added to a run are commands that come to nothing. -/
def addsFruitless (b : Broker) : List Entry → Bool
  | [] => true
  | entry :: rest =>
    (!entry.added || b.isFruitless entry.event (rest.map (·.event))) &&
      (b.step entry.event).addsFruitless rest

namespace Mirrors

theorem refl (b : Broker) : Mirrors .id b b :=
  ⟨.refl b.engine, rfl, rfl, rfl, rfl⟩

/-- An added command leaves the broker a mirror, under other numbers for the requests to come. -/
theorem of_untouched (h : Mirrors ρ b b') (hb : Reachable b) (hb' : Reachable b')
    {b'' : Broker} {c : ClientId} {command : Command} (hc : b'.isConnected c = true)
    (hu : Untouched b' b'' c command) : ∃ σ : Renaming,
      (∀ r ≤ b.engine.requests.length, σ.request r = ρ.request r) ∧ Mirrors σ b b'' := by
  have hothers (σ : Renaming) (hm : Engine.Mirrors σ b.engine b''.engine) : Mirrors σ b b'' := by
    rw [hu.others]
    exact { h with engine := hm }
  rcases hu.engine with heq | ⟨-, hrefuses⟩
  · exact ⟨ρ, fun _ _ => rfl, hothers ρ (heq ▸ h.engine)⟩
  · have hcon : b.engine.isConnected c = true := (h.engine.isConnected c).symm.trans hc
    obtain ⟨client, rfl, hclient, -⟩ := client?_of_isConnected hcon
    exact ⟨ρ.skip b.engine.requests.length client, fun r hr => Renaming.request_skip_of_le hr,
      hothers _ (h.engine.of_refuses hrefuses hb'.sound.tracked hb.sound hclient hb.backed)⟩

/-- The same reply has brought the same answer. -/
theorem answer? (h : Mirrors ρ b b') (made : Instant) {x y : Reply} (hreply : Reply.Like ρ x y) :
    (b'.answer? made y).map withoutCounts = (b.answer? made x).map withoutCounts := by
  cases hreply with
  | now hsame => exact congrArg (fun response => some (response, made)) hsame
  | later r =>
    have hresponse : b'.outcomeResponse = b.outcomeResponse := by
      funext outcome
      cases outcome with
      | reserved id => rw [outcomeResponse, outcomeResponse, h.engine.job?]
      | notFound | deadlineSoon | timedOut => rfl
    simp only [Broker.answer?, h.engine.answers, hresponse]
  | close => rfl

/-- An event has the same answer in both runs. -/
theorem answerTo? (h : Mirrors ρ b b') (hb : Reachable b) (event : Event)
    {later later' : List Event}
    (hsame : ∀ r ≤ (b.step event).engine.requests.length, σ.request r = ρ.request r)
    (hlast : Mirrors σ ((b.step event).after later) ((b'.step event).after later')) :
    (b'.answerTo? event later').map withoutCounts =
      (b.answerTo? event later).map withoutCounts := by
  cases event with
  | command c command body =>
    have hcon : b'.isConnected c = b.isConnected c := h.engine.isConnected c
    simp only [Broker.answerTo?, hcon, h.engine.now]
    split
    · next hc =>
      refine hlast.answer? _ ?_
      have hlike := (h.dispatch c command body).reply
      generalize hx : (b.dispatch c command body).1 = x at hlike
      generalize (b'.dispatch c command body).1 = y at hlike
      cases hlike with
      | now heq => exact .now heq
      | later r =>
        have hasking : b.asking? (.command c command body) = some ⟨r, c, b.watchedBy c⟩ := by
          rw [asking?, hc, hx]
        have hlength := congrArg List.length (hb.requests_step (.command c command body))
        rw [hasking, List.length_append, List.length_map, List.length_map] at hlength
        obtain ⟨hr, -⟩ := reservation_of_later hx
        rw [engine_record] at hr
        rw [← hsame r (by rw [hlength, hr]; exact Nat.le_refl _)]
        exact .later r
      | close => exact .close
    · rfl
  | _ => rfl

end Mirrors

/-- A run with commands added that come to nothing ends in a mirror of the end of the run without
them, and all others have the same answers. -/
theorem Mirrors.answers_of_addsFruitless (entries : List Entry) (h : Mirrors ρ b b')
    (hb : Reachable b) (hb' : Reachable b') (hadded : b'.addsFruitless entries = true) :
    ∃ σ : Renaming,
      (∀ r ≤ b.engine.requests.length, σ.request r = ρ.request r) ∧
      Mirrors σ (b.after ((entries.filter (!·.added)).map (·.event)))
        (b'.after (entries.map (·.event))) ∧
      (b'.answers entries).map (Option.map withoutCounts) =
        (b.answers (entries.filter (!·.added))).map (Option.map withoutCounts) := by
  induction entries generalizing b b' ρ with
  | nil => exact ⟨ρ, fun _ _ => rfl, h, rfl⟩
  | cons entry rest ih =>
    obtain ⟨event, added⟩ := entry
    obtain ⟨hfirst, hrest⟩ := Bool.and_eq_true_iff.1 hadded
    cases added with
    | true =>
      have hfruitless : b'.isFruitless event (rest.map (·.event)) = true := hfirst
      cases event with
      | command c command body =>
        have hc := (Bool.and_eq_true_iff.1 hfruitless).1
        obtain ⟨σ, hsame, hm⟩ := h.of_untouched hb hb' hc (hb'.untouched hfruitless)
        obtain ⟨τ, hlater, hlast, hanswers⟩ := ih hm hb (hb'.step _) hrest
        exact ⟨τ, fun r hr => (hlater r hr).trans (hsame r hr), hlast, hanswers⟩
      | _ => cases hfruitless
    | false =>
      obtain ⟨σ, hsame, hlast, hanswers⟩ := ih (h.step event) (hb.step event) (hb'.step event) hrest
      have hanswer := h.answerTo? hb event hsame hlast
      refine ⟨σ, fun r hr => hsame r (Nat.le_trans hr ?_), hlast, ?_⟩
      · exact ((hb.requests_grow [event]).length_le)
      · exact congrArg₂ List.cons hanswer hanswers

/-- Commands that only look or come to nothing change nothing, and may be added to a run anywhere
without a difference to the other answers. -/
theorem Reachable.fruitless_commands (h : Reachable b) :
    (∀ c command body later, b.isFruitless (.command c command body) later = true →
      b.Untouched (b.step (.command c command body)) c command) ∧
    ∀ entries, b.addsFruitless entries = true →
      (b.answers entries).map (Option.map withoutCounts) =
        (b.answers (entries.filter (!·.added))).map (Option.map withoutCounts) := by
  refine ⟨fun c command body later hfruitless => h.untouched hfruitless, fun entries hadded => ?_⟩
  obtain ⟨σ, -, -, hanswers⟩ := (Mirrors.refl b).answers_of_addsFruitless entries h h hadded
  exact hanswers

/-- The first client asks for a job and the second puts one. Commands have been added : a request
that does not wait, the ignoring of the only tube, the deletion of a job that is not there and a
look at the tubes. -/
def paddedRun : List Entry :=
  [⟨.connect, false⟩, ⟨.connect, false⟩, ⟨.command 1 (.reserveWithTimeout 0) none, true⟩,
    ⟨.command 1 (.ignore .default) none, true⟩, ⟨.command 1 .reserve none, false⟩,
    ⟨.command 2 (.delete 7) none, true⟩, ⟨.command 2 (.put 0 0 60 1) (some [120]), false⟩,
    ⟨.command 1 .listTubes none, true⟩, ⟨.command 2 .stats none, false⟩]

theorem fruitless_commands_paddedRun :
    ((start {}).after [.connect]).Untouched
      (((start {}).after [.connect]).step (.command 1 (.reserveWithTimeout 0) none))
      1 (.reserveWithTimeout 0) ∧
    ((start {}).answers paddedRun).map (Option.map withoutCounts) =
      ((start {}).answers (paddedRun.filter (!·.added))).map (Option.map withoutCounts) :=
  ⟨(Reachable.fruitless_commands ((Reachable.start {}).after [.connect])).1 1 _ none []
      (by decide),
    (Reachable.fruitless_commands (Reachable.start {})).2 paddedRun (by decide)⟩

end Broker

end WorkQueue
