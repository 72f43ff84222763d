import WorkQueue.Proofs.Moments
import WorkQueue.Proofs.Posts

/-!
# Draining call by call

`Engine.drain` hands out the jobs of a tube in one pass over its queue. Below it is a loop of calls
that set off each other. A request that is offered the tube takes the next job off its ready list
and then reserves it. A job that was taken but is not ready is passed over for the next, and a
request that finds none goes back to the front of the queue. If the client of the request is closed,
the job goes back to the list, and that drains its tube again before the first drain goes on.

A `Draining` has the calls that have not returned, and `Draining.step?` makes the next step. From
every moment of an engine the steps come to an end (`Engine.Reachable.drain_ends`). No request has
been offered the tube twice by then, and nothing is left to offer or nobody to offer it to. The
engine is the one that `Engine.drain` gives. Each turn leaves a shorter queue, whatever it sets off,
and the induction is on the queue.
-/

namespace WorkQueue

open Relation

/-- A call that has not returned. -/
inductive Frame
  /-- A tube is drained. -/
  | drain (name : TubeName)
  /-- A request from the queue of a tube has taken a job off its ready list. -/
  | reserve (name : TubeName) (q : Request) (id : JobId)
  deriving DecidableEq

/-- The calls that a drain has set off, the innermost first, with the requests that were offered a
tube so far. -/
structure Draining where
  engine : Engine
  calls : List Frame
  offers : List (TubeName × RequestId) := []
  deriving DecidableEq

namespace Engine

/-- Replaces the queue of a tube. -/
def cut (s : Engine) (name : TubeName) (queue : List RequestId) : Engine :=
  s.adjustTube name fun tube => { tube with waiters := queue }

/-- Puts a request back at the front of a tube's queue. -/
def requeue (s : Engine) (r : RequestId) (name : TubeName) : Engine :=
  s.adjustTube name fun tube => { tube with waiters := r :: tube.waiters }

end Engine

namespace Draining

/-- A request takes the next job of a tube, if there is one, and its call goes on. -/
def take (d : Draining) (name : TubeName) (q : Request) : Draining :=
  match d.engine.takeOff name with
  | (some id, s) => { d with engine := s, calls := .reserve name q id :: d.calls }
  | (none, s) => { d with engine := s.requeue q.id name }

/-- A tube with a job to hand out is offered to the first of its queue. -/
def offer (d : Draining) (name : TubeName) (r : RequestId) (queue : List RequestId) : Draining :=
  let d := { d with engine := d.engine.cut name queue, offers := d.offers ++ [(name, r)] }
  match (d.engine.request? r).filter d.engine.isOpen with
  | some q => d.take name q
  | none => d

/-- A request reserves a job that it has taken, if its client can hold one. -/
def reserve (d : Draining) (q : Request) (job : Job) : Draining :=
  if d.engine.isOpen q && d.engine.isConnected q.client then
    { d with engine := d.engine.grant q job.id }
  else
    { d with
      engine := (d.engine.finish q).move job.id (·.makeReady)
      calls := .drain job.tube :: d.calls }

/-- The next step of the innermost call. -/
def step? (d : Draining) : Option Draining :=
  match d.calls with
  | [] => none
  | .drain name :: outer =>
    match d.engine.next? name, d.engine.waitersAt name with
    | some _, r :: queue => some (d.offer name r queue)
    | _, _ => some { d with calls := outer }
  | .reserve name q id :: outer =>
    let d := { d with calls := outer }
    match (d.engine.job? id).filter (·.state = .ready) with
    | some job => some (d.reserve q job)
    | none => some (d.take name q)

/-- Steps in a row. -/
abbrev Runs : Draining → Draining → Prop :=
  ReflTransGen fun d d' => d.step? = some d'

end Draining

namespace Engine

variable {s t : Engine} {name other : TubeName} {queue : List RequestId} {r : RequestId}
  {id : JobId}

/-! ## Queues make no difference to jobs -/

theorem adjustTube_comm (s : Engine) (a b : TubeName) {f g : Tube → Tube}
    (hf : ∀ tube, (f tube).name = tube.name) (hg : ∀ tube, (g tube).name = tube.name)
    (hfg : ∀ tube, g (f tube) = f (g tube)) :
    (s.adjustTube a f).adjustTube b g = (s.adjustTube b g).adjustTube a f := by
  have htubes : (s.tubes.adjust a f).adjust b g = (s.tubes.adjust b g).adjust a f := by
    simp only [Table.adjust, List.map_map]
    refine List.map_congr_left fun tube _ => ?_
    simp only [Function.comp_apply, Keyed.key]
    by_cases ha : tube.name = a <;> by_cases hb : tube.name = b
    · simp only [if_pos ha, if_pos hb, hf, hg, hfg]
    · simp only [if_pos ha, if_neg hb, hf]
    · simp only [if_neg ha, if_pos hb, hg]
    · simp only [if_neg ha, if_neg hb]
  simp only [adjustTube, htubes]

theorem cut_adjustHolder (s : Engine) (job : Job) (f : Client → Client) :
    (s.adjustHolder job f).cut name queue = (s.cut name queue).adjustHolder job f := by
  unfold adjustHolder
  split <;> rfl

theorem cut_withdraw (s : Engine) (job : Job) :
    (s.withdraw job).cut name queue = (s.cut name queue).withdraw job := by
  rw [withdraw, cut_adjustHolder, withdraw, cut, cut, adjustTube_comm]
  · exact fun tube => tube.name_withdraw job
  · exact fun _ => rfl
  · exact fun tube => by unfold Tube.withdraw; split <;> rfl

theorem cut_enlist (s : Engine) (job : Job) :
    (s.enlist job).cut name queue = (s.cut name queue).enlist job := by
  rw [enlist, cut_adjustHolder, enlist, cut, cut, adjustTube_comm]
  · exact fun tube => tube.name_enlist job
  · exact fun _ => rfl
  · exact fun tube => by unfold Tube.enlist; split <;> rfl

theorem cut_move (s : Engine) (id : JobId) (f : Job → Job) :
    (s.move id f).cut name queue = (s.cut name queue).move id f := by
  have hjob : (s.cut name queue).job? id = s.job? id := rfl
  unfold move
  rw [hjob]
  split
  · next job _ =>
    rw [cut_enlist, ← cut_withdraw]
    rfl
  · rfl

theorem cut_watchDeadlines (s : Engine) (c : ClientId) :
    (s.watchDeadlines c).cut name queue = (s.cut name queue).watchDeadlines c := by
  have hexpiring : (s.cut name queue).expiring = s.expiring := rfl
  unfold watchDeadlines
  rw [hexpiring]
  split <;> rfl

theorem cut_grant (s : Engine) (q : Request) (id : JobId) :
    (s.grant q id).cut name queue = (s.cut name queue).grant q id := by
  have hfinish : (s.cut name queue).finish q = (s.finish q).cut name queue := rfl
  have hcon : ((s.finish q).cut name queue).isConnected q.client =
      (s.finish q).isConnected q.client := rfl
  unfold grant
  dsimp only
  rw [hfinish, hcon]
  split
  · rw [← cut_move, ← cut_watchDeadlines]
    rfl
  · rfl

theorem cut_serve (s : Engine) (r : RequestId) (id : JobId) :
    (s.serve r id).cut name queue = (s.cut name queue).serve r id := by
  have hrequest : (s.cut name queue).request? r = s.request? r := rfl
  unfold serve
  rw [hrequest]
  split
  · next q _ =>
    have hopen : (s.cut name queue).isOpen q = s.isOpen q := rfl
    rw [hopen]
    split
    · exact cut_grant s q id
    · rfl
  · rfl

theorem next?_cut (s : Engine) : (s.cut name queue).next? other = s.next? other := by
  have htube : (s.cut name queue).tube? other = (s.tube? other).map fun tube =>
      if tube.name = name then { tube with waiters := queue } else tube :=
    tube?_adjustTube s name fun _ => rfl
  rw [next?, htube, next?, Option.bind_map]
  congr 1
  funext tube
  dsimp only [Function.comp_apply]
  split <;> rfl

theorem cut_cut (s : Engine) (later : List RequestId) :
    (s.cut name queue).cut name later = s.cut name later := by
  have htubes := Table.adjust_adjust s.tubes name (fun tube => { tube with waiters := queue })
    (fun tube => { tube with waiters := later }) fun _ h => h
  simp only [cut, adjustTube, htubes]

theorem offer_cut (s : Engine) (row : List RequestId) : Engine.offer other row (s.cut name queue) =
    ((Engine.offer other row s).1, (Engine.offer other row s).2.cut name queue) := by
  induction row generalizing s with
  | nil => rfl
  | cons r rest ih =>
    simp only [Engine.offer, next?_cut]
    split
    · rw [← cut_serve, ih]
    · rfl

/-! ## One turn -/

theorem tube?_cut {tube : Tube} (htube : s.tube? name = some tube) :
    (s.cut name queue).tube? name = some { tube with waiters := queue } := by
  have hname : tube.name = name := Table.key_of_lookup htube
  have hcut : (s.cut name queue).tube? name = (s.tube? name).map fun tube =>
      if tube.name = name then { tube with waiters := queue } else tube :=
    tube?_adjustTube s name fun _ => rfl
  rw [hcut, htube, Option.map_some, if_pos hname]

theorem waitersAt_cut (h : (s.tube? name).isSome) : (s.cut name queue).waitersAt name = queue := by
  obtain ⟨tube, htube⟩ := Option.isSome_iff_exists.1 h
  rw [waitersAt_of_tube? (tube?_cut htube)]

/-- Whatever leaves the posts alone makes and removes no tube. -/
theorem SamePosts.isSome_tube? (h : SamePosts s t) (name : TubeName) :
    (t.tube? name).isSome = (s.tube? name).isSome := by
  rw [Bool.eq_iff_iff, tube?, tube?, Table.lookup_isSome_iff, Table.lookup_isSome_iff, h.keys]

theorem tube?_of_waitersAt (h : s.waitersAt name = r :: queue) :
    ∃ tube, s.tube? name = some tube ∧ tube.waiters = r :: queue := by
  rw [waitersAt] at h
  cases htube : s.tube? name with
  | none => simp [htube] at h
  | some tube => exact ⟨tube, rfl, by simpa [htube] using h⟩

theorem drain_eq {tube : Tube} (htube : s.tube? name = some tube) : s.drain name =
    (Engine.offer name tube.waiters s).2.cut name (Engine.offer name tube.waiters s).1 := by
  rw [drain, htube]
  rfl

/-- A drain goes on after the first of the queue has had its turn. -/
theorem drain_turn (hqueue : s.waitersAt name = r :: queue) (hnext : s.next? name = some id) :
    s.drain name = ((s.serve r id).cut name queue).drain name ∧
      ((s.serve r id).cut name queue).waitersAt name = queue := by
  obtain ⟨tube, htube, hwaiters⟩ := tube?_of_waitersAt hqueue
  have hserved : ((s.serve r id).tube? name).isSome :=
    ((SamePosts.serve s r id).isSome_tube? name).trans (Option.isSome_of_eq_some htube)
  obtain ⟨later, hlater⟩ := Option.isSome_iff_exists.1 hserved
  refine ⟨?_, waitersAt_cut hserved⟩
  rw [drain_eq htube, drain_eq (tube?_cut hlater), offer_cut, cut_cut, hwaiters, Engine.offer,
    hnext]

theorem offer_done (name : TubeName) (queue : List RequestId) (s : Engine) :
    (Engine.offer name queue s).2.next? name = none ∨ (Engine.offer name queue s).1 = [] := by
  induction queue generalizing s with
  | nil => exact Or.inr rfl
  | cons r rest ih =>
    rw [Engine.offer]
    split
    · exact ih _
    · next hnone => exact Or.inl hnone

/-- A drain goes on as long as there is a job to hand out and a request to offer it to. -/
theorem drain_done (s : Engine) (name : TubeName) :
    (s.drain name).next? name = none ∨ (s.drain name).waitersAt name = [] := by
  cases htube : s.tube? name with
  | none =>
    have hsame : s.drain name = s := by rw [drain, htube]
    rw [hsame, next?, htube]
    exact Or.inl rfl
  | some tube =>
    rw [drain_eq htube, next?_cut]
    rcases offer_done name tube.waiters s with hnone | hnil
    · exact Or.inl hnone
    · refine Or.inr ((waitersAt_cut ?_).trans hnil)
      exact ((SamePosts.offer name tube.waiters s).isSome_tube? name).trans
        (Option.isSome_of_eq_some htube)

/-! ## A job in the hands of a request -/

/-- The engine after the first job has been taken off the ready list of a tube. -/
def popped (s : Engine) (name : TubeName) : Engine :=
  s.adjustTube name fun tube => { tube with ready := tube.ready.tail }

theorem takeOff_eq (h : s.next? name = some id) : s.takeOff name = (some id, s.popped name) := by
  rw [takeOff, h]
  rfl

/-- The job to hand out next is ready, and the first of its tube. -/
theorem Stocked.first_of_next? (hs : s.Stocked) (hnext : s.next? name = some id) :
    ∃ tube ∈ s.tubes, ∃ job rest, tube.name = job.tube ∧ s.job? id = some job ∧ job.id = id ∧
      job.tube = name ∧ job.state = .ready ∧ tube.ready = job.slot :: rest := by
  obtain ⟨tube, htube, -, slot, hhead, rfl⟩ := next?_eq_some_iff.1 hnext
  obtain ⟨ht, rfl⟩ := (tube?_eq_some_iff hs.tubes).1 htube
  obtain ⟨rest, hready⟩ := List.head?_eq_some_iff.1 hhead
  obtain ⟨job, hj, hhome, hplace⟩ := hs.ready tube ht slot (hready ▸ List.mem_cons_self)
  have hid : job.id = slot.job := (Job.job_of_place? hplace).symm
  have hst : job.state = .ready ∧ job.slot = slot := by
    unfold Job.place? at hplace
    split at hplace <;> cases hplace
    next hst => exact ⟨hst, by rw [Job.slot, hst]⟩
  exact ⟨tube, ht, job, rest, hhome.symm, (job?_eq_some_iff hs.jobs).2 ⟨hj, hid⟩, hid, hhome,
    hst.1, hst.2 ▸ hready⟩

/-- A job that was taken off its list moves on as if it was still there. -/
theorem Stocked.move_popped (hs : s.Stocked) (hnext : s.next? name = some id) {f : Job → Job}
    (hf : ∀ job, (f job).tube = job.tube) : (s.popped name).move id f = s.move id f := by
  obtain ⟨tube, ht, job, rest, hhome, hj, rfl, rfl, hst, hready⟩ := hs.first_of_next? hnext
  have hj' : (s.popped job.tube).job? job.id = some job := hj
  have hwithdraw : Tube.withdraw { tube with ready := tube.ready.tail } job =
      tube.withdraw job := by
    simp [Tube.withdraw, hst, hready, Agenda.remove]
  have htubes : (s.popped job.tube).tubes.adjust job.tube
      (fun tube => (tube.withdraw job).enlist (f job)) =
        s.tubes.adjust job.tube fun tube => (tube.withdraw job).enlist (f job) := by
    refine (Table.adjust_adjust s.tubes job.tube _ _ ?_).trans ?_
    · exact fun _ h => h
    refine List.map_congr_left fun other hother => ?_
    split
    · next hkey =>
      obtain rfl := Table.eq_of_key_eq hs.tubes hother ht (hkey.trans hhome.symm)
      exact congrArg (·.enlist (f job)) hwithdraw
    · rfl
  rw [move_eq hj (hf job), move_eq hj' (hf job), htubes]
  rfl

theorem Stocked.grant_popped (hs : s.Stocked) (hnext : s.next? name = some id) {q : Request}
    (hcon : s.isConnected q.client = true) : (s.popped name).grant q id = s.grant q id := by
  have hcon' : (s.popped name).isConnected q.client = true := hcon
  have hmove : ((s.popped name).finish q).move id (·.makeReserved s.now q.client) =
      (s.finish q).move id (·.makeReserved s.now q.client) :=
    (hs.finish q).move_popped (f := (·.makeReserved s.now q.client)) hnext fun _ => rfl
  rw [grant_eq hcon', grant_eq hcon, served, served, ← hmove]
  rfl

theorem grant_of_closed {q : Request} (hcon : s.isConnected q.client = false) :
    s.grant q id = s.finish q := by
  have hcon' : (s.finish q).isConnected q.client = false :=
    ((fewer_finish s q).isConnected q.client).trans hcon
  simp [grant, hcon']

theorem serve_of_stale (h : (s.request? r).filter s.isOpen = none) : s.serve r id = s := by
  unfold serve
  split
  · next q hq =>
    rw [hq, Option.filter_eq_none_iff] at h
    rw [if_neg (h q rfl)]
  · rfl

/-- A job that goes back to its list is where it was. -/
theorem Stocked.move_back (hs : s.Stocked) (hnext : s.next? name = some id) :
    (s.popped name).move id (·.makeReady) = s := by
  rw [hs.move_popped (f := (·.makeReady)) hnext fun _ => rfl]
  obtain ⟨tube, ht, job, rest, hhome, hj, rfl, -, hst, hready⟩ := hs.first_of_next? hnext
  exact move_makeReady_eq_self hs.jobs.nodup hs.tubes hj ht (hs.sorted tube ht) hhome hst
    (hready ▸ List.mem_cons_self)

/-- Nothing to hand out, or nobody to offer it to. -/
theorem Stocked.drain_idle (hs : s.Stocked) (h : s.next? name = none ∨ s.waitersAt name = []) :
    s.drain name = s := by
  cases htube : s.tube? name with
  | none => rw [Engine.drain, htube]
  | some tube =>
    obtain ⟨ht, rfl⟩ := (tube?_eq_some_iff hs.tubes).1 htube
    rw [waitersAt_of_tube? htube] at h
    exact drain_eq_self hs.tubes ht h.symm

end Engine

/-! ## Turn by turn -/

namespace Draining

open Engine

variable {s : Engine} {name : TubeName} {queue : List RequestId} {r : RequestId} {id : JobId}
  {outer : List Frame} {offers : List (TubeName × RequestId)}

/-- A drain returns when there is no job to hand out or nobody waits. -/
theorem step?_idle (h : s.next? name = none ∨ s.waitersAt name = []) :
    step? ⟨s, .drain name :: outer, offers⟩ = some ⟨s, outer, offers⟩ := by
  rw [step?]
  dsimp only
  split
  · next hnext hqueue =>
    rcases h with h | h
    · cases h.symm.trans hnext
    · cases h.symm.trans hqueue
  · rfl

/-- A request that is open and has taken a job reserves it, or closes its task and leaves the job to
another drain. -/
theorem step?_reserve (hs : s.Stocked) (hnext : s.next? name = some id) {q : Request}
    (hopen : s.isOpen q = true) (outer : List Frame) (offers : List (TubeName × RequestId)) :
    ∃ again, (again = [] ∨ again = [Frame.drain name]) ∧
      step? ⟨s.popped name, .reserve name q id :: outer, offers⟩ =
        some ⟨s.grant q id, again ++ outer, offers⟩ := by
  obtain ⟨-, -, job, -, -, hj, rfl, rfl, hst, -⟩ := hs.first_of_next? hnext
  have hready : ((s.popped job.tube).job? job.id).filter (·.state = .ready) = some job := by
    have hj' : (s.popped job.tube).job? job.id = some job := hj
    rw [hj', Option.filter_some, if_pos (by simpa using hst)]
  have hstep : step? ⟨s.popped job.tube, .reserve job.tube q job.id :: outer, offers⟩ =
      some (reserve ⟨s.popped job.tube, outer, offers⟩ q job) := by
    simp only [step?, hready]
  have hopen' : (s.popped job.tube).isOpen q = true := hopen
  rw [hstep, reserve]
  cases hcon : s.isConnected q.client with
  | true =>
    have hcon' : (s.popped job.tube).isConnected q.client = true := hcon
    refine ⟨[], Or.inl rfl, ?_⟩
    simp only [hopen', hcon', Bool.and_self, if_true, hs.grant_popped hnext hcon, List.nil_append]
  | false =>
    have hcon' : (s.popped job.tube).isConnected q.client = false := hcon
    have hback : ((s.popped job.tube).finish q).move job.id (·.makeReady) = s.finish q :=
      (hs.finish q).move_back hnext
    refine ⟨[.drain job.tube], Or.inr rfl, ?_⟩
    simp only [hopen', hcon', Bool.and_false, Bool.false_eq_true, if_false, hback,
      grant_of_closed hcon, List.singleton_append]

/-- The first of the queue is offered the tube and is served, whatever that takes. -/
theorem turn (hs : s.Stocked) (hqueue : s.waitersAt name = r :: queue)
    (hnext : s.next? name = some id) (outer : List Frame) (offers : List (TubeName × RequestId)) :
    ∃ again, (again = [] ∨ again = [Frame.drain name]) ∧
      Runs ⟨s, .drain name :: outer, offers⟩
        ⟨(s.serve r id).cut name queue, again ++ .drain name :: outer,
          offers ++ [(name, r)]⟩ := by
  have hcut : (s.cut name queue).Stocked := hs.cut (hqueue ▸ List.suffix_cons r queue)
  have hnext' : (s.cut name queue).next? name = some id := (next?_cut s).trans hnext
  have hstep : step? ⟨s, .drain name :: outer, offers⟩ =
      some (offer ⟨s, .drain name :: outer, offers⟩ name r queue) := by
    simp only [step?, hnext, hqueue]
  rw [cut_serve]
  cases hq : (s.request? r).filter s.isOpen with
  | none =>
    have hstale : (s.cut name queue).serve r id = s.cut name queue := serve_of_stale hq
    have hoffer : offer ⟨s, .drain name :: outer, offers⟩ name r queue =
        ⟨s.cut name queue, .drain name :: outer, offers ++ [(name, r)]⟩ := by
      rw [offer]
      dsimp only
      split
      · next hsome => cases hq.symm.trans hsome
      · rfl
    refine ⟨[], Or.inl rfl, .single ?_⟩
    rw [hstep, hoffer, hstale]
    rfl
  | some q =>
    obtain ⟨hrequest, hopen⟩ := Option.filter_eq_some_iff.1 hq
    have hserve : (s.cut name queue).serve r id = (s.cut name queue).grant q id := by
      have hrequest' : (s.cut name queue).request? r = some q := hrequest
      have hopen' : (s.cut name queue).isOpen q = true := hopen
      simp only [serve, hrequest', hopen', if_true]
    have hoffer : offer ⟨s, .drain name :: outer, offers⟩ name r queue =
        ⟨(s.cut name queue).popped name, .reserve name q id :: .drain name :: outer,
          offers ++ [(name, r)]⟩ := by
      have hfound : ((s.cut name queue).request? r).filter (s.cut name queue).isOpen = some q := hq
      simp only [offer, hfound, take, takeOff_eq hnext']
    obtain ⟨again, hagain, hreserve⟩ := step?_reserve hcut hnext' hopen (.drain name :: outer)
      (offers ++ [(name, r)])
    refine ⟨again, hagain, .tail (.single ?_) (hserve ▸ hreserve)⟩
    rw [hstep, hoffer]

/-- What all turns come to, by induction on the queue : whatever a turn sets off drains the tube
with a shorter one. -/
theorem run (hs : s.Stocked) (name : TubeName) (outer : List Frame)
    (offers : List (TubeName × RequestId)) : ∃ offered, offered <+: s.waitersAt name ∧
      Runs ⟨s, .drain name :: outer, offers⟩
        ⟨s.drain name, outer, offers ++ offered.map (name, ·)⟩ := by
  induction hqueue : s.waitersAt name generalizing s outer offers with
  | nil =>
    refine ⟨[], List.prefix_refl _, ?_⟩
    rw [hs.drain_idle (Or.inr hqueue), List.map_nil, List.append_nil]
    exact .single (step?_idle (Or.inr hqueue))
  | cons r queue ih =>
    cases hnext : s.next? name with
    | none =>
      refine ⟨[], List.nil_prefix, ?_⟩
      rw [hs.drain_idle (Or.inl hnext), List.map_nil, List.append_nil]
      exact .single (step?_idle (Or.inl hnext))
    | some id =>
      obtain ⟨again, hagain, hturn⟩ := turn hs hqueue hnext outer offers
      have hserved : ((s.serve r id).cut name queue).Stocked := by
        refine (hs.serve r id).cut ?_
        rw [waitersAt_serve, hqueue]
        exact List.suffix_cons r queue
      obtain ⟨hdrain, hleft⟩ := drain_turn hqueue hnext
      rw [hdrain]
      obtain ⟨offered, hoffered, hrun⟩ : ∃ offered, offered <+: queue ∧
          Runs ⟨(s.serve r id).cut name queue, again ++ .drain name :: outer, offers ++ [(name, r)]⟩
            ⟨((s.serve r id).cut name queue).drain name, outer,
              offers ++ [(name, r)] ++ offered.map (name, ·)⟩ := by
        rcases hagain with rfl | rfl
        · exact ih hserved outer _ hleft
        · -- The drain inside has done all there is to do, and the one outside returns.
          obtain ⟨offered, hoffered, hrun⟩ := ih hserved (.drain name :: outer) _ hleft
          exact ⟨offered, hoffered, hrun.tail (step?_idle (drain_done _ name))⟩
      refine ⟨r :: offered, (List.prefix_cons_inj r).2 hoffered, ?_⟩
      rw [List.map_cons, List.append_cons]
      exact hturn.trans hrun

end Draining

namespace Engine

/-- What a tube that hands out nothing comes to. -/
theorem ready_or_paused {s : Engine} {name : TubeName} {tube : Tube}
    (htube : s.tube? name = some tube) (h : s.next? name = none) :
    tube.ready = [] ∨ tube.isPaused s.now = true := by
  rw [next?, htube, Option.bind_some, Tube.next?] at h
  split at h
  · next hpaused => exact Or.inr hpaused
  · exact Or.inl (List.head?_eq_none_iff.1 (Option.map_eq_none_iff.1 h))

/-- From every moment of an engine, draining a tube comes to an end, with all that it sets off. The
tube has been offered to requests at the front of its queue by then, to each of them once. It has no
ready job left, or it is paused, or nobody waits, and the engine is the one that `drain` gives. -/
theorem Reachable.drain_ends {s : Engine} (h : s.Reachable) (name : TubeName) :
    ∃ offered, offered <+: s.waitersAt name ∧ offered.Nodup ∧
      Draining.Runs ⟨s, [.drain name], []⟩ ⟨s.drain name, [], offered.map (name, ·)⟩ ∧
      Draining.step? ⟨s.drain name, [], offered.map (name, ·)⟩ = none ∧
      ∀ tube, (s.drain name).tube? name = some tube →
        tube.ready = [] ∨ tube.isPaused s.now = true ∨ tube.waiters = [] := by
  have hs := h.stocked
  obtain ⟨offered, hoffered, hrun⟩ := Draining.run hs name [] []
  refine ⟨offered, hoffered, (hs.nodup_waitersAt name).sublist hoffered.sublist, hrun, rfl,
    fun tube htube => ?_⟩
  rcases drain_done s name with hnone | hnil
  · rw [← (SamePosts.drain s name).now, ← or_assoc]
    exact Or.inl (ready_or_paused htube hnone)
  · rw [waitersAt_of_tube? htube] at hnil
    exact Or.inr (Or.inr hnil)

/-- Three requests wait when a job becomes ready : the client of the first was closed before it
asked, and the second has been given up. -/
def crowded : Engine :=
  let s := ({} : Engine).openClient.openClient.openClient
  let s := s.adjustClient 1 fun client => { client with closed := true, watching := [] }
  let s := (((s.watch 1 .default).reserve 1 none).reserve 2 none).reserve 3 none
  ((s.finishAll 2).create .default 0 0 1000 []).move 1 (·.makeReady)

theorem drain_ends_crowded : crowded.waitersAt .default = [1, 2, 3] ∧
    (crowded.drain .default).deliveries = [⟨3, .reserved 1, 0⟩] ∧
    ∃ offered, offered <+: crowded.waitersAt .default ∧ offered.Nodup ∧
      Draining.Runs ⟨crowded, [.drain .default], []⟩
        ⟨crowded.drain .default, [], offered.map (.default, ·)⟩ ∧
      Draining.step? ⟨crowded.drain .default, [], offered.map (.default, ·)⟩ = none ∧
      ∀ tube, (crowded.drain .default).tube? .default = some tube →
        tube.ready = [] ∨ tube.isPaused crowded.now = true ∨ tube.waiters = [] := by
  have hclients := ((Reachable.start.change .openClient).change .openClient).change .openClient
  have hclosed := hclients.adjustClient 1
    (f := fun client => { client with closed := true, watching := [] })
    fun _ => ⟨rfl, List.nil_sublist _⟩
  have hasked := (((hclosed.change (.watch 1 .default)).change (.reserve 1 none)).change
    (.reserve 2 none)).change (.reserve 3 none)
  have hstale := hasked.adjustClient 2
    (f := fun client => { client with tasks := client.tasks.finishAll }) fun _ => ⟨rfl, .refl _⟩
  have hready : crowded.Reachable :=
    (hstale.change (.create .default 0 0 1000 [])).move 1 (f := (·.makeReady)) fun _ => ⟨rfl, rfl⟩
  exact ⟨by decide, by decide, hready.drain_ends .default⟩

end Engine

end WorkQueue
