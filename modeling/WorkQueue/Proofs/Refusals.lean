import WorkQueue.Proofs.Comebacks

/-!
# Refused transitions

A transition that is refused leaves no trace : it has found out that it is not open to the job
before it touches anything (`Engine.transition_refused`). Only the reservation of a job by its
number can be refused later than that, when the job is off its list already, since a closed client
can hold nothing. The job becomes ready then, whatever it was before, and the requests that wait at
its tube have their turn. That is no change only if the job was ready and on its list, and nobody
can be served (`Engine.WellFormed.refused_traceless_iff`).
-/

namespace WorkQueue

namespace Table

variable {α κ : Type} [Keyed α κ] [DecidableEq κ]

theorem adjust_eq_self {table : Table α} (h : table.keys.Nodup) {a : α} (ha : a ∈ table)
    {f : α → α} (hf : f a = a) : table.adjust (Keyed.key a) f = table := by
  conv_rhs => rw [← List.map_id table]
  refine List.map_congr_left fun b hb => ?_
  split
  · next hkey => rw [eq_of_key_eq h hb ha hkey, hf, id]
  · rfl

end Table

/-- A slot that is taken out of an agenda and put back. -/
theorem Agenda.Sorted.insert_remove {agenda : Agenda} (h : Agenda.Sorted agenda) {slot : Slot}
    (hmem : slot ∈ agenda) : (agenda.remove slot).insert slot = agenda := by
  refine ((h.remove slot).insert slot).ext h fun other => ?_
  rw [Agenda.mem_insert, Agenda.mem_remove]
  constructor
  · rintro (rfl | ⟨hother, -⟩)
    · exact hmem
    · exact hother
  · intro hother
    by_cases hsame : other = slot
    · exact Or.inl hsame
    · exact Or.inr ⟨hother, hsame⟩

/-- The transitions of a job, with the client that each is for. -/
inductive Transition
  | enqueue
  | reserve (c : ClientId)
  | touch (c : ClientId)
  | giveBack (c : ClientId)
  | release (c : ClientId) (pri : Nat) (delay : Millis)
  | bury (c : ClientId) (pri : Nat)
  | delete (c : ClientId)
  | kick

namespace Engine

variable {s : Engine} {job : Job} {tube : Tube} {name : TubeName} {id : JobId}

/-- Attempts a transition of a job. -/
def attempt (s : Engine) (id : JobId) : Transition → Bool × Engine
  | .enqueue => s.enqueue id
  | .reserve c => s.reserveJob c id
  | .touch c => s.touch c id
  | .giveBack c => s.giveBack c id
  | .release c pri delay => s.release c id pri delay
  | .bury c pri => s.bury c id pri
  | .delete c => s.delete c id
  | .kick => s.kickJob id

/-- What the tables are by their types : a key is there once, a job has its tube, and the ready jobs
of a tube are in order. The lists need not tell the states. -/
structure WellFormed (s : Engine) : Prop where
  jobs : s.jobs.keys.Nodup
  tubes : s.tubes.keys.Nodup
  homes : ∀ job ∈ s.jobs, job.tube ∈ s.tubes.keys
  ready : ∀ tube ∈ s.tubes, Agenda.Sorted tube.ready

theorem Listed.wellFormed (h : s.Listed) : s.WellFormed :=
  ⟨h.jobs.nodup, h.tubes, h.homes, fun tube ht => (h.ordered tube ht).ready⟩

/-- A job is ready and in its place, and its tube has nobody to serve. -/
def InPlace (s : Engine) (job : Job) : Prop :=
  job.state = .ready ∧ ∃ tube ∈ s.tubes, tube.name = job.tube ∧ job.slot ∈ tube.ready ∧
    (tube.isPaused s.now = true ∨ tube.waiters = [])

theorem transition_refused {isOpenTo : Job → Bool} {go : Job → Engine}
    (h : (s.transition id isOpenTo go).1 = false) : (s.transition id isOpenTo go).2 = s := by
  unfold transition at h ⊢
  split at h
  · split at h
    · cases h
    · next hopen => rw [if_neg hopen]
  · rfl

/-! ## Requests that have their turn -/

theorem offer_length (name : TubeName) (queue : List RequestId) (s : Engine) :
    (offer name queue s).1.length ≤ queue.length := by
  induction queue generalizing s with
  | nil => exact Nat.le_refl _
  | cons r rest ih =>
    unfold offer
    split
    · exact Nat.le_succ_of_le (ih _)
    · exact Nat.le_refl _

theorem offer_of_next?_eq_none (h : s.next? name = none) (queue : List RequestId) :
    offer name queue s = (queue, s) := by
  cases queue with
  | nil => rfl
  | cons r rest => simp [offer, h]

/-- Nobody has a turn if nobody waits or nothing is handed out. -/
theorem drain_eq_self (hn : s.tubes.keys.Nodup) (ht : tube ∈ s.tubes)
    (hidle : tube.waiters = [] ∨ s.next? tube.name = none) : s.drain tube.name = s := by
  have htube : s.tube? tube.name = some tube := (tube?_eq_some_iff hn).2 ⟨ht, rfl⟩
  have hoffer : offer tube.name tube.waiters s = (tube.waiters, s) := by
    rcases hidle with hnil | hnone
    · rw [hnil]
      rfl
    · exact offer_of_next?_eq_none hnone tube.waiters
  have htubes : s.tubes.adjust tube.name (fun old => { old with waiters := tube.waiters }) =
      s.tubes := Table.adjust_eq_self hn ht rfl
  simp only [drain, htube, hoffer, adjustTube, htubes]

/-- Otherwise the first one has had its turn, and is off the queue. -/
theorem waiters_drain {later : Tube} (htube : s.tube? name = some tube)
    (hwait : tube.waiters ≠ []) (hnext : s.next? name ≠ none)
    (hlater : (s.drain name).tube? name = some later) :
    later.waiters.length < tube.waiters.length := by
  obtain ⟨id, hid⟩ := Option.ne_none_iff_exists'.1 hnext
  obtain ⟨r, rest, hqueue⟩ := List.exists_cons_of_ne_nil hwait
  have hless : (offer name tube.waiters s).1.length < tube.waiters.length := by
    rw [hqueue, offer, hid]
    exact Nat.lt_succ_of_le (offer_length _ _ _)
  simp only [drain, htube] at hlater
  have hlookup := Table.lookup_adjust_self (offer name tube.waiters s).2.tubes name
    (fun old => { old with waiters := (offer name tube.waiters s).1 }) fun _ => rfl
  obtain ⟨old, -, rfl⟩ := Option.map_eq_some_iff.1 (hlookup.symm.trans hlater)
  exact hless

/-- While a ready job is listed, only a pause keeps a tube from handing one out. -/
theorem next?_eq_none_iff (htube : s.tube? name = some tube) {slot : Slot}
    (hslot : slot ∈ tube.ready) : s.next? name = none ↔ tube.isPaused s.now = true := by
  have hsome : tube.ready.head?.map (·.job) ≠ none := by
    rw [Ne, Option.map_eq_none_iff, List.head?_eq_none_iff]
    exact List.ne_nil_of_mem hslot
  rw [next?, htube, Option.bind_some, Tube.next?]
  split
  · next hpaused => exact iff_of_true rfl hpaused
  · next hrunning => exact iff_of_false hsome hrunning

/-! ## A job that comes back to where it was -/

/-- A ready job that is in its place stays there when it is made ready. -/
theorem move_makeReady_eq_self (hjobs : s.jobs.keys.Nodup) (htubes : s.tubes.keys.Nodup)
    (hj : s.job? job.id = some job) (ht : tube ∈ s.tubes) (hsorted : Agenda.Sorted tube.ready)
    (hname : tube.name = job.tube) (hst : job.state = .ready) (hslot : job.slot ∈ tube.ready) :
    s.move job.id (·.makeReady) = s := by
  have hready : job.makeReady = job := by rw [Job.makeReady, ← hst]
  have htube : s.tubes.adjust job.tube (fun tube => (tube.withdraw job).enlist job.makeReady) =
      s.tubes := by
    rw [← hname]
    refine Table.adjust_eq_self htubes ht ?_
    simp only [hready, Tube.enlist, Tube.withdraw, hst]
    rw [hsorted.insert_remove hslot]
  have hjob : s.jobs.adjust job.id (fun _ => job.makeReady) = s.jobs :=
    Table.adjust_eq_self hjobs (Table.mem_of_lookup hj) hready
  have hclients : s.clients.map (Client.rehold job job.makeReady) = s.clients := by
    refine (List.map_congr_left fun client _ => ?_).trans (List.map_id _)
    simp [Client.rehold, hready, Job.isHeldBy, Job.holder?, hst]
  rw [move_eq (f := (·.makeReady)) hj rfl, htube, hjob, hclients]

theorem WellFormed.move_eq_self_iff (hs : s.WellFormed) (hj : s.job? job.id = some job)
    (ht : tube ∈ s.tubes) (hname : tube.name = job.tube) :
    s.move job.id (·.makeReady) = s ↔ job.state = .ready ∧ job.slot ∈ tube.ready := by
  have hmem := Table.mem_of_lookup hj
  have hmove := move_eq (f := (·.makeReady)) hj rfl
  constructor
  · intro hsame
    have hready : job.makeReady = job := by
      have hjob : job.makeReady ∈ s.jobs := by
        rw [← hsame, hmove]
        exact Table.mem_adjust.2 (Or.inl ⟨job, hmem, rfl, rfl⟩)
      exact Table.eq_of_key_eq hs.jobs hjob hmem rfl
    have hst : job.state = .ready := by rw [← hready]; rfl
    have htube : (tube.withdraw job).enlist job.makeReady = tube := by
      have hmoved : (tube.withdraw job).enlist job.makeReady ∈ s.tubes := by
        rw [← hsame, hmove]
        exact Table.mem_adjust.2 (Or.inl ⟨tube, ht, hname, rfl⟩)
      exact Table.eq_of_key_eq hs.tubes hmoved ht
        ((Tube.name_enlist _ _).trans (Tube.name_withdraw _ _))
    refine ⟨hst, ?_⟩
    rw [← htube, hready]
    simp [Tube.enlist, hst, Agenda.mem_insert]
  · rintro ⟨hst, hslot⟩
    exact move_makeReady_eq_self hs.jobs hs.tubes hj ht (hs.ready tube ht) hname hst hslot

theorem WellFormed.enterReady_eq_self_iff (hs : s.WellFormed) (hj : s.job? job.id = some job) :
    s.enterReady job (·) = s ↔ s.InPlace job := by
  have hmem := Table.mem_of_lookup hj
  obtain ⟨tube, ht, hname⟩ := List.mem_map.1 (hs.homes job hmem)
  have hname : tube.name = job.tube := hname
  have htube : s.tube? job.tube = some tube := (tube?_eq_some_iff hs.tubes).2 ⟨ht, hname⟩
  have hmove := hs.move_eq_self_iff hj ht hname
  constructor
  · intro hsame
    set u := s.move job.id (·.makeReady) with hu
    have hsame : u.drain job.tube = s := hsame
    have hnow : u.now = s.now := (move_frame s job.id _).1
    have htube' : u.tube? job.tube = some ((tube.withdraw job).enlist job.makeReady) := by
      have hlookup := Table.lookup_adjust_self s.tubes job.tube
        (fun tube => (tube.withdraw job).enlist job.makeReady) fun _ =>
          (Tube.name_enlist _ _).trans (Tube.name_withdraw _ _)
      rw [hu, move_eq (f := (·.makeReady)) hj rfl]
      exact hlookup.trans (congrArg (Option.map _) htube)
    have hwaiters : ((tube.withdraw job).enlist job.makeReady).waiters = tube.waiters :=
      (Tube.frame_enlist _ _).1.trans (Tube.frame_withdraw _ _).1
    by_cases hidle : tube.waiters = [] ∨ u.next? job.tube = none
    · have hu' : u.drain job.tube = u := by
        obtain ⟨ht', hname'⟩ := (tube?_eq_some_iff (keys_move s job.id _ ▸ hs.tubes)).1 htube'
        rw [← hname'] at hidle ⊢
        exact drain_eq_self (keys_move s job.id _ ▸ hs.tubes) ht' (hwaiters ▸ hidle)
      have hstay : u = s := hu'.symm.trans hsame
      obtain ⟨hst, hslot⟩ := hmove.1 hstay
      rw [hstay, next?_eq_none_iff htube hslot] at hidle
      exact ⟨hst, tube, ht, hname, hslot, hidle.symm⟩
    · obtain ⟨hwait, hnext⟩ := not_or.1 hidle
      have hless := waiters_drain htube' (hwaiters ▸ hwait) hnext (hsame.symm ▸ htube)
      rw [hwaiters] at hless
      exact absurd hless (Nat.lt_irrefl _)
  · rintro ⟨hst, other, ho, honame, hslot, hidle⟩
    obtain rfl : other = tube := Table.eq_of_key_eq hs.tubes ho ht (honame.trans hname.symm)
    have hstay : s.move job.id (·.makeReady) = s := hmove.2 ⟨hst, hslot⟩
    have hdrain : s.drain job.tube = s := by
      rw [← hname]
      refine drain_eq_self hs.tubes ht (hidle.symm.imp_right fun hpaused => ?_)
      exact (next?_eq_none_iff (hname ▸ htube) hslot).2 hpaused
    rw [enterReady, hstay, hdrain]

/-! ## What is left of a refusal -/

/-- A refused transition leaves no trace, unless it is the reservation of a job by its number for a
client that is not connected. That leaves none exactly if the job was ready and in its place. -/
theorem WellFormed.refused_traceless_iff (hs : s.WellFormed) {act : Transition}
    (hrefused : (s.attempt id act).1 = false) :
    (s.attempt id act).2 = s ↔ ∀ c job, act = .reserve c → s.isConnected c = false →
      s.job? id = some job → isReservable job = true → s.InPlace job := by
  cases act with
  | reserve c =>
    cases hj : s.job? id with
    | none =>
      have hnone : (s.reserveJob c id).2 = s := by simp [reserveJob, transition, hj]
      refine iff_of_true hnone fun _ _ _ _ hsome => ?_
      cases hsome
    | some job =>
      obtain rfl : job.id = id := Table.key_of_lookup hj
      cases hopen : isReservable job with
      | false =>
        have hclosed : (s.reserveJob c job.id).2 = s := by
          simp [reserveJob, transition, hj, hopen]
        refine iff_of_true hclosed fun _ _ _ _ hsame hreservable => ?_
        rw [← Option.some.inj hsame, hopen] at hreservable
        cases hreservable
      | true =>
        have hgone : s.isConnected c = false := by
          simpa [attempt, reserveJob, transition, hj, hopen] using hrefused
        have hback : (s.reserveJob c job.id).2 = s.enterReady job (·) := by
          simp [reserveJob, transition, hj, hopen, hgone]
        rw [attempt, hback, hs.enterReady_eq_self_iff hj]
        constructor
        · intro hplace _ _ _ _ hsame _
          exact Option.some.inj hsame ▸ hplace
        · exact fun hplace => hplace c job rfl hgone rfl hopen
  | enqueue | touch | giveBack | release | bury | delete | kick =>
    refine iff_of_true (transition_refused hrefused) fun c job hreserve => ?_
    cases hreserve

end Engine

namespace Broker

open Engine

/-- A job with a delay is put by a client that is then disconnected. -/
def leftDelayed : List Event :=
  [.connect, .command 1 (.put 0 5 60 1) (some [120]), .disconnect 1]

theorem refused_traceless_iff_leftDelayed :
    let s := ((start {}).after leftDelayed).engine
    s.WellFormed ∧ s.attempt 1 (.bury 1 0) = (false, s) ∧ (s.attempt 1 (.reserve 1)).1 = false ∧
    ((s.attempt 1 (.reserve 1)).2 = s ↔ ∀ c job, Transition.reserve 1 = .reserve c →
      s.isConnected c = false → s.job? 1 = some job → isReservable job = true →
      s.InPlace job) := by
  intro s
  have hs : s.WellFormed := ((Reachable.start {}).after leftDelayed).sound.listed.wellFormed
  have hbury : (s.attempt 1 (.bury 1 0)).1 = false := by decide
  have hreserve : (s.attempt 1 (.reserve 1)).1 = false := by decide
  exact ⟨hs, Prod.ext hbury ((hs.refused_traceless_iff hbury).2 nofun), hreserve,
    hs.refused_traceless_iff hreserve⟩

/-- A client that is closed is refused a delayed job, and the delay is over with that. -/
theorem refused_leftDelayed :
    let s := ((start {}).after leftDelayed).engine
    let t := (s.attempt 1 (.reserve 1)).2
    (s.attempt 1 (.reserve 1)).1 = false ∧ t ≠ s ∧
    s.jobs.map (·.state) = [.delayed 5000] ∧ t.jobs.map (·.state) = [.ready] ∧
    s.tubes.map (fun tube => (tube.ready, tube.delayed)) = [([], [⟨5000, 1⟩])] ∧
    t.tubes.map (fun tube => (tube.ready, tube.delayed)) = [([⟨0, 1⟩], [])] := by
  decide

example :
    let s := ((start {}).after
      [.connect, .command 1 (.put 0 0 60 1) (some [120]), .disconnect 1]).engine
    s.attempt 1 (.reserve 1) = (false, s) := by
  cbv

end Broker

end WorkQueue
