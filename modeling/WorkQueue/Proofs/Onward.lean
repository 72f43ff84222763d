import WorkQueue.Proofs.Holding
import WorkQueue.Proofs.Waking

/-!
# Nothing falls due at once

Whatever an event does, a state of a job that it begins and a pause that it starts end later than
now (`Engine.Onward`) : delays, times to run and pauses are never zero. So what is due after an
event was due before.

The same walk through the stages shows that the deadlines of all clients that hold a job are looked
after, and that every client that is not closed watches a tube (`Engine.Tended`).
-/

namespace WorkQueue

open Relation

namespace Engine

variable {s₀ s t u : Engine} {leaving who : Option ClientId} {job : Job} {f : Job → Job}

/-- What ends after the change ended before it at the same instant, or ends later than now. -/
structure Onward (s t : Engine) : Prop where
  now : s.now ≤ t.now
  jobs : ∀ job ∈ t.jobs, job ∈ s.jobs ∨ ∀ due, job.state.due? = some due → s.now < due
  pauses : ∀ tube ∈ t.tubes, ∀ due, tube.pausedUntil = some due →
    (∃ old ∈ s.tubes, old.name = tube.name ∧ old.pausedUntil = some due) ∨ s.now < due

/-- The deadlines of the clients that hold jobs are looked after, and clients watch tubes. -/
structure Tended (s : Engine) : Prop where
  deadlines : ∀ job ∈ s.jobs, ∀ c due, job.state = .reserved c due → c ∈ s.expiring
  watches : ∀ client ∈ s.clients, client.closed = false → client.watching ≠ []

theorem Onward.refl (s : Engine) : Onward s s :=
  ⟨Nat.le_refl _, fun _ hj => Or.inl hj, fun tube ht _ hdue => Or.inl ⟨tube, ht, rfl, hdue⟩⟩

theorem Onward.trans (h₁ : Onward s t) (h₂ : Onward t u) : Onward s u := by
  have hlate {due : Instant} (h : t.now < due) : s.now < due := Nat.lt_of_le_of_lt h₁.now h
  refine ⟨Nat.le_trans h₁.now h₂.now, fun job hj => ?_, fun tube ht due hdue => ?_⟩
  · rcases h₂.jobs job hj with hold | hnew
    · exact h₁.jobs job hold
    · exact Or.inr fun due hdue => hlate (hnew due hdue)
  · rcases h₂.pauses tube ht due hdue with ⟨mid, hmid, hname, hpause⟩ | hnew
    · rw [← hname]
      exact h₁.pauses mid hmid due hpause
    · exact Or.inr (hlate hnew)

/-- Pauses go off the record or stay, and no job gets a state that ends by now. -/
theorem Onward.of_eases (he : Eases s t) (hjobs : ∀ job ∈ t.jobs,
    job ∈ s.jobs ∨ ∀ due, job.state.due? = some due → s.now < due) : Onward s t := by
  refine ⟨Nat.le_of_eq he.now.symm, hjobs, fun tube ht due hdue => ?_⟩
  obtain ⟨old, hold, hname, hpause | hpause⟩ := he.pauses tube ht
  · exact Or.inl ⟨old, hold, hname.symm, hpause.symm.trans hdue⟩
  · exact nomatch hdue.symm.trans hpause

/-- A state on the way of an event, with what has been shown of it so far. -/
structure Going (s₀ s : Engine) : Prop where
  onward : Onward s₀ s
  tended : s.Tended

/-! ## Elementary changes -/

namespace Going

/-- Changes of no job, with pauses off the record or as before. -/
theorem of_eases (h : Going s₀ s) (he : Eases s t) (hjobs : t.jobs = s.jobs)
    (hclients : t.clients = s.clients) (hexpiring : t.expiring = s.expiring) : Going s₀ t :=
  ⟨h.onward.trans (.of_eases he fun _ hj => Or.inl (hjobs ▸ hj)),
    hexpiring ▸ hjobs ▸ h.tended.deadlines, hclients ▸ h.tended.watches⟩

theorem adjustTube (h : Going s₀ s) (name : TubeName) {f : Tube → Tube}
    (hf : ∀ tube, (f tube).name = tube.name ∧
      ((f tube).pausedUntil = tube.pausedUntil ∨ (f tube).pausedUntil = none)) :
    Going s₀ (s.adjustTube name f) :=
  h.of_eases (.adjustTube s name hf) rfl rfl rfl

theorem ensureTube (h : Going s₀ s) (name : TubeName) : Going s₀ (s.ensureTube name) := by
  unfold Engine.ensureTube
  split
  · exact h
  · have hstep : Onward s { s with tubes := s.tubes ++ [{ name := name }] } := by
      refine ⟨Nat.le_refl _, fun job hj => Or.inl hj, fun tube ht due hdue => ?_⟩
      rcases List.mem_append.1 ht with ht | ht
      · exact Or.inl ⟨tube, ht, rfl, hdue⟩
      · rw [List.mem_singleton.1 ht] at hdue
        cases hdue
    exact ⟨h.onward.trans hstep, h.tended.deadlines, h.tended.watches⟩

theorem adjustClient (h : Going s₀ s) (c : ClientId) {f : Client → Client}
    (hf : ∀ client ∈ s.clients, client.id = c → (f client).closed = false →
      (f client).watching ≠ []) : Going s₀ (s.adjustClient c f) := by
  refine ⟨h.onward.trans (.of_eases (.of_eq rfl rfl) fun _ => Or.inl), h.tended.deadlines,
    fun client hc hopen => ?_⟩
  rcases Table.mem_adjust.1 hc with ⟨old, hold, hid, rfl⟩ | ⟨hold, -⟩
  · exact hf old hold hid hopen
  · exact h.tended.watches client hold hopen

/-- A change of a client that goes on to watch the same tubes. -/
theorem markClient (h : Going s₀ s) (c : ClientId) {f : Client → Client}
    (hf : ∀ client, (f client).closed = client.closed ∧
      (f client).watching = client.watching) : Going s₀ (s.adjustClient c f) :=
  h.adjustClient c fun client hc _ hopen => (hf client).2 ▸
    h.tended.watches client hc ((hf client).1 ▸ hopen)

theorem finish (h : Going s₀ s) (q : Request) : Going s₀ (s.finish q) :=
  h.markClient q.client fun _ => ⟨rfl, rfl⟩

theorem expect (h : Going s₀ s) (c : ClientId) : Going s₀ (s.watchDeadlines c) := by
  have hmem {d : ClientId} (hd : d ∈ s.expiring) : d ∈ (s.watchDeadlines c).expiring :=
    mem_watchDeadlines.2 (Or.inr hd)
  rw [watchDeadlines_eq]
  exact ⟨h.onward.trans (.of_eases (.of_eq rfl rfl) fun _ => Or.inl),
    fun job hj d due hst => hmem (h.tended.deadlines job hj d due hst), h.tended.watches⟩

/-- A client whose deadlines are not looked after any more holds nothing. -/
theorem dropIdle (h : Going s₀ s) (hl : s.Listed) (c : ClientId) : Going s₀ (s.dropIdle c) := by
  unfold Engine.dropIdle
  split
  · next hidle =>
    refine ⟨h.onward.trans (.of_eases (.of_eq rfl rfl) fun _ => Or.inl),
      fun job hj d due hst => ?_, h.tended.watches⟩
    refine List.mem_filter.2 ⟨h.tended.deadlines job hj d due hst, decide_eq_true ?_⟩
    rintro rfl
    obtain ⟨client, rfl, hclient, -⟩ := client?_of_isConnected (hl.holders job hj d due hst)
    obtain ⟨hmem, -⟩ := (client?_eq_some_iff hl.clients).1 hclient
    have hheld : (⟨due, job.id⟩ : Slot) ∈ client.held :=
      (hl.held client hmem _).2 ⟨job, hj, rfl, hst⟩
    rw [hclient, Option.all_some, List.isEmpty_iff] at hidle
    rw [hidle] at hheld
    cases hheld
  · exact h

/-- A move to a state that does not end yet. A job only goes to a client whose deadlines are looked
after. -/
theorem move (h : Going s₀ s) (hj : s.job? job.id = some job) (htube : (f job).tube = job.tube)
    (hdue : ∀ due, (f job).state.due? = some due → s.now < due)
    (hholder : ∀ c due, (f job).state = .reserved c due → c ∈ s.expiring) :
    Going s₀ (s.move job.id f) := by
  have hstep : Onward s (s.move job.id f) := .of_eases (SamePosts.move s job.id f).eases fun x hx =>
    (of_mem_jobs_move hj htube hx).elim (fun he => Or.inr (he ▸ hdue)) fun hx => Or.inl hx.1
  refine ⟨h.onward.trans hstep, fun x hx c due hst => ?_, fun client hc hopen => ?_⟩
  · have hexpiring : (s.move job.id f).expiring = s.expiring := by rw [move_eq hj htube]
    rw [hexpiring]
    rcases of_mem_jobs_move hj htube hx with rfl | ⟨hx, -⟩
    · exact hholder c due hst
    · exact h.tended.deadlines x hx c due hst
  · rw [move_eq hj htube] at hc
    obtain ⟨old, hold, rfl⟩ := List.mem_map.1 hc
    obtain ⟨-, -, hclosed⟩ := rehold_frame job (f job) old
    have hwatching : (old.rehold job (f job)).watching = old.watching := by
      unfold Client.rehold Client.letGo Client.hold
      dsimp only
      split <;> split <;> rfl
    rw [hwatching]
    exact h.tended.watches old hold (hclosed ▸ hopen)

/-- A request is served with a ready job, and its client's deadlines are looked after. -/
theorem grant {name : TubeName} {q : Request} {id : JobId} (h : Going s₀ s)
    (hs : s.Coherent) (hsettled : ∀ job ∈ s.jobs, job.Settled) (m : s.Match name q id) :
    Going s₀ (s.grant q id) := by
  obtain ⟨job, hj, rfl, -, -⟩ := hs.listed.ready_of_next? m.next
  have hset := hsettled job ((job?_eq_some_iff hs.listed.jobs).1 hj).1
  have hpos : 0 < job.ttr := Nat.lt_of_lt_of_le (by decide) hset.ttr
  have hj' : ((s.finish q).watchDeadlines q.client).job? job.id = some job := by
    rw [watchDeadlines_eq]
    exact hj
  have hnow : ((s.finish q).watchDeadlines q.client).now = s.now := by
    rw [watchDeadlines_eq]
    rfl
  have hmove := ((h.finish q).expect q.client).move (f := (·.makeReserved s.now q.client)) hj' rfl
    (fun due hdue => by
      cases hdue
      exact hnow ▸ Nat.lt_add_of_pos_right hpos)
    (fun c due hst => by
      cases hst
      exact mem_watchDeadlines.2 (Or.inl rfl))
  rw [m.grant_eq hs.tracked, served, watchDeadlines_move (s := s.finish q) hj rfl]
  exact hmove.of_eases (.of_eq rfl rfl) rfl rfl rfl

/-- A tube that is woken is drained. -/
theorem drain {name : TubeName} (h : Going s₀ s) (hs : Sound leaving (some name) s) :
    Going s₀ (s.drain name) :=
  (hs.drain_keeping (fun _ _ _ hs h m => Going.grant h hs.toCoherent hs.settled m.toMatch)
    (fun _ _ h => h.adjustTube name fun _ => ⟨rfl, Or.inl rfl⟩) h).2

end Going

/-! ## Stages -/

/-- A job is shifted to a state that ends later than now, or does not end. -/
theorem due_of_shift (h : Shift s who job f) (hset : job.Settled) {due : Instant}
    (hdue : (f job).state.due? = some due) : s.now < due := by
  have hpos : 0 < job.ttr := Nat.lt_of_lt_of_le (by decide) hset.ttr
  cases h with
  | take | touch =>
    cases hdue
    exact Nat.lt_add_of_pos_right hpos
  | bury => cases hdue
  | postpone _ _ _ delay hdelay =>
    cases hdue
    exact Nat.lt_add_of_pos_right (Nat.pos_of_ne_zero hdelay)

theorem tended_of_shift (h : Shift s who job f) (ht : s.Tended) (hj : job ∈ s.jobs) {c : ClientId}
    {due : Instant} (hst : (f job).state = .reserved c due) : c ∈ s.expiring := by
  cases h with
  | take _ _ _ htended =>
    cases hst
    exact htended
  | touch _ hheld =>
    cases hst
    obtain ⟨due, hst⟩ := Job.isHeldBy_iff.1 hheld
    exact ht.deadlines job hj c due hst
  | bury => cases hst
  | postpone => cases hst

/-- A job that is put comes to be ready, or delayed for more than no time. -/
theorem Going.put (h : Going s₀ s) (hs : Sound leaving none s) {name : TubeName}
    (hname : name ∈ s.tubes.keys) (pri : Nat) (delay ttr : Millis) (body : Bytes) :
    Going s₀ (s.put name pri delay ttr body) := by
  have hj := job?_makeJob hs name pri delay ttr body
  have hmade : Going s₀ (s.makeJob name pri delay ttr body) := by
    have hcounted : Going s₀ (s.adjustTube name fun tube =>
        { tube with totalJobs := tube.totalJobs + 1 }) :=
      h.adjustTube name fun _ => ⟨rfl, Or.inl rfl⟩
    have hnew {x : Job} (hx : x ∈ (s.makeJob name pri delay ttr body).jobs) :
        x ∈ s.jobs ∨ x.state = .new := by
      rcases List.mem_append.1 hx with hx | hx
      · exact Or.inl hx
      · rw [List.mem_singleton.1 hx]
        exact Or.inr rfl
    refine ⟨hcounted.onward.trans (.of_eases (.of_eq rfl rfl) fun x hx => ?_),
      fun x hx c due hst => ?_, h.tended.watches⟩
    · exact (hnew hx).imp_right fun hst due hdue => by simp [hst, JobState.due?] at hdue
    · rcases hnew hx with hx | hnew
      · exact h.tended.deadlines x hx c due hst
      · cases hst.symm.trans hnew
  rw [put_eq hs]
  split
  · have hready := hmade.move (f := (·.makeReady)) hj rfl nofun nofun
    exact hready.drain (sound_makeJob_ready hs name pri delay ttr body hname)
  · next hdelay =>
    exact hmade.move (f := (·.makeDelayed s.now delay)) hj rfl
      (fun due hdue => by
        cases hdue
        exact Nat.lt_add_of_pos_right (Nat.pos_of_ne_zero hdelay)) nofun

namespace Going

/-- A pause that starts is not over. -/
theorem pause (h : Going s₀ s) (name : TubeName) (span : Millis) :
    Going s₀ (s.adjustTube name (·.startPause s.now span)) := by
  have hstep : Onward s (s.adjustTube name (·.startPause s.now span)) := by
    refine ⟨Nat.le_refl _, fun _ hj => Or.inl hj, fun tube ht due hdue => ?_⟩
    rcases Table.mem_adjust.1 ht with ⟨old, -, -, rfl⟩ | ⟨hold, -⟩
    · have hspan : 0 < max span Tube.minPause :=
        Nat.lt_of_lt_of_le (by decide) (Nat.le_max_right _ _)
      cases hdue
      exact Or.inr (Nat.lt_add_of_pos_right hspan)
    · exact Or.inl ⟨tube, hold, rfl, hdue⟩
  exact ⟨h.onward.trans hstep, h.tended.deadlines, h.tended.watches⟩

theorem resume (h : Going s₀ s) (hs : Sound leaving none s) (name : TubeName) :
    Going s₀ (s.resume name) := by
  unfold Engine.resume
  split
  · have hwaking : Sound leaving (some name) (s.adjustTube name ({ · with pausedUntil := none })) :=
      hs.wake.adjustTube name (fun _ => ⟨⟨rfl, rfl, rfl, rfl, rfl⟩, rfl⟩) fun hne => absurd rfl hne
    exact Going.drain (h.adjustTube name fun _ => ⟨rfl, Or.inr rfl⟩) hwaking
  · exact h

theorem discard (h : Going s₀ s) (hj : s.job? job.id = some job) : Going s₀ (s.discard job) := by
  have hmove := h.move (f := fun job => { job.makeDeleted with registered := false }) hj rfl
    nofun nofun
  rw [discard_eq hj]
  exact hmove.adjustTube job.tube fun _ => ⟨rfl, Or.inl rfl⟩

theorem openClient (h : Going s₀ s) : Going s₀ s.openClient := by
  have hused : Going s₀ (s.addUser .default) := h.adjustTube .default fun _ => ⟨rfl, Or.inl rfl⟩
  have hwatched : Going s₀ ((s.addUser .default).addWatcher .default) :=
    hused.adjustTube .default fun _ => ⟨rfl, Or.inl rfl⟩
  refine ⟨hwatched.onward.trans (.of_eases (.of_eq rfl rfl) fun _ => Or.inl),
    hwatched.tended.deadlines, fun client hc hopen => ?_⟩
  rcases List.mem_append.1 hc with hc | hc
  · exact h.tended.watches client hc hopen
  · rw [List.mem_singleton.1 hc]
    exact List.cons_ne_nil _ _

theorem useTube (h : Going s₀ s) (c : ClientId) (name : TubeName) :
    Going s₀ (s.useTube c name) := by
  unfold Engine.useTube
  split
  · next client _ =>
    have hadded : Going s₀ ((s.ensureTube name).addUser name) :=
      (h.ensureTube name).adjustTube name fun _ => ⟨rfl, Or.inl rfl⟩
    have hused : Going s₀ (((s.ensureTube name).addUser name).removeUser client.used) :=
      hadded.adjustTube client.used fun _ => ⟨rfl, Or.inl rfl⟩
    exact hused.markClient c fun _ => ⟨rfl, rfl⟩
  · exact h

theorem watch (h : Going s₀ s) (c : ClientId) (name : TubeName) : Going s₀ (s.watch c name) := by
  unfold Engine.watch
  dsimp only
  split
  · split
    · exact h.ensureTube name
    · have hadded : Going s₀ ((s.ensureTube name).addWatcher name) :=
        (h.ensureTube name).adjustTube name fun _ => ⟨rfl, Or.inl rfl⟩
      exact hadded.adjustClient c fun client _ _ _ => List.append_ne_nil_of_right_ne_nil _
        (List.cons_ne_nil _ _)
  · exact h.ensureTube name

/-- The last tube that a client watches is not ignored. -/
theorem ignore (h : Going s₀ s) (hs : Sound leaving none s) (c : ClientId) (name : TubeName) :
    Going s₀ (s.ignore c name) := by
  unfold Engine.ignore
  split
  · next client hc =>
    split
    · next hmore =>
      have hremoved : Going s₀ (s.removeWatcher name) :=
        h.adjustTube name fun _ => ⟨rfl, Or.inl rfl⟩
      refine hremoved.adjustClient c fun other hother hid _ hnil => ?_
      obtain ⟨hmem, rfl⟩ := (client?_eq_some_iff hs.listed.clients).1 hc
      obtain rfl := Table.eq_of_key_eq hs.listed.clients.nodup hother hmem hid
      rw [Bool.and_eq_true, List.contains_iff_mem, Bool.not_eq_true', watchesOnly, hc,
        Option.any_some] at hmore
      have hall : ∀ x ∈ other.watching, x = name := by simpa using hnil
      have honly : other.watching = [name] := by
        have hdistinct := hs.posted.distinct other hmem
        refine List.perm_singleton.1 ((List.perm_ext_iff_of_nodup hdistinct
          (List.nodup_singleton name)).2 fun x => ?_)
        rw [List.mem_singleton]
        exact ⟨hall x, fun he => he ▸ hmore.1⟩
      simp [honly] at hmore
    · exact h
  · exact h

theorem stage (h : Going s₀ s) (hst : Stage who s t) (hs : Sound leaving none s) :
    Going s₀ t := by
  cases hst with
  | @back _ f hj hr =>
    have hmove := h.move (f := fun job => (f job).makeReady) hj hr.alike.tube nofun nofun
    exact hmove.drain (hs.comeBack hj hr)
  | shift hj hr =>
    have hmem := ((job?_eq_some_iff hs.listed.jobs).1 hj).1
    exact h.move hj hr.alike.tube (fun _ => due_of_shift hr (hs.settled _ hmem))
      fun _ _ => tended_of_shift hr h.tended hmem
  | put client hc pri delay ttr body =>
    have hmem := ((client?_eq_some_iff hs.listed.clients).1 hc).1
    exact h.put hs (hs.posted.used client hmem) pri delay ttr body
  | discard hj => exact h.discard hj
  | resume name => exact h.resume hs name
  | pause name span => exact h.pause name span
  | connect => exact h.openClient
  | use c name => exact h.useTube c name
  | watch c name => exact h.watch c name
  | ignore c name => exact h.ignore hs c name
  | produce c => exact h.markClient c fun _ => ⟨rfl, rfl⟩
  | work c => exact h.markClient c fun _ => ⟨rfl, rfl⟩
  | expect c => exact h.expect c
  | dropIdle c => exact h.dropIdle hs.listed c

end Going

/-- A row of stages for a client that waits for nothing, or for nobody. -/
theorem Stages.going (hst : Stages who s t) (hs : Sound leaving none s) (ht : s.Tended)
    (hopen : ∀ q, s.isOpen q = true → some q.client ≠ who) : Going s t := by
  have hrow : Course who leaving s t ∧ Sound leaving none t ∧ Going s t := by
    induction hst with
    | refl => exact ⟨.refl hs.listed.jobs, hs, .refl s, ht⟩
    | tail _ hstep ih =>
      obtain ⟨hcourse, hsound, hgoing⟩ := ih
      have hkeeps := hstep.keeps hsound hcourse (fun _ => id) hopen
      exact ⟨hkeeps.2, hkeeps.1, hgoing.stage hstep hsound⟩
  exact hrow.2.2

/-! ## Passages -/

/-- A request that is made is served with a ready job, or it waits, or it is refused. -/
theorem Going.asked {client : Client} {timeout : Option Millis} (h : Going s₀ s)
    (hs : Sound none none s) (hc : s.client? client.id = some client)
    (hopen : client.closed = false) (ha : Asked s (s.newRequest client timeout) t) :
    Going s₀ t := by
  have hmarked : Going s₀ (s.adjustClient client.id fun client =>
      { client with tasks := client.tasks.start.2 }) := h.markClient client.id fun _ => ⟨rfl, rfl⟩
  have hmade : Going s₀ (s.openRequest (s.newRequest client timeout)) :=
    hmarked.of_eases (.of_eq rfl rfl) rfl rfl rfl
  cases ha with
  | served _ m => exact hmade.grant (coherent_openRequest hs hc hopen timeout) hs.settled m
  | refused => exact (hmade.finish _).of_eases (.of_eq rfl rfl) rfl rfl rfl
  | waiting =>
    exact List.foldlRecOn client.watching _ hmade fun _ h name _ =>
      h.adjustTube name fun _ => ⟨rfl, Or.inl rfl⟩

/-- The clock moves on, and the timers that go off answer requests. -/
theorem Going.tick (h : Going s₀ s) {i : Instant} (hi : s.now ≤ i) (requests : List Request) :
    Going s₀ (s.tick i requests) := by
  have hfired : Going s₀ (requests.foldl (fireTimer i) s) := by
    refine List.foldlRecOn requests _ h fun t ht q _ => ?_
    unfold fireTimer
    split
    · split
      · exact (ht.finish q).of_eases (.of_eq rfl rfl) rfl rfl rfl
      · exact ht
    · exact ht
  obtain ⟨hnow, -, -⟩ := foldl_fireTimer_frame i requests s
  have hstep : Onward (requests.foldl (fireTimer i) s) (s.tick i requests) :=
    ⟨Nat.le_trans (Nat.le_of_eq hnow) hi, fun _ hj => Or.inl hj,
      fun tube ht _ hdue => Or.inl ⟨tube, ht, rfl, hdue⟩⟩
  exact ⟨hfired.onward.trans hstep, hfired.tended.deadlines, hfired.tended.watches⟩

/-- A client that is closed gives up its requests and its jobs and watches nothing. -/
theorem Going.close {client : Client} (h : Going s₀ s) (hs : Sound none none s)
    (hc : s.client? client.id = some client) : Going s₀ (s.close client.id) := by
  have hdone : Going s₀ (s.finishAll client.id) := h.markClient client.id fun _ => ⟨rfl, rfl⟩
  have hsound := hs.finishAll client.id
  have hopen : ∀ q, (s.finishAll client.id).isOpen q = true → some q.client ≠ some client.id :=
    fun _ => ne_of_isOpen_finishAll
  have hgiven := (stages_giveBackAll client.id).going hsound hdone.tended hopen
  have hused : Going s₀
      (((s.finishAll client.id).giveBackAll client.id).removeUser client.used) :=
    Going.adjustTube ⟨hdone.onward.trans hgiven.onward, hgiven.tended⟩ client.used
      fun _ => ⟨rfl, Or.inl rfl⟩
  have hleft : Going s₀ (client.watching.foldl removeWatcher
      (((s.finishAll client.id).giveBackAll client.id).removeUser client.used)) :=
    List.foldlRecOn client.watching _ hused fun _ h name _ =>
      h.adjustTube name fun _ => ⟨rfl, Or.inl rfl⟩
  rw [close_eq hc]
  exact hleft.adjustClient client.id fun _ _ _ => nofun

theorem Passage.going {asks : Option (ClientId × Option Millis)} (h : Passage asks s t)
    (hs : Sound none none s) (ht : s.Tended) : Going s t := by
  have hrefl : Going s s := ⟨.refl s, ht⟩
  cases h with
  | stages hst => exact hst.going hs ht fun _ _ => nofun
  | act hst => exact hrefl.stage hst hs
  | @reserve c timeout _ hc =>
    obtain ⟨client, rfl, hclient, hopen⟩ := client?_of_isConnected hc
    obtain ⟨worker, -, hopen, hworker, hasked⟩ := reserve_passage hclient hopen timeout
    have hmarked : Going s (Broker.markWorker s client.id) :=
      hrefl.markClient client.id fun _ => ⟨rfl, rfl⟩
    exact hmarked.asked (sound_markWorker hs client.id) hworker hopen hasked
  | advance span => exact hrefl.tick (Nat.le_add_right _ _) _
  | close hc =>
    obtain ⟨client, rfl, hclient, -⟩ := client?_of_isConnected hc
    exact hrefl.close hs hclient

end Engine

namespace Broker

variable {b : Broker}

theorem Reachable.tended (h : Reachable b) : b.engine.Tended := by
  induction h with
  | start config => exact ⟨List.forall_mem_nil _, List.forall_mem_nil _⟩
  | step event h ih => exact ((step_passage _ event).going h.sound ih).tended
  | tick hi _ _ _ ih => exact (Engine.Going.tick ⟨.refl _, ih⟩ hi _).tended

theorem Reachable.onward (h : Reachable b) (event : Event) :
    Engine.Onward b.engine (b.step event).engine :=
  ((step_passage b event).going h.sound h.tended).onward

theorem Reachable.onward_after (h : Reachable b) (events : List Event) :
    Engine.Onward b.engine (b.after events).engine := by
  induction events generalizing b with
  | nil => exact .refl b.engine
  | cons event rest ih => exact (h.onward event).trans (ih (h.step event))

end Broker

end WorkQueue
