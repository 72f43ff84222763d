import WorkQueue.Proofs.Holding
import WorkQueue.Proofs.Posts

/-!
# Where the answers come from

An answer with a job comes from the tube of the job, and only while the tube is not paused. So
whatever an event does, its answers bring no job of a tube that was paused when it began
(`Broker.Reachable.withholds`). `Engine.AnswersFrom` tells of the tubes that answers come from, and
`Engine.Withholds` adds that no pause ends before its time.
-/

namespace WorkQueue

open Relation

namespace Engine

variable {s₀ s t : Engine} {leaving who : Option ClientId} {name : TubeName} {job : Job}
  {f : Job → Job} {source : TubeName → Prop}

/-! ## Paused tubes -/

/-- The end of the pause of a tube that is on record. -/
def pausedUntil? (s : Engine) (name : TubeName) : Option Instant :=
  (s.tube? name).bind (·.pausedUntil)

/-- Whether there is a tube of a name and it is paused. -/
def isPaused (s : Engine) (name : TubeName) : Bool :=
  (s.pausedUntil? name).any (s.now < ·)

theorem isPaused_iff : s.isPaused name = true ↔
    ∃ due, s.pausedUntil? name = some due ∧ s.now < due := by
  simp only [isPaused, Option.any_eq_true, decide_eq_true_eq]

theorem isPaused_of_next? {id : JobId} (h : s.next? name = some id) : s.isPaused name = false := by
  obtain ⟨tube, ht, hpaused, -⟩ := next?_eq_some_iff.1 h
  rw [isPaused, pausedUntil?, ht]
  exact hpaused

theorem pausedUntil?_eq_some_iff (hn : s.tubes.keys.Nodup) {due : Instant} :
    s.pausedUntil? name = some due ↔
      ∃ tube ∈ s.tubes, tube.name = name ∧ tube.pausedUntil = some due := by
  simp only [pausedUntil?, Option.bind_eq_some_iff, tube?_eq_some_iff hn, and_assoc]

theorem pausedUntil?_adjustTube_of_ne {other : TubeName} (hne : other ≠ name) {f : Tube → Tube}
    (hf : ∀ tube, (f tube).name = tube.name) :
    (s.adjustTube name f).pausedUntil? other = s.pausedUntil? other :=
  congrArg (Option.bind · _) (Table.lookup_adjust_ne s.tubes hne f fun tube => hf tube)

/-- A pause that has not run out stays on the record. -/
theorem SamePosts.pausedUntil?_eq (h : SamePosts s t) (hn : s.tubes.keys.Nodup) {due : Instant}
    (hdue : s.pausedUntil? name = some due) (hlate : s.now < due) :
    t.pausedUntil? name = some due := by
  obtain ⟨tube, ht, rfl, hpause⟩ := (pausedUntil?_eq_some_iff hn).1 hdue
  have hkey : tube.name ∈ t.tubes.keys := h.keys ▸ List.mem_map_of_mem ht
  obtain ⟨later, hlater, hname⟩ := List.mem_map.1 hkey
  have hname : later.name = tube.name := hname
  obtain ⟨old, hold, hstays⟩ := h.tubes later hlater
  obtain rfl := Table.eq_of_key_eq hn hold ht (hstays.name.symm.trans hname)
  refine (pausedUntil?_eq_some_iff (h.keys ▸ hn)).2 ⟨later, hlater, hname, ?_⟩
  rcases hstays.pause with hsame | ⟨hover, -⟩
  · exact hsame.trans hpause
  · simp only [Tube.pauseIsOver, hpause, Option.any_some, decide_eq_true_eq] at hover
    exact absurd hlate (Nat.not_lt_of_le hover)

/-- The tubes that are paused still are. -/
def PausesLast (s t : Engine) : Prop :=
  ∀ name, s.isPaused name = true → t.isPaused name = true

theorem PausesLast.refl (s : Engine) : PausesLast s s :=
  fun _ h => h

theorem PausesLast.trans {u : Engine} (h₁ : PausesLast s t) (h₂ : PausesLast t u) :
    PausesLast s u :=
  fun name h => h₂ name (h₁ name h)

theorem SamePosts.pausesLast (h : SamePosts s t) (hn : s.tubes.keys.Nodup) : PausesLast s t := by
  intro name hpaused
  obtain ⟨due, hdue, hlate⟩ := isPaused_iff.1 hpaused
  exact isPaused_iff.2 ⟨due, h.pausedUntil?_eq hn hdue hlate, h.now ▸ hlate⟩

/-- The pauses on record stay on it as they are. -/
def SamePauses (s t : Engine) : Prop :=
  ∀ name due, s.pausedUntil? name = some due → t.pausedUntil? name = some due

namespace SamePauses

theorem refl (s : Engine) : SamePauses s s :=
  fun _ _ h => h

theorem trans {u : Engine} (h₁ : SamePauses s t) (h₂ : SamePauses t u) : SamePauses s u :=
  fun name due h => h₂ name due (h₁ name due h)

theorem last (h : SamePauses s t) (hnow : t.now = s.now) : PausesLast s t := by
  intro name hpaused
  obtain ⟨due, hdue, hlate⟩ := isPaused_iff.1 hpaused
  exact isPaused_iff.2 ⟨due, h name due hdue, hnow ▸ hlate⟩

theorem of_tubes (htubes : t.tubes = s.tubes) : SamePauses s t := by
  intro name due hdue
  rwa [pausedUntil?, tube?, htubes]

/-- A change of a tube that is not one of its pause. -/
theorem adjustTube (s : Engine) (name : TubeName) {f : Tube → Tube}
    (hf : ∀ tube, (f tube).name = tube.name ∧ (f tube).pausedUntil = tube.pausedUntil) :
    SamePauses s (s.adjustTube name f) := by
  intro other due hdue
  by_cases hother : other = name
  · subst hother
    obtain ⟨tube, ht, hpause⟩ := Option.bind_eq_some_iff.1 hdue
    have hself := Table.lookup_adjust_self s.tubes other f fun tube => (hf tube).1
    refine Option.bind_eq_some_iff.2 ⟨f tube, ?_, (hf tube).2.trans hpause⟩
    exact hself.trans (congrArg (Option.map f) ht)
  · exact (pausedUntil?_adjustTube_of_ne hother fun tube => (hf tube).1).trans hdue

theorem ensureTube (s : Engine) (name : TubeName) : SamePauses s (s.ensureTube name) := by
  unfold Engine.ensureTube
  split
  · exact refl s
  · intro other due hdue
    obtain ⟨tube, ht, hpause⟩ := Option.bind_eq_some_iff.1 hdue
    refine Option.bind_eq_some_iff.2 ⟨tube, ?_, hpause⟩
    exact List.find?_append.trans (by rw [show s.tubes.find? _ = some tube from ht]; rfl)

theorem addUser (s : Engine) (name : TubeName) : SamePauses s (s.addUser name) :=
  adjustTube s name fun _ => ⟨rfl, rfl⟩

theorem removeUser (s : Engine) (name : TubeName) : SamePauses s (s.removeUser name) :=
  adjustTube s name fun _ => ⟨rfl, rfl⟩

theorem addWatcher (s : Engine) (name : TubeName) : SamePauses s (s.addWatcher name) :=
  adjustTube s name fun _ => ⟨rfl, rfl⟩

theorem removeWatcher (s : Engine) (name : TubeName) : SamePauses s (s.removeWatcher name) :=
  adjustTube s name fun _ => ⟨rfl, rfl⟩

theorem openClient (s : Engine) : SamePauses s s.openClient :=
  ((addUser s .default).trans (addWatcher _ .default)).trans (of_tubes rfl)

theorem useTube (s : Engine) (c : ClientId) (name : TubeName) :
    SamePauses s (s.useTube c name) := by
  unfold Engine.useTube
  split
  · next client _ =>
    have husers := (ensureTube s name).trans ((addUser _ name).trans (removeUser _ client.used))
    exact husers.trans (of_tubes rfl)
  · exact refl s

theorem watch (s : Engine) (c : ClientId) (name : TubeName) : SamePauses s (s.watch c name) := by
  refine (ensureTube s name).trans ?_
  unfold Engine.watch
  dsimp only
  split
  · split
    · exact refl _
    · exact (addWatcher _ name).trans (of_tubes rfl)
  · exact refl _

theorem ignore (s : Engine) (c : ClientId) (name : TubeName) : SamePauses s (s.ignore c name) := by
  unfold Engine.ignore
  split
  · split
    · exact (removeWatcher s name).trans (of_tubes rfl)
    · exact refl s
  · exact refl s

theorem depart (s : Engine) (client : Client) : SamePauses s (s.depart client) := by
  have hwatchers (names : List TubeName) (t : Engine) :
      SamePauses t (names.foldl Engine.removeWatcher t) :=
    List.foldlRecOn names Engine.removeWatcher (refl t) fun u hu name _ =>
      hu.trans (removeWatcher u name)
  exact ((removeUser s client.used).trans (hwatchers client.watching _)).trans (of_tubes rfl)

end SamePauses

theorem pausedUntil?_startPause (h : (s.tube? name).isSome = true) (span : Millis) :
    (s.adjustTube name (·.startPause s.now span)).pausedUntil? name =
      some (s.now + max span Tube.minPause) := by
  obtain ⟨tube, ht⟩ := Option.isSome_iff_exists.1 h
  have hself := Table.lookup_adjust_self s.tubes name (·.startPause s.now span) fun _ => by rfl
  refine Option.bind_eq_some_iff.2 ⟨tube.startPause s.now span, ?_, rfl⟩
  exact hself.trans (congrArg (Option.map _) ht)

/-- A tube that is paused once more is paused still. -/
theorem pausesLast_startPause (s : Engine) (name : TubeName) (span : Millis) :
    PausesLast s (s.adjustTube name (·.startPause s.now span)) := by
  intro other hpaused
  obtain ⟨due, hdue, hlate⟩ := isPaused_iff.1 hpaused
  by_cases hother : other = name
  · subst hother
    obtain ⟨tube, ht, -⟩ := Option.bind_eq_some_iff.1 hdue
    refine isPaused_iff.2 ⟨_, pausedUntil?_startPause (Option.isSome_of_eq_some ht) span, ?_⟩
    exact Nat.lt_add_of_pos_right (Nat.lt_of_lt_of_le (by decide) (Nat.le_max_right ..))
  · have hsame := pausedUntil?_adjustTube_of_ne (s := s) hother
      (f := (·.startPause s.now span)) fun _ => rfl
    exact isPaused_iff.2 ⟨due, hsame.trans hdue, hlate⟩

/-! ## The tubes that answers come from -/

/-- The answers between two states bring jobs of certain tubes only. -/
def AnswersFrom (source : TubeName → Prop) (s₀ s : Engine) : Prop :=
  ∃ fresh, s.deliveries = s₀.deliveries ++ fresh ∧ ∀ d ∈ fresh, ∀ id, d.outcome = .reserved id →
    ∃ job ∈ s.jobs, job.id = id ∧ source job.tube

namespace AnswersFrom

theorem refl (s : Engine) : AnswersFrom source s s :=
  ⟨[], (List.append_nil _).symm, List.forall_mem_nil _⟩

/-- Changes in which jobs keep their tubes, with answers that bring no job or without answers. -/
theorem of_jobs (h : AnswersFrom source s₀ s)
    (hjobs : ∀ job ∈ s.jobs, ∃ x ∈ t.jobs, x.id = job.id ∧ x.tube = job.tube)
    (hdel : ∃ more, t.deliveries = s.deliveries ++ more ∧ ∀ d ∈ more, ∀ id,
      d.outcome ≠ .reserved id) : AnswersFrom source s₀ t := by
  obtain ⟨fresh, hd, hfresh⟩ := h
  obtain ⟨more, hmore, hnone⟩ := hdel
  refine ⟨fresh ++ more, by rw [hmore, hd, List.append_assoc], fun d hmem id hout => ?_⟩
  rcases List.mem_append.1 hmem with hmem | hmem
  · obtain ⟨job, hj, rfl, hsource⟩ := hfresh d hmem id hout
    obtain ⟨x, hx, hid, htube⟩ := hjobs job hj
    exact ⟨x, hx, hid, htube ▸ hsource⟩
  · exact absurd hout (hnone d hmem id)

theorem of_eq (h : AnswersFrom source s₀ s) (hjobs : t.jobs = s.jobs)
    (hdel : t.deliveries = s.deliveries) : AnswersFrom source s₀ t :=
  h.of_jobs (fun job hj => ⟨job, hjobs ▸ hj, rfl, rfl⟩)
    ⟨[], by rw [hdel, List.append_nil], List.forall_mem_nil _⟩

theorem move (h : AnswersFrom source s₀ s) (hn : s.jobs.Numbered)
    (hj : s.job? job.id = some job) (hid : (f job).id = job.id)
    (htube : (f job).tube = job.tube) : AnswersFrom source s₀ (s.move job.id f) := by
  obtain ⟨hmem, -⟩ := (job?_eq_some_iff hn).1 hj
  have hdel := (move_frame s job.id f).2.2
  refine h.of_jobs (fun x hx => ?_) ⟨[], by rw [hdel, List.append_nil], List.forall_mem_nil _⟩
  by_cases hsame : x.id = job.id
  · obtain rfl := Table.eq_of_key_eq hn.nodup hx hmem hsame
    refine ⟨f x, ?_, hid, htube⟩
    rw [move_eq hj htube]
    exact Table.mem_adjust.2 (Or.inl ⟨x, hx, rfl, rfl⟩)
  · exact ⟨x, mem_jobs_move_of_ne hj htube hx hsame, rfl, rfl⟩

/-- A request is served with a job of its tube. -/
theorem grant {q : Request} {id : JobId} (h : AnswersFrom source s₀ s) (hc : s.Coherent)
    (m : s.Match name q id) (hsource : source name) : AnswersFrom source s₀ (s.grant q id) := by
  obtain ⟨job, hj, rfl, rfl, -⟩ := hc.listed.ready_of_next? m.next
  obtain ⟨hmem, -⟩ := (job?_eq_some_iff hc.listed.jobs).1 hj
  obtain ⟨-, hjobs, -⟩ := m.grant_tables hc.tracked
  have hfinish : AnswersFrom source s₀ (s.finish q) := h.of_eq rfl rfl
  obtain ⟨fresh, hd, hfresh⟩ := hfinish.move (f := (·.makeReserved s.now q.client))
    hc.listed.jobs hj rfl rfl
  have hdel := (move_frame (s.finish q) job.id (·.makeReserved s.now q.client)).2.2
  rw [hdel] at hd
  have hd : s.deliveries = s₀.deliveries ++ fresh := hd
  refine ⟨fresh ++ [⟨q.id, .reserved job.id, s.now⟩],
    by rw [m.deliveries hc, hd, List.append_assoc], fun d hmem' id hout => ?_⟩
  rw [hjobs]
  rcases List.mem_append.1 hmem' with hmem' | hmem'
  · exact hfresh d hmem' id hout
  · rw [List.mem_singleton.1 hmem'] at hout
    obtain rfl := Outcome.reserved.inj hout
    refine ⟨job.makeReserved s.now q.client, ?_, rfl, hsource⟩
    rw [move_eq (s := s.finish q) hj rfl]
    exact Table.mem_adjust.2 (Or.inl ⟨job, hmem, rfl, rfl⟩)

/-- A tube that is woken is drained, unless it is paused. -/
theorem drain (h : AnswersFrom source s₀ s) (hs : Sound leaving (some name) s)
    (hsource : s.isPaused name = false → source name) :
    AnswersFrom source s₀ (s.drain name) := by
  refine (hs.drain_keeping
    (R := fun u => AnswersFrom source s₀ u ∧ (s.isPaused name = true → u.isPaused name = true))
    (fun u q id hu hr m => ?_) (fun u rest hr => ?_) ⟨h, fun hon => hon⟩).2.1
  · have hfree : s.isPaused name = false := eq_false_of_ne_true fun hon => by
      have hpaused := hr.2 hon
      rw [isPaused_of_next? m.next] at hpaused
      cases hpaused
    exact ⟨hr.1.grant hu.toCoherent m.toMatch (hsource hfree), fun hon =>
      (SamePosts.grant u q id).pausesLast hu.listed.tubes name (hr.2 hon)⟩
  · exact ⟨hr.1.of_eq rfl rfl, fun hon =>
      (SamePauses.adjustTube u name (f := ({ · with waiters := rest }))
        fun _ => ⟨rfl, rfl⟩).last rfl name (hr.2 hon)⟩

end AnswersFrom

/-! ## What a stage does -/

/-- No pause ends before its time, and no answer brings a job of a tube that was paused. -/
structure Withholds (s₀ s : Engine) : Prop where
  pauses : PausesLast s₀ s
  answers : AnswersFrom (fun name => s₀.isPaused name = false) s₀ s

namespace Withholds

theorem refl (s : Engine) : Withholds s s :=
  ⟨.refl s, .refl s⟩

theorem of_eq (h : Withholds s₀ s) (hp : PausesLast s t) (hjobs : t.jobs = s.jobs)
    (hdel : t.deliveries = s.deliveries) : Withholds s₀ t :=
  ⟨h.pauses.trans hp, h.answers.of_eq hjobs hdel⟩

theorem same (h : Withholds s₀ s) (hp : SamePauses s t) (ha : Aside s t) : Withholds s₀ t :=
  h.of_eq (hp.last ha.now) ha.jobs ha.deliveries

theorem free (h : Withholds s₀ s) (hfree : s.isPaused name = false) :
    s₀.isPaused name = false :=
  eq_false_of_ne_true fun hon => by
    rw [h.pauses name hon] at hfree
    cases hfree

theorem move (h : Withholds s₀ s) (hs : Steady leaving none s) (hj : s.job? job.id = some job)
    (hid : (f job).id = job.id) (htube : (f job).tube = job.tube) :
    Withholds s₀ (s.move job.id f) :=
  ⟨h.pauses.trans ((SamePosts.move s job.id f).pausesLast hs.listed.tubes),
    h.answers.move hs.listed.jobs hj hid htube⟩

theorem grant {q : Request} {id : JobId} (h : Withholds s₀ s) (hc : s.Coherent)
    (m : s.Match name q id) : Withholds s₀ (s.grant q id) :=
  ⟨h.pauses.trans ((SamePosts.grant s q id).pausesLast hc.listed.tubes),
    h.answers.grant hc m (h.free (isPaused_of_next? m.next))⟩

theorem drain (h : Withholds s₀ s) (hs : Sound leaving (some name) s) :
    Withholds s₀ (s.drain name) :=
  ⟨h.pauses.trans ((SamePosts.drain s name).pausesLast hs.listed.tubes), h.answers.drain hs h.free⟩

end Withholds

theorem withholds_put (hs : Sound leaving none s) (h : Withholds s₀ s)
    (hname : name ∈ s.tubes.keys) (pri : Nat) (delay ttr : Millis) (body : Bytes) :
    Withholds s₀ (s.put name pri delay ttr body) := by
  have hj := job?_makeJob hs name pri delay ttr body
  have hcourse : Course none leaving s s := .refl hs.listed.jobs
  obtain ⟨hsteady, -, -⟩ := makeJob_keeps hs name pri delay ttr body hcourse hname
  have hmade : Withholds s₀ (s.makeJob name pri delay ttr body) := by
    refine ⟨h.pauses.trans ?_, h.answers.of_jobs
      (fun job hj => ⟨job, List.mem_append_left _ hj, rfl, rfl⟩)
      ⟨[], (List.append_nil _).symm, List.forall_mem_nil _⟩⟩
    exact ((SamePauses.adjustTube s name
      (f := fun tube => { tube with totalJobs := tube.totalJobs + 1 }) fun _ => ⟨rfl, rfl⟩).trans
      (.of_tubes rfl)).last rfl
  rw [put_eq hs]
  split
  · exact (hmade.move (f := (·.makeReady)) hsteady hj rfl rfl).drain
      (sound_makeJob_ready hs name pri delay ttr body hname)
  · exact hmade.move (f := (·.makeDelayed s.now delay)) hsteady hj rfl rfl

/-- Only a pause that has run out is taken off the record. -/
theorem withholds_resume (hs : Sound leaving none s) (h : Withholds s₀ s) (name : TubeName) :
    Withholds s₀ (s.resume name) := by
  have hlast := (SamePosts.resume s name hs.listed.tubes).pausesLast hs.listed.tubes
  refine ⟨h.pauses.trans hlast, ?_⟩
  unfold resume
  split
  · next hover =>
    have hfree : s.isPaused name = false := by
      obtain ⟨tube, ht, hover⟩ := (Option.any_eq_true _ _).1 hover
      obtain ⟨due, hdue, hpast⟩ := (Option.any_eq_true _ _).1 hover
      simpa [isPaused, pausedUntil?, ht, hdue] using of_decide_eq_true hpast
    have hwaking : Sound leaving (some name) (s.adjustTube name ({ · with pausedUntil := none })) :=
      hs.wake.adjustTube name (fun _ => ⟨⟨rfl, rfl, rfl, rfl, rfl⟩, rfl⟩) fun hne => absurd rfl hne
    have hcut : AnswersFrom (fun name => s₀.isPaused name = false) s₀
        (s.adjustTube name ({ · with pausedUntil := none })) := h.answers.of_eq rfl rfl
    exact hcut.drain hwaking fun _ => h.free hfree
  · exact h.answers

/-- No stage takes a job from a tube that is paused. -/
theorem Stage.withholds (hst : Stage who s t) (hs : Sound leaving none s) (h : Withholds s₀ s) :
    Withholds s₀ t := by
  cases hst with
  | @back job f hj hr =>
    have hmove := h.move (f := fun job => (f job).makeReady) hs.toSteady hj hr.alike.id
      hr.alike.tube
    exact hmove.drain (hs.comeBack hj hr)
  | shift hj hr => exact h.move hs.toSteady hj hr.alike.id hr.alike.tube
  | put client hc pri delay ttr body =>
    have hused := hs.posted.used client (Table.mem_of_lookup hc)
    exact withholds_put hs h hused pri delay ttr body
  | @discard job hj _ _ =>
    rw [discard_eq hj]
    have hmove := h.move (f := fun job => { job.makeDeleted with registered := false })
      hs.toSteady hj rfl rfl
    have hcount := SamePauses.adjustTube
      (s.move job.id fun job => { job.makeDeleted with registered := false }) job.tube
      (f := fun tube => { tube with cmdDelete := tube.cmdDelete + 1 }) fun _ => ⟨rfl, rfl⟩
    exact hmove.of_eq (hcount.last rfl) rfl rfl
  | resume name => exact withholds_resume hs h name
  | pause name span => exact h.of_eq (pausesLast_startPause s name span) rfl rfl
  | connect => exact h.of_eq ((SamePauses.openClient s).last rfl) rfl rfl
  | use c name => exact h.same (.useTube s c name) (aside_useTube s c name)
  | watch c name => exact h.same (.watch s c name) (aside_watch s c name)
  | ignore c name => exact h.same (.ignore s c name) (aside_ignore s c name)
  | produce c => exact h.of_eq ((SamePauses.of_tubes rfl).last rfl) rfl rfl
  | work c => exact h.of_eq ((SamePauses.of_tubes rfl).last rfl) rfl rfl
  | expect c =>
    rw [watchDeadlines_eq]
    exact h.of_eq ((SamePauses.of_tubes rfl).last rfl) rfl rfl
  | dropIdle c =>
    unfold Engine.dropIdle
    split
    · exact h.of_eq ((SamePauses.of_tubes rfl).last rfl) rfl rfl
    · exact h

theorem Stages.withholds (hst : Stages who s t) (hs : Sound leaving none s)
    (hopen : ∀ q, s.isOpen q = true → some q.client ≠ who) (h : Withholds s₀ s) :
    Withholds s₀ t := by
  induction hst with
  | refl => exact h
  | tail hsteps hstep ih =>
    exact hstep.withholds (Stages.keeps hsteps hs (.refl hs.listed.jobs) hopen).1 ih

/-! ## What an event does -/

theorem Asked.withholds {client : Client} {timeout : Option Millis} (hs : Sound none none s)
    (hc : s.client? client.id = some client) (hopen : client.closed = false)
    (ha : Asked s (s.newRequest client timeout) t) (h : Withholds s₀ s) : Withholds s₀ t := by
  have hmade : Withholds s₀ (s.openRequest (s.newRequest client timeout)) :=
    h.of_eq ((SamePauses.of_tubes rfl).last rfl) rfl rfl
  cases ha with
  | served _ m => exact hmade.grant (coherent_openRequest hs hc hopen timeout) m
  | refused =>
    refine ⟨hmade.pauses, hmade.answers.of_jobs (fun job hj => ⟨job, hj, rfl, rfl⟩)
      ⟨_, rfl, fun d hd id => ?_⟩⟩
    rw [List.mem_singleton.1 hd]
    exact Outcome.noConfusion
  | waiting =>
    have hp := (SamePosts.enqueueWaiters s.nextRequest client.watching
      (s.openRequest (s.newRequest client timeout))).pausesLast hs.listed.tubes
    refine hmade.of_eq hp ?_ ?_
    all_goals
      rw [waiting_eq hs hc]
      rfl

theorem withholds_close {client : Client} (hs : Sound none none s)
    (hc : s.client? client.id = some client) : AnswersFrom (fun name => s.isPaused name = false) s
      (s.close client.id) := by
  have hdone := hs.finishAll client.id
  have hopen : ∀ q, (s.finishAll client.id).isOpen q = true → some q.client ≠ some client.id :=
    fun _ => ne_of_isOpen_finishAll
  have hgiven := (stages_giveBackAll client.id).withholds hdone hopen (.refl _)
  obtain ⟨hsound, -⟩ := (stages_giveBackAll client.id).keeps hdone (.refl hdone.listed.jobs) hopen
  obtain ⟨-, haside⟩ := leave_tubes client.watching (hsound.removeUser client.used)
  rw [close_eq hc]
  exact hgiven.answers.of_eq haside.jobs haside.deliveries

/-- No event brings a job of a tube that is paused. -/
theorem Passage.withholds {asks : Option (ClientId × Option Millis)} (hp : Passage asks s t)
    (hs : Sound none none s) : AnswersFrom (fun name => s.isPaused name = false) s t := by
  cases hp with
  | stages hst => exact (hst.withholds hs (fun _ _ => nofun) (.refl s)).answers
  | act hst => exact (hst.withholds hs (.refl s)).answers
  | @reserve c timeout _ hc =>
    obtain ⟨client, rfl, hclient, hopen⟩ := client?_of_isConnected hc
    obtain ⟨worker, -, hopen, hworker, hasked⟩ := reserve_passage hclient hopen timeout
    have hmarked : Withholds s (Broker.markWorker s client.id) :=
      (Withholds.refl s).of_eq ((SamePauses.of_tubes rfl).last rfl) rfl rfl
    exact (hasked.withholds (sound_markWorker hs client.id) hworker hopen hmarked).answers
  | advance span =>
    obtain ⟨fresh, hd, hfresh⟩ := (advance_keeps hs span).2.answers
    have hjobs := (foldl_fireTimer_frame (s.now + span) s.requests s).2.1
    refine (AnswersFrom.refl s).of_jobs (fun job hj => ⟨job, hjobs ▸ hj, rfl, rfl⟩)
      ⟨fresh, hd, fun d hmem => ?_⟩
    obtain ⟨-, -, -, -, hout⟩ := hfresh d hmem
    exact hout
  | close hc =>
    obtain ⟨client, rfl, hclient, -⟩ := client?_of_isConnected hc
    exact withholds_close hs hclient

end Engine

namespace Broker

theorem Reachable.withholds {b : Broker} (h : Reachable b) (event : Event) :
    Engine.AnswersFrom (fun name => b.engine.isPaused name = false) b.engine
      (b.step event).engine :=
  (step_passage b event).withholds h.sound

end Broker

end WorkQueue
