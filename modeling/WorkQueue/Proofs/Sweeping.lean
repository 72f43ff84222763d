import WorkQueue.Proofs.Counting
import WorkQueue.Proofs.Onward

/-!
# What the sweeps leave

An expiry sweep leaves no job overdue (`Engine.unexpired_sweep`) : whoever holds one is looked
after, and what is granted during the sweep falls due later. A delayed sweep that promotes nothing
leaves no job due (`Engine.promoted_delayedSweep`). One that promotes something leaves fewer jobs
due than before (`Engine.dueCount_delayedSweep`), so it cannot go on for ever.
-/

namespace WorkQueue

open Relation

namespace Engine

variable {s t u : Engine}

/-- A sound state whose clients are tended to. -/
structure Whole (s : Engine) : Prop where
  sound : Sound none none s
  tended : s.Tended

/-- A later state of the same instant. -/
structure Later (s t : Engine) : Prop where
  whole : t.Whole
  now : t.now = s.now
  onward : Onward s t

theorem Later.refl (h : s.Whole) : Later s s :=
  ⟨h, rfl, .refl s⟩

theorem Later.trans (h₁ : Later s t) (h₂ : Later t u) : Later s u :=
  ⟨h₂.whole, h₂.now.trans h₁.now, h₁.onward.trans h₂.onward⟩

theorem Stages.later (hst : Stages none s t) (h : s.Whole) : Later s t := by
  have hgoing := hst.going h.sound h.tended fun _ _ => nofun
  obtain ⟨ht, hcourse⟩ := hst.keeps h.sound (.refl h.sound.listed.jobs) fun _ _ => nofun
  exact ⟨⟨ht, hgoing.tended⟩, hcourse.now, hgoing.onward⟩

/-- A job whose state has ended has been in that state before. -/
theorem Later.old (h : Later s t) {job : Job} (hj : job ∈ t.jobs) {due : Instant}
    (hdue : job.state.due? = some due) (hle : due ≤ t.now) : job ∈ s.jobs :=
  (h.onward.jobs job hj).resolve_right fun hnew =>
    Nat.not_le_of_lt (hnew due hdue) (h.now ▸ hle)

/-! ## Rows of operations -/

theorem le_foldl {α β : Type} (count : β → Nat) (go : Engine → α → β × Engine) (as : List α)
    (n : Nat) (s : Engine) : n ≤ (as.foldl (fun total a =>
      (total.1 + count (go total.2 a).1, (go total.2 a).2)) (n, s)).1 :=
  foldl_counted (R := fun i _ => n ≤ i) count (fun _ _ _ h => Nat.le_add_right_of_le h) as
    (Nat.le_refl n)

/-- What an operation does for one thing is done for all of them in the end, if it lasts. What is
counted for one is not more than the total. -/
theorem foldl_done {α β : Type} (count : β → Nat) {go : Engine → α → β × Engine}
    {Q : α → Engine → Prop} {k : Nat} (hgo : ∀ s a, Stages none s (go s a).2)
    (hdone : ∀ s a, s.Whole → count (go s a).1 ≤ k → Q a (go s a).2)
    (hlasts : ∀ s t a, Later s t → Q a s → Q a t) (as : List α) (n : Nat) (hs : s.Whole)
    (hk : (as.foldl (fun total a =>
      (total.1 + count (go total.2 a).1, (go total.2 a).2)) (n, s)).1 ≤ k) :
    ∀ a ∈ as, Q a (as.foldl (fun total a =>
      (total.1 + count (go total.2 a).1, (go total.2 a).2)) (n, s)).2 := by
  induction as generalizing n s with
  | nil => exact nofun
  | cons first rest ih =>
    have hfirst : (go s first).2.Whole := ((hgo s first).later hs).whole
    intro a ha
    rcases List.mem_cons.1 ha with rfl | ha
    · have hcount : count (go s a).1 ≤ k :=
        Nat.le_trans (Nat.le_add_left _ n) (Nat.le_trans (le_foldl count go rest _ _) hk)
      exact hlasts _ _ a ((stages_foldl count hgo rest _ _).later hfirst) (hdone s a hs hcount)
    · exact ih _ hfirst hk a ha

/-! ## Jobs that are up -/

/-- No job of a number passes a test at the present instant. -/
def Cleared (up : Instant → Job → Bool) (id : JobId) (s : Engine) : Prop :=
  ∀ job ∈ s.jobs, job.id = id → up s.now job = false

section Up

variable {up : Instant → Job → Bool}
  (hup : ∀ now job, up now job = true → ∃ due, job.state.due? = some due ∧ due ≤ now)

include hup

theorem Cleared.onward {id : JobId} (h : Cleared up id s) (ho : Onward s t)
    (hnow : t.now = s.now) : Cleared up id t := by
  intro job hj hid
  rcases ho.jobs job hj with hold | hnew
  · exact hnow ▸ h job hold hid
  · refine Bool.eq_false_iff.2 fun hpass => ?_
    obtain ⟨due, hdue, hle⟩ := hup t.now job hpass
    exact Nat.not_le_of_lt (hnew due hdue) (hnow ▸ hle)

/-- A transition back to ready is refused only to a job that is not up. -/
theorem cleared_transition {f : Job → Job} (hs : s.Whole)
    (hr : ∀ job, up s.now job = true → Return s.now none job f) (id : JobId) :
    Cleared up id (s.transition id (up s.now) fun job => s.enterReady job f).2 := by
  refine transition_cases (fun hrefused job hj hid => ?_) fun job hj hid hpass => ?_
  · exact hrefused job ((job?_eq_some_iff hs.sound.listed.jobs).2 ⟨hj, hid⟩)
  · have hreturn := hr job hpass
    have hmove : Going s (s.move job.id fun job => (f job).makeReady) :=
      Going.move ⟨.refl s, hs.tended⟩ hj hreturn.alike.tube nofun nofun
    have hdrain := Going.drain ⟨.refl _, hmove.tended⟩ (hs.sound.comeBack hj hreturn)
    have hmoved : Cleared up id (s.move job.id fun job => (f job).makeReady) := by
      intro x hx hxid
      rcases of_mem_jobs_move (f := fun job => (f job).makeReady) hj hreturn.alike.tube hx with
        rfl | ⟨-, hne⟩
      · refine Bool.eq_false_iff.2 fun hready => ?_
        obtain ⟨due, hdue, -⟩ := hup _ _ hready
        cases hdue
      · exact absurd (hxid.trans hid.symm) hne
    exact hmoved.onward hup hdrain.onward (SamePosts.drain _ job.tube).now

end Up

theorem due_of_isDue (now : Instant) (job : Job) (h : isDue now job = true) :
    ∃ due, job.state.due? = some due ∧ due ≤ now := by
  unfold isDue at h
  split at h
  · next due hst => exact ⟨due, by rw [hst]; rfl, of_decide_eq_true h⟩
  · cases h

theorem due_of_isOverdue (now : Instant) (job : Job) (h : isOverdue now job = true) :
    ∃ due, job.state.due? = some due ∧ due ≤ now := by
  unfold isOverdue at h
  split at h
  · next due hst => exact ⟨due, by rw [hst]; rfl, of_decide_eq_true h⟩
  · cases h

theorem cleared_promote (hs : s.Whole) (id : JobId) : Cleared isDue id (s.promote id).2 :=
  cleared_transition due_of_isDue hs (fun _ => .promote) id

theorem cleared_expire (hs : s.Whole) (id : JobId) : Cleared isOverdue id (s.expire id).2 :=
  cleared_transition due_of_isOverdue hs (fun _ => .expire) id

/-! ## The expiry sweep -/

/-- No job of a client is overdue. -/
def Unexpired (c : ClientId) (s : Engine) : Prop :=
  ∀ job ∈ s.jobs, ∀ due, job.state = .reserved c due → s.now < due

theorem Unexpired.later {c : ClientId} (h : Unexpired c s) (hl : Later s t) : Unexpired c t := by
  intro job hj due hst
  by_contra hle
  have hold := hl.old hj (by rw [hst]; rfl) (Nat.not_lt.1 hle)
  exact hle (hl.now ▸ h job hold due hst)

theorem unexpired_expireClient (hs : s.Whole) (c : ClientId) :
    Unexpired c (s.expireClient c).2 := by
  set u := (transitionEach expire s (s.overdueJobs c)).2 with hu
  have hlater : Later s u := (stages_transitionEach (fun _ id => stages_expire id) _).later hs
  have hcleared : ∀ id ∈ s.overdueJobs c, Cleared isOverdue id u :=
    foldl_done Bool.toNat (fun _ id => stages_expire id)
      (fun _ id hs _ => cleared_expire hs id)
      (fun _ _ _ hl hc => hc.onward due_of_isOverdue hl.onward hl.now) (s.overdueJobs c) 0 hs
      (Nat.le_refl _)
  have hunexpired : Unexpired c u := by
    intro job hj due hst
    by_contra hle
    have hle : due ≤ u.now := Nat.not_lt.1 hle
    have hold := hlater.old hj (by rw [hst]; rfl) hle
    obtain ⟨client, rfl, hclient, -⟩ :=
      client?_of_isConnected (hs.sound.listed.holders job hold c due hst)
    obtain ⟨hmem, -⟩ := (client?_eq_some_iff hs.sound.listed.clients).1 hclient
    have hslot : (⟨due, job.id⟩ : Slot) ∈ Agenda.upTo s.now client.held :=
      (hs.sound.listed.heldOrdered client hmem).mem_upTo.2
        ⟨(hs.sound.listed.held client hmem _).2 ⟨job, hold, rfl, hst⟩, hlater.now ▸ hle⟩
    have hid : job.id ∈ s.overdueJobs client.id := by
      rw [overdueJobs, hclient]
      exact List.mem_map_of_mem (f := (·.job)) hslot
    have hnot := hcleared job.id hid job hj rfl
    rw [isOverdue, hst] at hnot
    exact absurd hle (of_decide_eq_false hnot)
  have hidle : Later u (s.expireClient c).2 :=
    Stages.later (.single (.dropIdle c)) hlater.whole
  exact hunexpired.later hidle

/-- After an expiry sweep no job is overdue. -/
theorem unexpired_sweep (hs : s.Whole) : ∀ c, Unexpired c s.expirySweep.2 := by
  have hlater : Later s s.expirySweep.2 := stages_expirySweep.later hs
  have hclients : ∀ c ∈ s.expiring, Unexpired c s.expirySweep.2 :=
    foldl_done (fun n => n) (fun _ c => stages_expireClient c)
      (fun _ c hs _ => unexpired_expireClient hs c) (fun _ _ _ hl hc => hc.later hl) s.expiring 0
      hs (Nat.le_refl _)
  intro c job hj due hst
  by_contra hle
  have hold := hlater.old hj (by rw [hst]; rfl) (Nat.not_lt.1 hle)
  exact hle (hclients c (hs.tended.deadlines job hold c due hst) job hj due hst)

/-! ## The delayed sweep -/

/-- No delayed job of a tube is due. -/
def Promoted (name : TubeName) (s : Engine) : Prop :=
  ∀ job ∈ s.jobs, job.tube = name → ∀ due, job.state = .delayed due → s.now < due

theorem Promoted.later {name : TubeName} (h : Promoted name s) (hl : Later s t) :
    Promoted name t := by
  intro job hj htube due hst
  by_contra hle
  have hold := hl.old hj (by rw [hst]; rfl) (Nat.not_lt.1 hle)
  exact hle (hl.now ▸ h job hold htube due hst)

theorem Resumed.later {name : TubeName} (h : s.Resumed name) (hl : Later s t) :
    t.Resumed name := by
  intro tube ht hname
  refine Bool.eq_false_iff.2 fun hover => ?_
  obtain ⟨due, hdue, hle⟩ := (Option.any_eq_true _ _).1 hover
  rcases hl.onward.pauses tube ht due hdue with ⟨old, hold, hsame, hpause⟩ | hlt
  · have hnot := h old hold (hsame.trans hname)
    rw [Tube.pauseIsOver, hpause, Option.any_some, ← hl.now] at hnot
    exact absurd (of_decide_eq_true hle) (of_decide_eq_false hnot)
  · exact absurd (hl.now ▸ of_decide_eq_true hle) (Nat.not_le_of_lt hlt)

theorem Listed.mem_delayed (h : s.Listed) {tube : Tube} (ht : tube ∈ s.tubes) {slot : Slot} :
    slot ∈ tube.delayed ↔ ∃ job ∈ s.jobs, job.tube = tube.name ∧ job.id = slot.job ∧
      job.state = .delayed slot.rank := by
  rw [← Tube.delayed_mem_places, h.places tube ht]
  refine exists_congr fun job => and_congr_right fun _ => and_congr_right fun _ => ?_
  cases slot
  cases hst : job.state <;> simp [Job.place?, hst, and_comm]

/-- The jobs that are due are those that the delayed sweep finds. -/
theorem mem_dueJobs (h : s.Listed) {name : TubeName} {id : JobId} :
    id ∈ s.dueJobs name ↔
      ∃ job ∈ s.jobs, job.id = id ∧ job.tube = name ∧ isDue s.now job = true := by
  cases htube : s.tube? name with
  | none =>
    simp only [dueJobs, htube, Option.map_none, Option.getD_none, List.not_mem_nil, false_iff]
    rintro ⟨job, hj, -, rfl, -⟩
    exact Table.lookup_eq_none_iff.1 htube (h.homes job hj)
  | some tube =>
    obtain ⟨ht, rfl⟩ := (tube?_eq_some_iff h.tubes).1 htube
    simp only [dueJobs, htube, Option.map_some, Option.getD_some, List.mem_map,
      (h.ordered tube ht).delayed.mem_upTo, h.mem_delayed ht]
    constructor
    · rintro ⟨slot, ⟨⟨job, hj, hname, hid, hst⟩, hle⟩, rfl⟩
      exact ⟨job, hj, hid, hname, by simp [isDue, hst, hle]⟩
    · rintro ⟨job, hj, rfl, hname, hdue⟩
      unfold isDue at hdue
      split at hdue
      · next due hst =>
        exact ⟨⟨due, job.id⟩, ⟨⟨job, hj, hname, rfl, hst⟩, of_decide_eq_true hdue⟩, rfl⟩
      · cases hdue

/-- A sweep of a tube that promotes nothing has found no job due. -/
theorem promoted_sweepTube (hs : s.Whole) (name : TubeName) (hnone : (s.sweepTube name).1 = 0) :
    Promoted name (s.sweepTube name).2 := by
  have hl := hs.sound.listed
  have hidle : s.dueJobs name = [] := by
    cases hdue : s.dueJobs name with
    | nil => rfl
    | cons first rest =>
      obtain ⟨job, hj, rfl, -, hpass⟩ := (mem_dueJobs hl).1 (hdue ▸ List.mem_cons_self)
      have hfirst : (s.promote job.id).1 = true := by
        simp [promote, transition, (job?_eq_some_iff hl.jobs).2 ⟨hj, rfl⟩, hpass]
      have hcount : 0 + (s.promote job.id).1.toNat ≤ (s.sweepTube name).1 := by
        simp only [sweepTube, hdue]
        exact le_foldl Bool.toNat promote (rest.take 99) _ _
      rw [hfirst, hnone] at hcount
      cases hcount
  have hpromoted : Promoted name s := by
    intro job hj htube due hst
    by_contra hle
    have hmem : job.id ∈ s.dueJobs name := (mem_dueJobs hl).2
      ⟨job, hj, rfl, htube, by simp [isDue, hst, Nat.not_lt.1 hle]⟩
    rw [hidle] at hmem
    cases hmem
  exact hpromoted.later ((stages_sweepTube name).later hs)

theorem resumed_sweepTube (hs : s.Whole) (name : TubeName) :
    (s.sweepTube name).2.Resumed name := by
  have hpromoted : Later s (transitionEach promote s ((s.dueJobs name).take promotionCap)).2 :=
    (stages_transitionEach (fun _ id => stages_promote id) _).later hs
  exact resumed_resume _ name hpromoted.whole.sound.listed.tubes

/-- After a delayed sweep no pause has run out. -/
theorem resumed_delayedSweep (hs : s.Whole) : ∀ name, s.delayedSweep.2.Resumed name := by
  have hlater : Later s s.delayedSweep.2 := stages_delayedSweep.later hs
  have hnames : ∀ name ∈ s.tubes.keys, s.delayedSweep.2.Resumed name :=
    foldl_done (Q := fun name u => u.Resumed name) (fun n => n)
      (fun _ name => stages_sweepTube name)
      (fun _ name hs _ => resumed_sweepTube hs name) (fun _ _ _ hl hr => hr.later hl)
      s.tubes.keys 0 hs (Nat.le_refl _)
  intro name tube ht hname
  refine Bool.eq_false_iff.2 fun hover => ?_
  obtain ⟨due, hdue, hle⟩ := (Option.any_eq_true _ _).1 hover
  rcases hlater.onward.pauses tube ht due hdue with ⟨old, hold, hsame, -⟩ | hlt
  · have hkey : old.name ∈ s.tubes.keys := List.mem_map_of_mem (f := Keyed.key) hold
    have hnot := hnames tube.name (hsame ▸ hkey) tube ht rfl
    exact Bool.eq_false_iff.1 hnot hover
  · exact absurd (hlater.now ▸ of_decide_eq_true hle) (Nat.not_le_of_lt hlt)

/-- After a delayed sweep that promotes nothing no job is due. -/
theorem promoted_delayedSweep (hs : s.Whole) (hnone : s.delayedSweep.1 = false) :
    ∀ name, Promoted name s.delayedSweep.2 := by
  have hlater : Later s s.delayedSweep.2 := stages_delayedSweep.later hs
  have hzero : (s.sweepTubes s.tubes.keys).1 ≤ 0 := Nat.not_lt.1 (of_decide_eq_false hnone)
  have hnames : ∀ name ∈ s.tubes.keys, Promoted name s.delayedSweep.2 :=
    foldl_done (fun n => n) (fun _ name => stages_sweepTube name)
      (fun _ name hs hle => promoted_sweepTube hs name (Nat.le_zero.1 hle))
      (fun _ _ _ hl hp => hp.later hl) s.tubes.keys 0 hs hzero
  intro name job hj htube due hst
  by_contra hle
  have hold := hlater.old hj (by rw [hst]; rfl) (Nat.not_lt.1 hle)
  exact hle (hnames name (htube ▸ hs.sound.listed.homes job hold) job hj htube due hst)

/-! ## Fewer and fewer jobs are due -/

/-- How many delayed jobs are due. -/
def dueCount (s : Engine) : Nat :=
  s.jobs.countP (isDue s.now)

theorem due_subset (h : Later s t) :
    t.jobs.filter (isDue t.now) ⊆ s.jobs.filter (isDue s.now) := by
  intro job hj
  obtain ⟨hj, hpass⟩ := List.mem_filter.1 hj
  obtain ⟨due, hdue, hle⟩ := due_of_isDue t.now job hpass
  exact List.mem_filter.2 ⟨h.old hj hdue hle, h.now ▸ hpass⟩

theorem nodup_due (h : s.Whole) : (s.jobs.filter (isDue s.now)).Nodup :=
  (List.Nodup.of_map _ h.sound.listed.jobs.nodup).filter _

/-- No job comes to be due within an instant. -/
theorem dueCount_le (h : Later s t) : t.dueCount ≤ s.dueCount := by
  rw [dueCount, dueCount, List.countP_eq_length_filter, List.countP_eq_length_filter]
  exact (nodup_due h.whole).length_le_of_subset (due_subset h)

theorem open_of_transition {id : JobId} {isOpenTo : Job → Bool} {go : Job → Engine}
    (h : (s.transition id isOpenTo go).1 = true) :
    ∃ job, s.job? id = some job ∧ isOpenTo job = true := by
  unfold transition at h
  split at h
  · next job hj =>
    split at h
    · next hopen => exact ⟨job, hj, hopen⟩
    · cases h
  · cases h

/-- A job that is promoted is due no more. -/
theorem dueCount_promote (hs : s.Whole) (id : JobId) :
    (s.promote id).2.dueCount + (s.promote id).1.toNat ≤ s.dueCount := by
  have hlater : Later s (s.promote id).2 := (stages_promote id).later hs
  cases hp : (s.promote id).1 with
  | false => exact dueCount_le hlater
  | true =>
    obtain ⟨job, hj, hpass⟩ := open_of_transition hp
    obtain ⟨hmem, rfl⟩ := (job?_eq_some_iff hs.sound.listed.jobs).1 hj
    have hgone : job ∉ (s.promote job.id).2.jobs.filter (isDue (s.promote job.id).2.now) := by
      intro hj
      obtain ⟨hj, hdue⟩ := List.mem_filter.1 hj
      exact Bool.eq_false_iff.1 (cleared_promote hs job.id job hj rfl) hdue
    have hsubset := List.cons_subset.2
      ⟨List.mem_filter.2 ⟨hmem, hpass⟩, due_subset hlater⟩
    rw [dueCount, dueCount, List.countP_eq_length_filter, List.countP_eq_length_filter]
    exact (List.nodup_cons.2 ⟨hgone, nodup_due hlater.whole⟩).length_le_of_subset hsubset

/-- As many jobs as a delayed sweep promotes are due no more. -/
theorem dueCount_delayedSweep (hs : s.Whole) :
    s.delayedSweep.2.dueCount + (s.sweepTubes s.tubes.keys).1 ≤ s.dueCount := by
  have hpromotes {n : Nat} {u : Engine} (ids : List JobId)
      (hu : Later s u ∧ u.dueCount + n ≤ s.dueCount) :
      Later s (transitionEach promote u ids).2 ∧
        (transitionEach promote u ids).2.dueCount + (n + (transitionEach promote u ids).1) ≤
          s.dueCount := by
    refine foldl_counted (R := fun i v => Later s v ∧ v.dueCount + (n + i) ≤ s.dueCount) Bool.toNat
      (fun v id i hv => ⟨hv.1.trans ((stages_promote id).later hv.1.whole), ?_⟩) ids hu
    have := dueCount_promote hv.1.whole id
    omega
  refine (foldl_counted (R := fun i v => Later s v ∧ v.dueCount + i ≤ s.dueCount) (fun n => n)
    (fun v name i hv => ?_) s.tubes.keys (n := 0) ⟨.refl hs, Nat.le_refl _⟩).2
  obtain ⟨hlater, hcount⟩ := hpromotes ((v.dueJobs name).take promotionCap) hv
  have hresume := Stages.later (.single (.resume name)) hlater.whole
  exact ⟨hlater.trans hresume, Nat.le_trans (Nat.add_le_add_right (dueCount_le hresume) _) hcount⟩

/-- No more jobs are due than delayed. -/
theorem dueCount_le_delayed (hs : s.Whole) : s.dueCount ≤ s.totals.delayed := by
  have hdelayed : s.totals.delayed = s.jobs.countP fun job => job.state.phase = .delayed := by
    rw [totals_eq_sum, ← hs.sound.listed.sum_countP]
    exact congrArg List.sum (List.map_congr_left fun tube ht =>
      (congrArg JobTotals.delayed (hs.sound.totals ht)).trans
        (hs.sound.jobCount_eq tube.name (by decide)))
  rw [hdelayed, dueCount]
  refine List.countP_mono_left fun job _ hpass => ?_
  unfold isDue at hpass
  split at hpass
  · next due hst => simp [JobState.phase, hst]
  · cases hpass

end Engine

end WorkQueue
