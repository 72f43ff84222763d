import Mathlib.Algebra.Order.Floor.Div
import WorkQueue.Proofs.Kicking
import WorkQueue.Proofs.Latency

/-!
# What a delayed sweep does

A delayed sweep takes the first jobs off the list of the delayed ones of every tube : those that are
due, up to a cap (`Engine.promotions`). A tube that comes later in the sweep has its turn when jobs
of others have been handed out already, and is not changed by that (`Engine.returning_sweepTube`).

A tube is left with as many due jobs less as the cap allows (`Engine.dueIn_delayedSweep`). So the
tube with the most of them tells how often the sweep is made before it finds nothing
(`Broker.sweepsIn_of_sweepsOut`).
-/

namespace WorkQueue

namespace Engine

variable {s t s₀ : Engine} {done : List JobId} {tube later : Tube} {name : TubeName}

/-- How many delayed jobs of a tube are due. -/
def dueIn (s : Engine) (name : TubeName) : Nat :=
  s.jobs.countP fun job => job.tube = name && isDue s.now job

/-- The jobs of a tube that a delayed sweep promotes. -/
def promotions (s : Engine) (tube : Tube) : List JobId :=
  (tube.delayed.take (min promotionCap (s.dueIn tube.name))).map (·.job)

/-- What a delayed sweep leaves. -/
structure Promotes (s t : Engine) : Prop where
  jobs : BringsBack (fun job => ∃ tube ∈ s.tubes, job.id ∈ s.promotions tube) id s t
  tubes : t.tubes.keys = s.tubes.keys
  delayed : ∀ tube ∈ s.tubes, ∀ later ∈ t.tubes, later.name = tube.name →
    later.delayed = tube.delayed.drop (min promotionCap (s.dueIn tube.name))
  buried : ∀ tube ∈ s.tubes, ∀ later ∈ t.tubes, later.name = tube.name →
    later.buried = tube.buried
  pauses : ∀ tube ∈ s.tubes, ∀ later ∈ t.tubes, later.name = tube.name →
    later.pausedUntil = if tube.pauseIsOver s.now then none else tube.pausedUntil

/-! ## The jobs that are due -/

theorem return_of_isDue (now : Instant) (job : Job) (h : isDue now job = true) :
    Return now none job id :=
  .promote h

theorem promote_of_now {now : Instant} (s : Engine) (id : JobId) (h : s.now = now) :
    s.promote id = s.transition id (isDue now) fun job => s.enterReady job (·) := by
  rw [promote, h]

theorem Listed.dueJobs_eq (h : s.Listed) (ht : tube ∈ s.tubes) :
    s.dueJobs tube.name = (tube.delayed.upTo s.now).map (·.job) := by
  rw [dueJobs, (tube?_eq_some_iff h.tubes).2 ⟨ht, rfl⟩, Option.map_some, Option.getD_some]

/-- The list of delayed jobs has the due ones at its front. There are as many as are due. -/
theorem Listed.length_upTo_delayed (h : s.Listed) (ht : tube ∈ s.tubes) :
    (tube.delayed.upTo s.now).length = s.dueIn tube.name := by
  have hfront : (tube.delayed.upTo s.now).Sublist tube.delayed := List.takeWhile_sublist _
  have hnodup : (s.dueJobs tube.name).Nodup := by
    rw [h.dueJobs_eq ht]
    exact (h.nodup_delayed ht).sublist (hfront.map _)
  have hlength : (s.dueJobs tube.name).length = s.dueIn tube.name :=
    h.length_eq_countP hnodup fun id => by simp [mem_dueJobs h]
  rwa [h.dueJobs_eq ht, List.length_map] at hlength

theorem Listed.upTo_delayed (h : s.Listed) (ht : tube ∈ s.tubes) :
    tube.delayed.upTo s.now = tube.delayed.take (s.dueIn tube.name) := by
  have hprefix : tube.delayed.upTo s.now <+: tube.delayed := List.takeWhile_prefix _
  exact h.length_upTo_delayed ht ▸ List.prefix_iff_eq_take.1 hprefix

/-- The sweep of a tube sets out to promote the first jobs on its list. -/
theorem Listed.take_dueJobs (h : s.Listed) (ht : tube ∈ s.tubes) :
    (s.dueJobs tube.name).take promotionCap = s.promotions tube := by
  rw [h.dueJobs_eq ht, h.upTo_delayed ht, ← List.map_take, List.take_take, promotions]

theorem Listed.job_of_promotions (h : s.Listed) (ht : tube ∈ s.tubes) {id : JobId}
    (hid : id ∈ s.promotions tube) :
    ∃ job ∈ s.jobs, job.id = id ∧ job.tube = tube.name ∧ isDue s.now job = true :=
  (mem_dueJobs h).1 (List.mem_of_mem_take (h.take_dueJobs ht ▸ hid))

theorem Listed.nodup_promotions (h : s.Listed) (ht : tube ∈ s.tubes) :
    (s.promotions tube).Nodup :=
  (h.nodup_delayed ht).sublist ((List.take_sublist _ _).map _)

/-- As many jobs of a tube are promoted as are due, up to the cap. -/
theorem Listed.length_promotions (h : s.Listed) (ht : tube ∈ s.tubes) :
    (s.promotions tube).length = min promotionCap (s.dueIn tube.name) := by
  rw [← h.take_dueJobs ht, List.length_take, h.dueJobs_eq ht, List.length_map,
    h.length_upTo_delayed ht]

/-! ## The sweep of one tube after the other -/

/-- A tube whose turn is still to come sets out as if it were the first one. -/
theorem Returning.dueJobs (h : Returning (isDue s₀.now) id done s₀ s) (ht : tube ∈ s₀.tubes)
    (hfree : ∀ job ∈ s₀.jobs, job.tube = tube.name → job.id ∉ done) :
    s.dueJobs tube.name = s₀.dueJobs tube.name := by
  obtain ⟨later, hl, hname, -⟩ := h.tube?_eq_some ht
  have hr := return_of_isDue s₀.now
  have hsame : later.delayed = tube.delayed := by
    rw [h.delayed hr ht hl hname]
    refine List.filter_eq_self.2 fun slot hslot => decide_eq_true ?_
    obtain ⟨job, hj, htube, hid, -⟩ := (h.start.listed.mem_delayed ht).1 hslot
    exact hid ▸ hfree job hj htube
  rw [h.start.listed.dueJobs_eq ht, ← hname, h.sound.listed.dueJobs_eq hl, hsame, h.evolves.now]

theorem returning_sweepTube (h : Returning (isDue s₀.now) id done s₀ s) (ht : tube ∈ s₀.tubes)
    (hfree : ∀ job ∈ s₀.jobs, job.tube = tube.name → job.id ∉ done) :
    (s.sweepTube tube.name).1 = (s₀.promotions tube).length ∧
      Returning (isDue s₀.now) id (done ++ s₀.promotions tube) s₀ (s.sweepTube tube.name).2 := by
  have hl := h.start.listed
  have hopen : ∀ id ∈ s₀.promotions tube,
      id ∉ done ∧ ∃ job ∈ s₀.jobs, job.id = id ∧ isDue s₀.now job = true := fun id hid => by
    obtain ⟨job, hj, rfl, htube, hdue⟩ := hl.job_of_promotions ht hid
    exact ⟨hfree job hj htube, job, hj, rfl, hdue⟩
  obtain ⟨hcount, hrow⟩ := h.row (return_of_isDue s₀.now) promote_of_now
    (hl.nodup_promotions ht) hopen
  have hids : (s.dueJobs tube.name).take promotionCap = s₀.promotions tube := by
    rw [h.dueJobs ht hfree, hl.take_dueJobs ht]
  rw [← hids] at hcount hrow ⊢
  exact ⟨hcount, hrow.resume tube.name⟩

theorem sweepTubes_cons (s : Engine) (name : TubeName) (rest : List TubeName) :
    s.sweepTubes (name :: rest) =
      ((s.sweepTube name).1 + ((s.sweepTube name).2.sweepTubes rest).1,
        ((s.sweepTube name).2.sweepTubes rest).2) :=
  foldl_total_cons (fun n => n) sweepTube name rest s

theorem returning_sweepTubes (tubes : Table Tube)
    (h : Returning (isDue s₀.now) id done s₀ s) (hsub : tubes ⊆ s₀.tubes)
    (hkeys : tubes.keys.Nodup)
    (hfree : ∀ tube ∈ tubes, ∀ job ∈ s₀.jobs, job.tube = tube.name → job.id ∉ done) :
    (s.sweepTubes tubes.keys).1 = (tubes.flatMap s₀.promotions).length ∧
      Returning (isDue s₀.now) id (done ++ tubes.flatMap s₀.promotions) s₀
        (s.sweepTubes tubes.keys).2 := by
  induction tubes generalizing done s with
  | nil => exact ⟨rfl, (List.append_nil done).symm ▸ h⟩
  | cons tube rest ih =>
    obtain ⟨hfirst, hrest⟩ := List.nodup_cons.1 hkeys
    obtain ⟨ht, hsub⟩ := List.cons_subset.1 hsub
    obtain ⟨hcount, hswept⟩ := returning_sweepTube h ht (hfree tube List.mem_cons_self)
    -- the jobs of the first tube are not of one that is still to come
    have hfree' : ∀ other ∈ rest, ∀ job ∈ s₀.jobs, job.tube = other.name →
        job.id ∉ done ++ s₀.promotions tube := by
      intro other hother job hj htube hmem
      rcases List.mem_append.1 hmem with hmem | hmem
      · exact hfree other (List.mem_cons_of_mem _ hother) job hj htube hmem
      · obtain ⟨x, hx, hid, hxtube, -⟩ := h.start.listed.job_of_promotions ht hmem
        obtain rfl := h.start.listed.job_ext hx hj hid
        exact hfirst (List.mem_map.2 ⟨other, hother, htube.symm.trans hxtube⟩)
    obtain ⟨hcounts, hall⟩ := ih hswept hsub hrest hfree'
    have hkey : Table.keys (tube :: rest) = tube.name :: Table.keys rest := rfl
    rw [hkey, sweepTubes_cons, List.flatMap_cons, List.length_append, ← List.append_assoc]
    exact ⟨congrArg₂ (· + ·) hcount hcounts, hall⟩

/-- A delayed sweep is a row of jobs that come back, and none of them is refused. -/
theorem returning_delayedSweep (hs : Sound none none s) :
    (s.sweepTubes s.tubes.keys).1 = (s.tubes.flatMap s.promotions).length ∧
      Returning (isDue s.now) id (s.tubes.flatMap s.promotions) s s.delayedSweep.2 :=
  returning_sweepTubes s.tubes (.refl hs) (List.Subset.refl _) hs.listed.tubes
    fun _ _ _ _ _ => List.not_mem_nil

/-- The sweep promotes a job of a tube when the tube has its turn, or not at all. -/
theorem Listed.mem_promotions_iff (h : s.Listed) (ht : tube ∈ s.tubes) {job : Job}
    (hj : job ∈ s.jobs) (htube : job.tube = tube.name) :
    job.id ∈ s.tubes.flatMap s.promotions ↔ job.id ∈ s.promotions tube := by
  rw [List.mem_flatMap]
  refine ⟨fun ⟨other, hother, hid⟩ => ?_, fun hid => ⟨tube, ht, hid⟩⟩
  obtain ⟨x, hx, hsame, hxtube, -⟩ := h.job_of_promotions hother hid
  obtain rfl := h.job_ext hx hj hsame
  exact h.tube_ext hother ht (hxtube.symm.trans htube) ▸ hid

theorem pausedUntil_delayedSweep (hs : s.Whole) (ht : tube ∈ s.tubes)
    (hl : later ∈ s.delayedSweep.2.tubes) (hname : later.name = tube.name) :
    later.pausedUntil = if tube.pauseIsOver s.now then none else tube.pausedUntil := by
  have hposts := SamePosts.delayedSweep s hs.sound.listed.tubes
  obtain ⟨old, ho, hstays⟩ := hposts.tubes later hl
  obtain rfl := hs.sound.listed.tube_ext ho ht (hstays.name.symm.trans hname)
  rcases hstays.pause with hsame | ⟨hover, hnone⟩
  · have hrunning := resumed_delayedSweep hs later.name later hl rfl
    rw [hposts.now, Tube.pauseIsOver, hsame] at hrunning
    rw [hsame, Tube.pauseIsOver, hrunning, if_neg Bool.false_ne_true]
  · rw [hnone, if_pos hover]

theorem Whole.promotes (hs : s.Whole) : Promotes s s.delayedSweep.2 := by
  obtain ⟨-, hall⟩ := returning_delayedSweep hs.sound
  have hl := hs.sound.listed
  have hr := return_of_isDue s.now
  have hst : Stages none s s.delayedSweep.2 := stages_delayedSweep
  have hspares : Spares (fun _ => False) (fun _ => False) s s.delayedSweep.2 :=
    (Sparing.delayedSweep (.refl hs.sound)).spares
  refine ⟨hall.bringsBack hr hst hspares fun job _ => List.mem_flatMap.symm, hall.posts.keys,
    fun tube ht later hlater hname => ?_, fun tube ht later hlater hname => ?_,
    fun tube ht later hlater hname => pausedUntil_delayedSweep hs ht hlater hname⟩
  · rw [hall.delayed hr ht hlater hname, ← filter_not_mem_take Slot.job (hl.nodup_delayed ht)]
    refine List.filter_congr fun slot hslot => ?_
    obtain ⟨job, hj, htube, hid, -⟩ := (hl.mem_delayed ht).1 hslot
    rw [← hid, decide_eq_decide, hl.mem_promotions_iff ht hj htube, promotions]
  · rw [hall.buried hr ht hlater hname (hst.buried_sublist hs.sound ht hlater hname)]
    refine List.filter_eq_self.2 fun id hid => decide_eq_true fun hmem => ?_
    obtain ⟨job, hj, htube, rfl, hst⟩ := (hl.mem_buried ht).1 hid
    have hdue := hall.open_of_mem hj hmem
    rw [isDue, hst] at hdue
    cases hdue

/-! ## The repetition -/

theorem takeWhile_drop {α : Type} (p : α → Bool) {l : List α} {n : Nat}
    (h : n ≤ (l.takeWhile p).length) : (l.drop n).takeWhile p = (l.takeWhile p).drop n := by
  induction n generalizing l with
  | zero => rfl
  | succ n ih =>
    cases l with
    | nil => rfl
    | cons a rest =>
      cases ha : p a with
      | false => simp [ha] at h
      | true =>
        rw [List.takeWhile_cons_of_pos ha] at h ⊢
        exact ih (Nat.le_of_succ_le_succ h)

/-- A delayed sweep leaves as many due jobs less as its cap allows. -/
theorem dueIn_delayedSweep (hs : s.Whole) (ht : tube ∈ s.tubes) :
    s.delayedSweep.2.dueIn tube.name = s.dueIn tube.name - promotionCap := by
  obtain ⟨-, hall⟩ := returning_delayedSweep hs.sound
  obtain ⟨later, hl, hname, -⟩ := hall.tube?_eq_some ht
  have hdue := hs.sound.listed.length_upTo_delayed ht
  have hfront : min promotionCap (s.dueIn tube.name) ≤ (tube.delayed.upTo s.now).length :=
    hdue ▸ Nat.min_le_right _ _
  rw [← hname, ← hall.sound.listed.length_upTo_delayed hl, hname, hall.evolves.now,
    hs.promotes.delayed tube ht later hl hname, Agenda.upTo, takeWhile_drop _ hfront,
    List.length_drop]
  change (tube.delayed.upTo s.now).length - _ = _
  omega

theorem foldr_max_sub (counts : List Nat) (k : Nat) :
    (counts.map (· - k)).foldr max 0 = counts.foldr max 0 - k := by
  induction counts with
  | nil => exact (Nat.zero_sub k).symm
  | cons n rest ih =>
    rw [List.map_cons, List.foldr_cons, List.foldr_cons, ih]
    omega

theorem lt_foldr_max {counts : List Nat} {k : Nat} :
    k < counts.foldr max 0 ↔ ∃ n ∈ counts, k < n := by
  induction counts with
  | nil => simp
  | cons n rest ih => simp [ih]

/-- How many jobs are due in the tube that has the most of them. -/
def mostDue (s : Engine) : Nat :=
  (s.tubes.keys.map s.dueIn).foldr max 0

theorem mostDue_delayedSweep (hs : s.Whole) :
    s.delayedSweep.2.mostDue = s.mostDue - promotionCap := by
  rw [mostDue, mostDue, ← foldr_max_sub, hs.promotes.tubes, List.map_map]
  refine congrArg (List.foldr max 0) (List.map_congr_left fun name hname => ?_)
  obtain ⟨tube, ht, rfl⟩ := List.mem_map.1 hname
  exact dueIn_delayedSweep hs ht

/-- A delayed sweep says whether it has promoted a job, and it has if one was due. -/
theorem delayedSweep_eq_true_iff (hs : Sound none none s) :
    s.delayedSweep.1 = true ↔ ∃ tube ∈ s.tubes, s.promotions tube ≠ [] := by
  have hcount : s.delayedSweep.1 = decide (0 < (s.sweepTubes s.tubes.keys).1) := rfl
  rw [hcount, decide_eq_true_eq, (returning_delayedSweep hs).1, List.length_pos_iff]
  simp

theorem delayedSweep_eq_decide (hs : Sound none none s) :
    s.delayedSweep.1 = decide (0 < s.mostDue) := by
  rw [Bool.eq_iff_iff, delayedSweep_eq_true_iff hs, decide_eq_true_eq, mostDue, lt_foldr_max]
  constructor
  · rintro ⟨tube, ht, hsome⟩
    have hpos := List.length_pos_iff.2 hsome
    rw [hs.listed.length_promotions ht] at hpos
    have hkey : tube.name ∈ s.tubes.keys := List.mem_map_of_mem (f := Keyed.key) ht
    exact ⟨_, List.mem_map_of_mem hkey, Nat.lt_of_lt_of_le hpos (Nat.min_le_right _ _)⟩
  · rintro ⟨n, hn, hpos⟩
    obtain ⟨name, hname, rfl⟩ := List.mem_map.1 hn
    obtain ⟨tube, ht, rfl⟩ := List.mem_map.1 hname
    refine ⟨tube, ht, List.length_pos_iff.1 ?_⟩
    rw [hs.listed.length_promotions ht]
    exact Nat.lt_min.2 ⟨by decide, hpos⟩

end Engine

namespace Broker

open Engine

variable {b t : Broker} {n : Nat}

/-- The delayed sweep is made `n` times, up to the one that promotes nothing. -/
inductive SweepsIn : Nat → Broker → Broker → Prop
  | idle {b : Broker} (h : b.delayedSweep.1 = false) : SweepsIn 1 b b.delayedSweep.2
  | busy {n : Nat} {b t : Broker} (h : b.delayedSweep.1 = true)
    (ht : SweepsIn n b.delayedSweep.2 t) : SweepsIn (n + 1) b t

/-- The repetition takes one sweep for every hundred jobs of the tube with the most that are due,
and one more to find that nothing is left. -/
theorem sweepsIn_of_sweepsOut (h : SweepsOut b t) (hb : Reachable b) :
    SweepsIn (b.engine.mostDue ⌈/⌉ promotionCap + 1) b t := by
  induction h with
  | @idle b hidle =>
    have hanswer : b.delayedSweep.1 = decide (0 < b.engine.mostDue) :=
      delayedSweep_eq_decide hb.sound
    rw [hidle] at hanswer
    have hzero : b.engine.mostDue = 0 := Nat.eq_zero_of_not_pos (of_decide_eq_false hanswer.symm)
    rw [hzero, zero_ceilDiv]
    exact .idle hidle
  | @busy b t hbusy _ ih =>
    have hanswer : b.delayedSweep.1 = decide (0 < b.engine.mostDue) :=
      delayedSweep_eq_decide hb.sound
    rw [hbusy] at hanswer
    have hpos : 0 < b.engine.mostDue := of_decide_eq_true hanswer.symm
    have hless : b.delayedSweep.2.engine.mostDue = b.engine.mostDue - promotionCap :=
      mostDue_delayedSweep hb.whole
    have hsteps : b.engine.mostDue ⌈/⌉ promotionCap =
        b.delayedSweep.2.engine.mostDue ⌈/⌉ promotionCap + 1 := by
      rw [hless]
      simp only [Nat.ceilDiv_eq_add_pred_div, promotionCap]
      omega
    rw [hsteps]
    exact .busy hbusy (ih (hb.step .delayedSweep))

/-- What the delayed sweep does, and what its repetition comes to. -/
structure SweepsDelayed (b : Broker) : Prop where
  order : ∀ tube ∈ b.engine.tubes, InDueOrder b.engine tube.name tube.delayed
  answer : b.delayedSweep.1 = true ↔ ∃ tube ∈ b.engine.tubes, b.engine.promotions tube ≠ []
  sweep : Promotes b.engine b.delayedSweep.2.engine
  ends : SweepsIn (b.engine.mostDue ⌈/⌉ promotionCap + 1) b b.sweepOut
  now : b.sweepOut.engine.now = b.engine.now
  done : ∀ tube ∈ b.sweepOut.engine.tubes, b.sweepOut.engine.dueIn tube.name = 0

/-- The delayed sweep promotes the first jobs of every tube that are due. Made again at the same
instant it comes to an end, and then none is due. -/
theorem delayed_sweep_promotes (config : Config) (events : List Event) :
    ((start config).after events).SweepsDelayed := by
  have hb := (Reachable.start config).after events
  have hout := hb.sweepsOut
  obtain ⟨hlater, hpromoted, -⟩ := hout.done hb
  refine ⟨fun tube ht => hb.sound.listed.inDueOrder ht, delayedSweep_eq_true_iff hb.sound,
    hb.whole.promotes, sweepsIn_of_sweepsOut hout hb, hlater.now, fun tube _ => ?_⟩
  refine List.countP_eq_zero.2 fun job hj hdue => ?_
  simp only [Bool.and_eq_true, decide_eq_true_eq] at hdue
  obtain ⟨htube, hdue⟩ := hdue
  unfold isDue at hdue
  split at hdue
  · next due hst =>
    exact Nat.not_le_of_lt (hpromoted tube.name job hj htube due hst) (of_decide_eq_true hdue)
  · cases hdue

example :
    let b := (start {}).after lateJobs
    b.engine.tubes.map b.engine.promotions = [[1]] ∧ b.engine.mostDue = 1 ∧
    b.delayedSweep.1 = true ∧ b.delayedSweep.2.delayedSweep.1 = false ∧
    b.sweepOut.engine.jobs.map (·.state) = [.reserved 2 61050, .reserved 1 1000] := by
  decide

end Broker

end WorkQueue
