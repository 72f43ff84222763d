import Mathlib.Algebra.BigOperators.Group.List.Basic
import Mathlib.Data.List.Perm.Basic
import WorkQueue.Engine.Report
import WorkQueue.Proofs.Sound

/-!
# Counting jobs

The lists of a tube tell how many of its jobs there are in each phase (`Engine.Listed.totals`), and
the lists of all tubes together tell it of all jobs (`Engine.totals_eq_sum`). Both come from one
fact : the places of a tube are those of its jobs, in some order (`Engine.Listed.countP_places`).
-/

namespace WorkQueue

/-- The phase of the jobs on the list of an entry. -/
def Place.phase : Place → Phase
  | ready _ => .ready
  | delayed _ => .delayed
  | buried _ => .buried
  | reserved _ => .reserved

theorem Job.any_place? (job : Job) {phase : Phase} (h : phase ≠ .absent) :
    (job.place?.any fun p => p.phase = phase) = decide (job.state.phase = phase) := by
  cases hst : job.state with
  | new | deleted => simp [Job.place?, JobState.phase, hst, h.symm]
  | ready | delayed | reserved | buried => simp only [Job.place?, hst]; rfl

/-- Whether an entry is of a ready job that is urgent. -/
def Place.isUrgent : Place → Bool
  | ready slot => slot.rank < Tube.urgentBelow
  | delayed _ | buried _ | reserved _ => false

theorem Job.any_isUrgent (job : Job) : job.place?.any Place.isUrgent =
    (decide (job.state = .ready) && decide (job.pri < Tube.urgentBelow)) := by
  cases hst : job.state with
  | ready => simp [Job.place?, Place.isUrgent, hst]
  | new | delayed | reserved | buried | deleted => simp [Job.place?, Place.isUrgent, hst]

/-- A tube reports how many entries it has of each kind. -/
theorem Tube.totals_eq {tube : Tube} (h : tube.Ordered) :
    tube.totals =
      { urgent := tube.places.countP Place.isUrgent
        ready := tube.places.countP fun p => p.phase = .ready
        reserved := tube.places.countP fun p => p.phase = .reserved
        delayed := tube.places.countP fun p => p.phase = .delayed
        buried := tube.places.countP fun p => p.phase = .buried } := by
  have hurgent := h.ready.takeWhile_eq_filter (fun rank => decide (rank < urgentBelow))
    fun a b hab hb => decide_eq_true (Nat.lt_of_le_of_lt hab (of_decide_eq_true hb))
  simp [totals, hurgent, ← List.countP_eq_length_filter, places, List.countP_map,
    Function.comp_def, Place.isUrgent, Place.phase]

namespace Engine

variable {s : Engine} {tube : Tube}

namespace Listed

/-- The entries of a tube are the places of its jobs, in some order. -/
theorem perm_places (h : s.Listed) (ht : tube ∈ s.tubes) :
    ((s.jobs.filter fun job => job.tube = tube.name).filterMap Job.place?).Perm tube.places := by
  have hjobs : s.jobs.Pairwise fun a b => a.id ≠ b.id := List.pairwise_map.1 h.jobs.nodup
  refine (List.perm_ext_iff_of_nodup ?_ (h.ordered tube ht).nodup_places).2 fun p => ?_
  · refine (hjobs.filter _).filterMap _ fun a b hne p hp q hq he => hne ?_
    rw [← Job.job_of_place? hp, ← Job.job_of_place? hq, he]
  · rw [h.places tube ht, List.mem_filterMap]
    simp only [List.mem_filter, decide_eq_true_eq, and_assoc]

theorem countP_places (h : s.Listed) (ht : tube ∈ s.tubes) (test : Place → Bool) :
    tube.places.countP test =
      s.jobs.countP fun job => job.tube = tube.name && job.place?.any test := by
  rw [← (h.perm_places ht).countP_eq test, List.countP_filterMap, List.countP_filter]
  refine List.countP_congr fun job _ => ?_
  cases job.place? <;> simp [and_comm]

theorem countP_phase (h : s.Listed) (ht : tube ∈ s.tubes) {phase : Phase} (hp : phase ≠ .absent) :
    tube.places.countP (fun p => p.phase = phase) =
      s.jobs.countP fun job => job.tube = tube.name && job.state.phase = phase := by
  rw [h.countP_places ht]
  exact List.countP_congr fun job _ => by rw [job.any_place? hp]

end Listed

/-! ## Registered jobs -/

/-- How many registered jobs of a tube are in a phase. -/
def jobCount (s : Engine) (name : TubeName) (phase : Phase) : Nat :=
  s.jobs.countP fun job => job.registered && job.tube = name && job.state.phase = phase

/-- How many registered jobs of a tube are urgent. -/
def urgentCount (s : Engine) (name : TubeName) : Nat :=
  s.jobs.countP fun job =>
    job.registered && job.tube = name && job.state = .ready && job.pri < Tube.urgentBelow

/-- The jobs of a tube by state. -/
def tally (s : Engine) (name : TubeName) : JobTotals where
  urgent := s.urgentCount name
  ready := s.jobCount name .ready
  reserved := s.jobCount name .reserved
  delayed := s.jobCount name .delayed
  buried := s.jobCount name .buried

namespace Sound

variable {leaving : Option ClientId} {waking : Option TubeName}

/-- The jobs of any phase are registered. -/
theorem jobCount_eq (h : Sound leaving waking s) (name : TubeName) {phase : Phase}
    (hp : phase ≠ .absent) : s.jobCount name phase =
      s.jobs.countP fun job => job.tube = name && job.state.phase = phase := by
  refine List.countP_congr fun job hj => ?_
  simp only [Bool.and_eq_true, decide_eq_true_eq, and_assoc, and_iff_right_iff_imp]
  rintro ⟨-, hphase⟩
  refine (h.settled job hj).registered.2 fun hst => hp ?_
  rw [← hphase, hst]
  rfl

theorem urgentCount_eq (h : Sound leaving waking s) (name : TubeName) :
    s.urgentCount name = s.jobs.countP fun job =>
      job.tube = name && job.place?.any Place.isUrgent := by
  refine List.countP_congr fun job hj => ?_
  rw [job.any_isUrgent]
  simp only [Bool.and_eq_true, decide_eq_true_eq, and_assoc, and_iff_right_iff_imp]
  rintro ⟨-, hst, -⟩
  exact (h.settled job hj).registered.2 (by rw [hst]; nofun)

/-- A tube reports its registered jobs. -/
theorem totals (h : Sound leaving waking s) (ht : tube ∈ s.tubes) :
    tube.totals = s.tally tube.name := by
  rw [Tube.totals_eq (h.listed.ordered tube ht), h.listed.countP_places ht,
    h.listed.countP_phase ht (by decide), h.listed.countP_phase ht (by decide),
    h.listed.countP_phase ht (by decide), h.listed.countP_phase ht (by decide), tally,
    h.urgentCount_eq, h.jobCount_eq _ (by decide), h.jobCount_eq _ (by decide),
    h.jobCount_eq _ (by decide), h.jobCount_eq _ (by decide)]

/-- Every job of a tube is deleted or on one of its lists. -/
theorem countP_tube (h : Sound leaving waking s) (name : TubeName) :
    s.jobs.countP (fun job => job.tube = name) =
      s.jobs.countP (fun job => job.tube = name && job.state = .deleted) +
        s.jobCount name .ready + s.jobCount name .delayed + s.jobCount name .reserved +
          s.jobCount name .buried := by
  rw [h.jobCount_eq _ (by decide), h.jobCount_eq _ (by decide), h.jobCount_eq _ (by decide),
    h.jobCount_eq _ (by decide)]
  have hplaced : ∀ job ∈ s.jobs, job.state ≠ .new := fun job hj => (h.settled job hj).placed
  generalize s.jobs = jobs at hplaced
  induction jobs with
  | nil => rfl
  | cons job rest ih =>
    have hjob := hplaced job List.mem_cons_self
    have ih := ih fun x hx => hplaced x (List.mem_cons_of_mem job hx)
    simp only [List.countP_cons, ih]
    by_cases hname : job.tube = name
    · cases hst : job.state with
      | new => exact absurd hst hjob
      | _ => simp [hname, JobState.phase]; omega
    · simp [hname]

end Sound

/-! ## All tubes -/

/-- The parts of a total are added up. -/
theorem sum_foldl_add (part : JobTotals → Nat) (hpart : ∀ a b, part (a.add b) = part a + part b)
    (tubes : List Tube) (total : JobTotals) :
    part (tubes.foldl (fun total tube => total.add tube.totals) total) =
      part total + (tubes.map fun tube => part tube.totals).sum := by
  induction tubes generalizing total with
  | nil => rfl
  | cons tube rest ih =>
    rw [List.foldl_cons, ih, hpart, List.map_cons, List.sum_cons, Nat.add_assoc]

theorem totals_eq_sum (s : Engine) :
    s.totals =
      { urgent := (s.tubes.map (·.totals.urgent)).sum
        ready := (s.tubes.map (·.totals.ready)).sum
        reserved := (s.tubes.map (·.totals.reserved)).sum
        delayed := (s.tubes.map (·.totals.delayed)).sum
        buried := (s.tubes.map (·.totals.buried)).sum } := by
  have hurgent := sum_foldl_add (·.urgent) (fun _ _ => rfl) s.tubes {}
  have hready := sum_foldl_add (·.ready) (fun _ _ => rfl) s.tubes {}
  have hreserved := sum_foldl_add (·.reserved) (fun _ _ => rfl) s.tubes {}
  have hdelayed := sum_foldl_add (·.delayed) (fun _ _ => rfl) s.tubes {}
  have hburied := sum_foldl_add (·.buried) (fun _ _ => rfl) s.tubes {}
  simp only [Nat.zero_add] at hurgent hready hreserved hdelayed hburied
  rw [← hurgent, ← hready, ← hreserved, ← hdelayed, ← hburied]
  rfl

/-- Jobs that have their tube among some names are counted name by name. -/
theorem sum_countP_names {names : List TubeName} (hnames : names.Nodup) (test : Job → Bool)
    (jobs : List Job) (hjobs : ∀ job ∈ jobs, job.tube ∈ names) :
    (names.map fun name => jobs.countP fun job => job.tube = name && test job).sum =
      jobs.countP test := by
  induction jobs with
  | nil => simp only [List.countP_nil, List.sum_map_zero]
  | cons job rest ih =>
    have ih := ih fun x hx => hjobs x (List.mem_cons_of_mem job hx)
    have hone : (names.map fun name =>
        if (decide (job.tube = name) && test job) = true then 1 else 0).sum =
          if test job = true then 1 else 0 := by
      rw [List.sum_map_eq_nsmul_single job.tube _ fun name hne _ => by simp [hne.symm],
        List.count_eq_one_of_mem hnames (hjobs job List.mem_cons_self)]
      simp
    simp only [List.countP_cons, List.sum_map_add, ih, hone]

/-- Every job is of one tube. -/
theorem Listed.sum_countP (h : s.Listed) (test : Job → Bool) :
    (s.tubes.map fun tube => s.jobs.countP fun job => job.tube = tube.name && test job).sum =
      s.jobs.countP test := by
  rw [← sum_countP_names h.tubes test s.jobs h.homes, Table.keys, List.map_map]
  rfl

end Engine

end WorkQueue
