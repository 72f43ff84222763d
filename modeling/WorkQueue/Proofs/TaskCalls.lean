import Mathlib.Data.Set.Card
import WorkQueue.Tasks

/-!
# Calls on the tasks of a client

Whoever is about to answer a request finishes its task first, and answers only if that was open
(`Tasks.finish`). What the calls on the tasks of a client come to is put on record here, and the
record alone tells which tasks are open : those that were begun and neither finished by themselves
nor with all others since (`Tasks.OpenIn`). `Tasks.finished_once` has it that the answers of all
calls agree with the record, whatever was called before. A task is begun under a new number, so it
is finished once at most, and with it the request is answered once at most.

Tasks are numbered from 1 on in the order in which they begin, so the numbers of fewer than 2 ^ 64
tasks are words.
-/

namespace WorkQueue

namespace Tasks

inductive Call
  | start
  | finish (id : TaskId)
  | finishAll
  | isOpen (id : TaskId)
  | openCount
  deriving DecidableEq

/-- A call on record, with its answer. -/
inductive Entry
  | started (id : TaskId)
  | finished (id : TaskId) (done : Bool)
  | finishedAll
  | told (id : TaskId) (isOpen : Bool)
  | counted (count : Nat)
  deriving DecidableEq

/-- Makes a call. -/
def perform (tasks : Tasks) : Call → Entry × Tasks
  | .start => (.started tasks.start.1, tasks.start.2)
  | .finish id => (.finished id (tasks.finish id).1, (tasks.finish id).2)
  | .finishAll => (.finishedAll, tasks.finishAll)
  | .isOpen id => (.told id (tasks.isOpen id), tasks)
  | .openCount => (.counted tasks.openCount, tasks)

/-- The tasks after calls in a row. -/
def after (tasks : Tasks) (calls : List Call) : Tasks :=
  calls.foldl (fun tasks call => (tasks.perform call).2) tasks

/-- The record of calls in a row. -/
def record (tasks : Tasks) : List Call → List Entry
  | [] => []
  | call :: rest => (tasks.perform call).1 :: (tasks.perform call).2.record rest

/-! ## What the record tells -/

/-- The task that a call has begun. -/
def Entry.begun? : Entry → Option TaskId
  | started id => some id
  | finished .. | finishedAll | told .. | counted _ => none

/-- The tasks that were begun, in this order. -/
def begunIn (past : List Entry) : List TaskId :=
  past.filterMap Entry.begun?

/-- Whether a call leaves a task closed, whatever it was before. -/
def Entry.closes (id : TaskId) : Entry → Bool
  | finished other _ => other = id
  | finishedAll => true
  | started _ | told .. | counted _ => false

/-- A task was begun, and nothing has closed it since. -/
def OpenIn (past : List Entry) (id : TaskId) : Prop :=
  ∃ before later, past = before ++ .started id :: later ∧ ∀ entry ∈ later, entry.closes id = false

variable {past : List Entry} {entry : Entry} {id : TaskId}

theorem begunIn_concat (past : List Entry) (entry : Entry) :
    begunIn (past ++ [entry]) = begunIn past ++ entry.begun?.toList := by
  rw [begunIn, List.filterMap_append]
  cases entry <;> rfl

theorem not_openIn_nil (id : TaskId) : ¬OpenIn [] id := by
  rintro ⟨before, later, h, -⟩
  exact List.append_ne_nil_of_right_ne_nil before (List.cons_ne_nil _ _) h.symm

/-- The last call begins a task, or leaves it open. -/
theorem openIn_concat : OpenIn (past ++ [entry]) id ↔
    entry = .started id ∨ OpenIn past id ∧ entry.closes id = false := by
  constructor
  · rintro ⟨before, later, h, hlater⟩
    rcases List.eq_nil_or_concat later with rfl | ⟨later, last, rfl⟩
    · exact Or.inl (List.append_inj_right' h rfl |> List.singleton_inj.1)
    · rw [List.concat_eq_append, ← List.cons_append, ← List.append_assoc] at h
      obtain ⟨rfl, hlast⟩ := List.append_inj' h rfl
      obtain rfl := List.singleton_inj.1 hlast
      rw [List.concat_eq_append, List.forall_mem_append, List.forall_mem_singleton] at hlater
      exact Or.inr ⟨⟨before, later, rfl, hlater.1⟩, hlater.2⟩
  · rintro (rfl | ⟨⟨before, later, rfl, hlater⟩, hentry⟩)
    · exact ⟨past, [], rfl, List.forall_mem_nil _⟩
    · refine ⟨before, later ++ [entry], by simp, ?_⟩
      exact List.forall_mem_append.2 ⟨hlater, List.forall_mem_singleton.2 hentry⟩

/-! ## Calls in a row -/

theorem after_concat (tasks : Tasks) (calls : List Call) (call : Call) :
    tasks.after (calls ++ [call]) = ((tasks.after calls).perform call).2 :=
  List.foldl_concat ..

theorem record_concat (tasks : Tasks) (calls : List Call) (call : Call) :
    tasks.record (calls ++ [call]) =
      tasks.record calls ++ [((tasks.after calls).perform call).1] := by
  induction calls generalizing tasks with
  | nil => rfl
  | cons first rest ih => exact congrArg (_ :: ·) (ih _)

/-- The tasks agree with the record of the calls on them. -/
structure Recorded (past : List Entry) (tasks : Tasks) : Prop where
  begun : begunIn past = List.range' 1 tasks.begun
  pending : ∀ id, id ∈ tasks.pending ↔ OpenIn past id
  nodup : tasks.pending.Nodup
  /-- A task is open, or has been finished by itself, or neither. -/
  once : ∀ id, past.count (.finished id true) + tasks.pending.count id ≤ (begunIn past).count id

namespace Recorded

variable {tasks : Tasks}

theorem nil : Recorded [] {} where
  begun := rfl
  pending id := iff_of_false List.not_mem_nil (not_openIn_nil id)
  nodup := List.nodup_nil
  once _ := Nat.le_refl 0

theorem le_begun (h : Recorded past tasks) (hid : id ∈ tasks.pending) : id ≤ tasks.begun := by
  have hcount : 0 < (begunIn past).count id :=
    Nat.lt_of_lt_of_le (List.count_pos_iff.2 hid) (Nat.le_of_add_left_le (h.once id))
  rw [List.count_pos_iff, h.begun, List.mem_range'_1, Nat.add_comm] at hcount
  exact Nat.le_of_lt_succ hcount.2

/-- The next number is a new one. -/
theorem fresh (h : Recorded past tasks) : tasks.start.1 ∉ begunIn past := by
  rw [h.begun, List.mem_range'_1, Nat.add_comm]
  exact fun hmem => Nat.lt_irrefl _ hmem.2

theorem isOpen_iff (h : Recorded past tasks) : tasks.isOpen id = true ↔ OpenIn past id :=
  List.contains_iff_mem.trans (h.pending id)

theorem start (h : Recorded past tasks) :
    Recorded (past ++ [.started tasks.start.1]) tasks.start.2 := by
  have hnew : tasks.begun + 1 ∉ tasks.pending := fun hmem =>
    Nat.not_succ_le_self _ (h.le_begun hmem)
  refine ⟨?_, fun id => ?_, ?_, fun id => ?_⟩
  · rw [begunIn_concat, h.begun, Tasks.start, List.range'_1_concat, Nat.add_comm 1]
    rfl
  · rw [openIn_concat, ← h.pending, Tasks.start, List.mem_append, List.mem_singleton]
    simp [Entry.closes, or_comm, eq_comm]
  · exact List.nodup_append_comm.1 (by simp [hnew, h.nodup])
  · have hold := h.once id
    have hentry : [Entry.started tasks.start.1].count (.finished id true) = 0 := by simp
    rw [begunIn_concat, List.count_append, List.count_append, hentry, Tasks.start,
      List.count_append, ← Nat.add_assoc]
    exact Nat.add_le_add_right hold _

/-- A call that begins no task, and leaves the tasks open that it does not close. -/
theorem close (h : Recorded past tasks) {entry : Entry} {closed : Tasks}
    (hentry : entry.begun? = none) (hbegun : closed.begun = tasks.begun)
    (hpending : closed.pending = tasks.pending.filter fun id => !entry.closes id)
    (hdone : ∀ id, entry = .finished id true → id ∈ tasks.pending) :
    Recorded (past ++ [entry]) closed := by
  refine ⟨?_, fun id => ?_, ?_, fun id => ?_⟩
  · rw [begunIn_concat, hentry, hbegun, Option.toList_none, List.append_nil, h.begun]
  · have hne : entry ≠ .started id := fun he => by simp [he, Entry.begun?] at hentry
    rw [openIn_concat, hpending, List.mem_filter, h.pending]
    simp [hne]
  · exact hpending ▸ h.nodup.filter _
  · have hold := h.once id
    rw [begunIn_concat, hentry, Option.toList_none, List.append_nil, hpending, List.count_append]
    by_cases he : entry = .finished id true
    · -- The task was open, and what was counted for that is counted for its end now.
      have hopen : 0 < tasks.pending.count id := List.count_pos_iff.2 (hdone id he)
      have hgone : (tasks.pending.filter fun id => !entry.closes id).count id = 0 :=
        List.count_eq_zero.2 fun hmem => by simp [he, Entry.closes] at hmem
      rw [hgone, he, List.count_singleton_self]
      omega
    · have hless : (tasks.pending.filter fun id => !entry.closes id).count id
          ≤ tasks.pending.count id :=
        List.filter_sublist.count_le id
      rw [List.count_singleton, if_neg (by simpa using he)]
      omega

/-- What one call preserves. -/
theorem perform (h : Recorded past tasks) (call : Call) :
    Recorded (past ++ [(tasks.perform call).1]) (tasks.perform call).2 := by
  have hall : tasks.pending = tasks.pending.filter fun _ => true := by simp
  cases call with
  | start => exact h.start
  | finish id =>
    refine h.close rfl rfl ?_ fun other he => ?_
    · exact List.filter_congr fun other _ => by simp [Tasks.perform, Entry.closes, eq_comm]
    · obtain ⟨rfl, hopen⟩ := Entry.finished.inj he
      exact List.contains_iff_mem.1 hopen
  | finishAll =>
    refine h.close rfl rfl ?_ fun _ he => nomatch he
    simp [Tasks.perform, Tasks.finishAll, Entry.closes]
  | isOpen id => exact h.close rfl rfl hall fun _ he => nomatch he
  | openCount => exact h.close rfl rfl hall fun _ he => nomatch he

end Recorded

/-- What all calls in a row preserve. -/
theorem recorded (calls : List Call) : Recorded (record {} calls) (after {} calls) := by
  induction calls using List.reverseRecOn with
  | nil => exact Recorded.nil
  | append_singleton earlier call ih =>
    rw [record_concat, after_concat]
    exact ih.perform call

/-- As many tasks are begun as calls ask for it. -/
theorem begun_after (calls : List Call) : (after {} calls).begun = calls.count .start := by
  induction calls using List.reverseRecOn with
  | nil => rfl
  | append_singleton earlier call ih =>
    rw [after_concat, List.count_append, ← ih]
    cases call <;> rfl

/-- As many ids are open as `openCount` tells. -/
theorem encard_open {tasks : Tasks} (h : tasks.pending.Nodup) :
    {id | tasks.isOpen id = true}.encard = tasks.openCount := by
  have hset : {id | tasks.isOpen id = true} = (tasks.pending.toFinset : Set TaskId) := by
    ext id
    simp [isOpen]
  rw [hset, Set.encard_coe_eq_coe_finsetCard, List.toFinset_card_of_nodup h, openCount]

/-- After any calls, the next task gets a number that none had before. `finish` answers `true`
just for a task that was begun, with nothing since that closes it, and so once at most for each.
`isOpen` tells in advance what `finish` would answer, and `openCount` for how many it would be
`true`. -/
theorem finished_once (calls : List Call) :
    let tasks := after {} calls
    let past := record {} calls
    begunIn past = List.range' 1 (calls.count .start) ∧
    tasks.start.1 ∉ begunIn past ∧
    (∀ id, (tasks.finish id).1 = true ↔ OpenIn past id) ∧
    (∀ id, past.count (.finished id true) ≤ 1) ∧
    (∀ id, tasks.isOpen id = (tasks.finish id).1) ∧
    {id | (tasks.finish id).1 = true}.encard = tasks.openCount := by
  intro tasks past
  have h : Recorded past tasks := recorded calls
  refine ⟨begun_after calls ▸ h.begun, h.fresh, fun id => h.isOpen_iff, fun id => ?_,
    fun id => rfl, encard_open h.nodup⟩
  have hbegun : (begunIn past).Nodup := h.begun ▸ List.nodup_range'
  calc past.count (.finished id true)
      ≤ (begunIn past).count id := Nat.le_of_add_right_le (h.once id)
    _ ≤ 1 := List.nodup_iff_count_le_one.1 hbegun id

end Tasks

end WorkQueue
