import WorkQueue.Broker.Sweepers
import WorkQueue.Proofs.History

/-!
# Command counts

Each command that a connected client gives is counted under its verb before it is carried out,
whatever comes of it, and nothing else touches the counts. So the counts of a broker tell what its
run has had of each verb (`CommandCounts.Tells`, `Broker.tells_after`). `quit` is the one verb that
is not counted.

A count goes through three tables : it is recorded, copied into the statistics and sent under a
name. They agree, so each count is shown under the word of its own verb
(`CommandCounts.get_record`, `CommandCounts.commandEntries_fill`). A `stats` is among the commands
that it shows (`Broker.Shows`).
-/

namespace WorkQueue

variable {v : Verb} {verbs : List Verb}

/-! ## Counts -/

namespace CommandCounts

variable {c : CommandCounts}

/-- The count of a verb. -/
def get (c : CommandCounts) : Verb → Nat
  | .put => c.put
  | .peek => c.peek
  | .peekReady => c.peekReady
  | .peekDelayed => c.peekDelayed
  | .peekBuried => c.peekBuried
  | .reserve => c.reserve
  | .reserveWithTimeout => c.reserveWithTimeout
  | .reserveJob => c.reserveJob
  | .touch => c.touch
  | .useTube => c.useTube
  | .watch => c.watch
  | .ignore => c.ignore
  | .delete => c.delete
  | .release => c.release
  | .bury => c.bury
  | .kick => c.kick
  | .kickJob => c.kickJob
  | .stats => c.stats
  | .statsJob => c.statsJob
  | .statsTube => c.statsTube
  | .listTubes => c.listTubes
  | .listTubeUsed => c.listTubeUsed
  | .listTubesWatched => c.listTubesWatched
  | .pauseTube => c.pauseTube
  | .quit => 0

/-- A command is recorded in its own count and in no other. -/
theorem get_record (c : CommandCounts) (v w : Verb) :
    (c.record v).get w = c.get w + if v = w ∧ v ≠ .quit then 1 else 0 := by
  cases v <;> cases w <;> rfl

/-- The counts tell how often each verb has been used. Those of `quit` tell nothing. -/
def Tells (c : CommandCounts) (verbs : List Verb) : Prop :=
  ∀ v, c.get v = if v = .quit then 0 else verbs.count v

theorem tells_new : Tells {} [] := fun v => by
  rw [List.count_nil, ite_self]
  cases v <;> rfl

theorem Tells.record (h : c.Tells verbs) (v : Verb) : (c.record v).Tells (verbs ++ [v]) := by
  intro w
  rw [get_record, h w, List.count_append, List.count_singleton]
  by_cases hw : w = .quit
  · subst hw
    rw [if_pos rfl, if_pos rfl, if_neg fun hv => hv.2 hv.1]
  · rw [if_neg hw, if_neg hw]
    by_cases hv : v = w
    · rw [if_pos ⟨hv, hv ▸ hw⟩, if_pos (beq_iff_eq.2 hv)]
    · rw [if_neg fun h => hv h.1, if_neg (by simpa using hv)]

/-! ### What is shown -/

/-- The verbs whose counts are shown, in this order. -/
def shown : List Verb :=
  [.put, .peek, .peekReady, .peekDelayed, .peekBuried, .reserve, .reserveWithTimeout, .reserveJob,
    .touch, .useTube, .watch, .ignore, .delete, .release, .bury, .kick, .kickJob, .stats,
    .statsJob, .statsTube, .listTubes, .listTubeUsed, .listTubesWatched, .pauseTube]

theorem nodup_shown : shown.Nodup := by decide

theorem mem_shown_iff : v ∈ shown ↔ v ≠ .quit := by
  cases v <;> decide

/-- Each count is copied into the statistics and shown there under the word of its verb. -/
theorem commandEntries_fill (c : CommandCounts) (s : ServerStats) :
    (c.fill s).commandEntries = shown.map fun v => ("cmd-" ++ v.word, .number (c.get v)) := by
  simp [ServerStats.commandEntries, fill, shown, Verb.word, get]

/-- The name of a count in the statistics. -/
def IsCommandName (name : String) : Prop :=
  "cmd-".toList <+: name.toList

instance : DecidablePred IsCommandName := fun name =>
  inferInstanceAs (Decidable ("cmd-".toList <+: name.toList))

theorem isCommandName_word (v : Verb) : IsCommandName ("cmd-" ++ v.word) := by
  rw [IsCommandName, String.toList_append]
  exact List.prefix_append _ _

/-- Entries are left out by their names. -/
theorem filter_eq_nil_of_names (names : List String) (h : ∀ name ∈ names, ¬IsCommandName name)
    {entries : List (String × Yaml.Scalar)} (hnames : entries.map Prod.fst = names) :
    entries.filter (fun entry => IsCommandName entry.1) = [] := by
  refine List.filter_eq_nil_iff.2 fun entry hentry => ?_
  rw [decide_eq_true_eq]
  exact h _ (hnames ▸ List.mem_map_of_mem hentry)

/-- The entries of the statistics that are named after commands are their counts. -/
theorem filter_entries (c : CommandCounts) (s : ServerStats) :
    (c.fill s).entries.filter (fun entry => IsCommandName entry.1) =
      shown.map fun v => ("cmd-" ++ v.word, .number (c.get v)) := by
  have hjobs : (c.fill s).jobs.entries.filter (fun entry => IsCommandName entry.1) = [] :=
    filter_eq_nil_of_names ((JobTotals.entries {}).map Prod.fst) (by decide +kernel) rfl
  have hcommands : (c.fill s).commandEntries.filter (fun entry => IsCommandName entry.1) =
      (c.fill s).commandEntries := by
    refine List.filter_eq_self.2 fun entry hentry => ?_
    rw [commandEntries_fill] at hentry
    obtain ⟨v, -, rfl⟩ := List.mem_map.1 hentry
    exact decide_eq_true (isCommandName_word v)
  rw [ServerStats.entries, List.filter_append, List.filter_append, hjobs, hcommands,
    List.nil_append, ← commandEntries_fill]
  refine (congrArg ((c.fill s).commandEntries ++ ·) ?_).trans (List.append_nil _)
  exact filter_eq_nil_of_names ["job-timeouts", "total-jobs", "max-job-size", "current-tubes",
    "current-connections", "current-producers", "current-workers", "current-waiting",
    "total-connections", "pid", "version", "uptime"] (by decide +kernel) rfl

theorem Tells.entries (h : c.Tells verbs) (s : ServerStats) :
    (c.fill s).entries.filter (fun entry => IsCommandName entry.1) =
      shown.map fun v => ("cmd-" ++ v.word, .number (verbs.count v)) := by
  rw [filter_entries]
  refine List.map_congr_left fun v hv => ?_
  rw [h v, if_neg (mem_shown_iff.1 hv)]

end CommandCounts

/-! ## Brokers -/

/-- A broker has the configuration and the command counts of another. -/
structure SameCounts (b b' : Broker) : Prop where
  config : b'.config = b.config
  commands : b'.commands = b.commands

theorem SameCounts.refl (b : Broker) : SameCounts b b := ⟨rfl, rfl⟩

namespace Broker

variable {b : Broker} {c : ClientId}

theorem sameCounts_show? (job : Option Job) : SameCounts b (b.show? job).2 := by
  cases job <;> exact .refl b

/-- A command leaves the counts alone as it is carried out. -/
theorem sameCounts_perform (b : Broker) (c : ClientId) (command : Command)
    (body : Option Bytes) : SameCounts b (b.perform c command body).2 := by
  cases command with
  | put =>
    cases body with
    | none => exact .refl b
    | some body =>
      simp only [perform, put]
      split <;> exact ⟨rfl, rfl⟩
  | peek | peekReady | peekDelayed | peekBuried => exact sameCounts_show? _
  | reserveJob =>
    simp only [perform, Broker.reserveJob]
    split <;> exact ⟨rfl, rfl⟩
  | delete =>
    simp only [perform, Broker.delete]
    split <;> exact ⟨rfl, rfl⟩
  | kick =>
    simp only [perform, Broker.kick]
    split <;> exact ⟨rfl, rfl⟩
  | ignore =>
    simp only [perform, Broker.ignore]
    split <;> exact ⟨rfl, rfl⟩
  | pauseTube =>
    simp only [perform, Broker.pauseTube]
    split <;> exact ⟨rfl, rfl⟩
  | statsJob | statsTube | listTubeUsed | listTubesWatched =>
    simp only [perform]
    split <;> exact .refl b
  | _ => exact ⟨rfl, rfl⟩

/-- A command is counted, whatever comes of it. -/
theorem tells_dispatch (h : b.commands.Tells verbs) (c : ClientId) (command : Command)
    (body : Option Bytes) : (b.dispatch c command body).2.config = b.config ∧
      (b.dispatch c command body).2.commands.Tells (verbs ++ [command.verb]) := by
  have hsame := sameCounts_perform (b.record command.verb) c command body
  refine ⟨hsame.config, ?_⟩
  rw [dispatch, hsame.commands]
  exact h.record _

/-- A `stats` that is carried out next shows what has been used, itself among it. -/
def Shows (b : Broker) (verbs : List Verb) : Prop :=
  ∀ c body, ∃ stats, (b.dispatch c .stats body).1 = .now (.serverStats stats) ∧
    stats.entries.filter (fun entry => CommandCounts.IsCommandName entry.1) =
      CommandCounts.shown.map fun v =>
        ("cmd-" ++ v.word, .number ((verbs ++ [Verb.stats]).count v))

theorem shows_of_tells (h : b.commands.Tells verbs) : b.Shows verbs := fun _ _ =>
  ⟨(b.record .stats).stats, rfl, (h.record .stats).entries _⟩

/-! ## Runs -/

/-- The verb of a command that a connected client gives. -/
def verb? (b : Broker) : Event → Option Verb
  | .command c command _ => if b.isConnected c then some command.verb else none
  | _ => none

theorem tells_step (h : b.commands.Tells verbs) (event : Event) :
    (b.step event).commands.Tells (verbs ++ (b.verb? event).toList) := by
  cases event with
  | command c command body =>
    simp only [step, verb?]
    split
    · exact (tells_dispatch h c command body).2
    · rw [Option.toList_none, List.append_nil]
      exact h
  | disconnect c =>
    simp only [step, verb?, Option.toList_none, List.append_nil]
    split <;> exact h
  | connect | advance | delayedSweep | expirySweep =>
    simp only [verb?, Option.toList_none, List.append_nil]
    exact h

/-- In every run, the counts tell what has been used. -/
theorem tells_after (config : Config) (events : List Event) :
    ((start config).after events).commands.Tells ((start config).history verb? events) := by
  induction events using List.reverseRecOn with
  | nil => exact CommandCounts.tells_new
  | append_singleton earlier event ih =>
    rw [after_append, history_append]
    exact tells_step ih event

/-! ## The clock and the sweepers -/

theorem sameCounts_advance (b : Broker) (span : Millis) : SameCounts b (b.advance span) :=
  ⟨rfl, rfl⟩

theorem sameCounts_delayedSweep (b : Broker) : SameCounts b b.delayedSweep.2 :=
  ⟨rfl, rfl⟩

theorem sameCounts_expirySweep (b : Broker) : SameCounts b b.expirySweep :=
  ⟨rfl, rfl⟩

end Broker

end WorkQueue
