import WorkQueue.Proofs.Burials
import WorkQueue.Proofs.Latency

/-!
# What an expiry sweep does

An expiry sweep goes through the clients whose deadlines are looked after, and takes their jobs one
at a time, the one with the nearest deadline first (`Engine.TakesEach`). A job that is taken may go
to a request at once, also to one of a client that has had its turn, or of the client that has just
lost it. It is held until later then, so no turn goes on for ever and no client has to have another
one (`Engine.Whole.takesEach`).

Who is looked after in the end holds a job. For whoever is added to the clients that are looked
after has just been given one, with a deadline to come, and the sweep takes none of those
(`Engine.Watched`).
-/

namespace WorkQueue

namespace Engine

variable {s t u s₀ : Engine} {c : ClientId} {done : List JobId} {rest : List ClientId} {n : Nat}

/-! ## The loop -/

/-- The reservation of a client that ends next. -/
def nearest? (s : Engine) (c : ClientId) : Option Slot :=
  (s.client? c).bind (·.held.head?)

/-- `n` jobs are taken from a client, always the one with the nearest deadline, until that is still
to come or the job is refused. -/
inductive Takes (c : ClientId) : Nat → Engine → Engine → Prop
  | done {s : Engine} (h : ∀ slot, s.nearest? c = some slot →
      slot.rank ≤ s.now → (s.expire slot.job).1 = false) : Takes c 0 s s
  | turn {n : Nat} {s t : Engine} {slot : Slot} (hnext : s.nearest? c = some slot)
    (hdue : slot.rank ≤ s.now) (htaken : (s.expire slot.job).1 = true)
    (h : Takes c n (s.expire slot.job).2 t) : Takes c (n + 1) s t

/-- Clients have their turns, and those that are left with nothing are not looked after any more. In
all `n` jobs are taken from them. -/
inductive TakesEach : List ClientId → Nat → Engine → Engine → Prop
  | nil {s : Engine} : TakesEach [] 0 s s
  | cons {c : ClientId} {rest : List ClientId} {n m : Nat} {s u t : Engine} (h : Takes c n s u)
    (hrest : TakesEach rest m (u.dropIdle c) t) : TakesEach (c :: rest) (n + m) s t

/-- There is one way only for a turn to go. -/
theorem Takes.unique {m : Nat} (h : Takes c n s t) (h' : Takes c m s u) : n = m ∧ t = u := by
  induction h generalizing m with
  | done hstop =>
    cases h' with
    | done => exact ⟨rfl, rfl⟩
    | turn hnext hdue htaken => exact absurd (hstop _ hnext hdue) (ne_false_of_eq_true htaken)
  | turn hnext hdue htaken _ ih =>
    cases h' with
    | done hstop => exact absurd (hstop _ hnext hdue) (ne_false_of_eq_true htaken)
    | turn hnext' _ _ hmore =>
      obtain rfl := Option.some.inj (hnext.symm.trans hnext')
      exact (ih hmore).imp_left (congrArg (· + 1))

theorem TakesEach.unique {m : Nat} (h : TakesEach rest n s t) (h' : TakesEach rest m s u) :
    n = m ∧ t = u := by
  induction h generalizing m with
  | nil =>
    cases h'
    exact ⟨rfl, rfl⟩
  | cons hfirst _ ih =>
    cases h' with
    | cons hfirst' hmore =>
      obtain ⟨rfl, rfl⟩ := hfirst.unique hfirst'
      exact (ih hmore).imp_left (congrArg (_ + ·))

/-! ## The jobs of a client that are overdue -/

theorem return_of_isOverdue (now : Instant) (job : Job) (h : isOverdue now job = true) :
    Return now none job (·.countTimeout) :=
  .expire h

theorem expire_of_now {now : Instant} (s : Engine) (id : JobId) (h : s.now = now) :
    s.expire id = s.transition id (isOverdue now) fun job => s.enterReady job (·.countTimeout) := by
  rw [expire, h]

theorem Listed.overdueJobs_eq (h : s.Listed) {client : Client} (hc : client ∈ s.clients) :
    s.overdueJobs client.id = (client.held.upTo s.now).map (·.job) := by
  rw [overdueJobs, (client?_eq_some_iff h.clients).2 ⟨hc, rfl⟩, Option.map_some, Option.getD_some]

theorem Listed.overdue_of_mem (h : s.Listed) {id : JobId} (hid : id ∈ s.overdueJobs c) :
    ∃ job ∈ s.jobs, job.id = id ∧ isOverdue s.now job = true := by
  cases hclient : s.client? c with
  | none => simp [overdueJobs, hclient] at hid
  | some client =>
    obtain ⟨hc, rfl⟩ := (client?_eq_some_iff h.clients).1 hclient
    rw [h.overdueJobs_eq hc] at hid
    obtain ⟨slot, hslot, rfl⟩ := List.mem_map.1 hid
    obtain ⟨hheld, hle⟩ := (h.heldOrdered client hc).mem_upTo.1 hslot
    obtain ⟨job, hj, hsame, hst⟩ := (h.held client hc slot).1 hheld
    exact ⟨job, hj, hsame, by simp [isOverdue, hst, hle]⟩

theorem Listed.nodup_overdueJobs (h : s.Listed) : (s.overdueJobs c).Nodup := by
  cases hclient : s.client? c with
  | none => simp [overdueJobs, hclient]
  | some client =>
    obtain ⟨hc, rfl⟩ := (client?_eq_some_iff h.clients).1 hclient
    rw [h.overdueJobs_eq hc]
    exact (h.nodup_held hc).sublist ((List.takeWhile_sublist _).map _)

/-- The overdue jobs are at the front of the agenda of the client. -/
theorem nearest?_of_overdueJobs {id : JobId} {ids : List JobId}
    (h : s.overdueJobs c = id :: ids) :
    ∃ slot, s.nearest? c = some slot ∧ slot.job = id ∧ slot.rank ≤ s.now := by
  cases hclient : s.client? c with
  | none => simp [overdueJobs, hclient] at h
  | some client =>
    simp only [overdueJobs, hclient, Option.map_some, Option.getD_some, Agenda.upTo] at h
    cases hheld : client.held with
    | nil => simp [hheld] at h
    | cons slot more =>
      rw [hheld, List.takeWhile_cons] at h
      split at h
      · next hle =>
        rw [List.map_cons, List.cons.injEq] at h
        exact ⟨slot, by simp [nearest?, hclient, hheld], h.1, of_decide_eq_true hle⟩
      · cases h

theorem not_le_of_nearest? {slot : Slot} (h : s.overdueJobs c = [])
    (hnext : s.nearest? c = some slot) : ¬slot.rank ≤ s.now := by
  intro hle
  simp only [nearest?, Option.bind_eq_some_iff] at hnext
  obtain ⟨client, hclient, hhead⟩ := hnext
  cases hheld : client.held with
  | nil => simp [hheld] at hhead
  | cons first more =>
    obtain rfl : first = slot := by simpa [hheld] using hhead
    simp [overdueJobs, hclient, hheld, Agenda.upTo, hle] at h

section Walk

variable (h : Returning (isOverdue s₀.now) (·.countTimeout) done s₀ s)

include h

/-- On the way, a client has lost the overdue jobs that were taken, and been given none. -/
theorem Returning.overdueJobs (c : ClientId) :
    s.overdueJobs c = (s₀.overdueJobs c).filter (· ∉ done) := by
  have hr := return_of_isOverdue s₀.now
  have hkeys : s.clients.keys = s₀.clients.keys := by
    have hposts := congrArg (List.map Post.id) h.posts.clients
    rwa [List.map_map, List.map_map] at hposts
  cases hclient : s₀.client? c with
  | none =>
    have hnone : s.client? c = none := by
      rw [client?, Table.lookup_eq_none_iff, hkeys]
      exact Table.lookup_eq_none_iff.1 hclient
    simp [Engine.overdueJobs, hclient, hnone]
  | some client =>
    obtain ⟨hc, rfl⟩ := (client?_eq_some_iff h.start.listed.clients).1 hclient
    have hkey : client.id ∈ s.clients.keys := hkeys ▸ List.mem_map_of_mem (f := Keyed.key) hc
    obtain ⟨later, hl, hid⟩ := List.mem_map.1 hkey
    have hid : later.id = client.id := hid
    have hslots : later.held.upTo s.now =
        (client.held.upTo s₀.now).filter fun slot => slot.job ∉ done := by
      have hsorted := h.sound.listed.heldOrdered later hl
      have hsorted₀ := h.start.listed.heldOrdered client hc
      refine Agenda.Sorted.ext (hsorted.sublist (List.takeWhile_sublist _))
        ((hsorted₀.sublist (List.takeWhile_sublist _)).filter _) fun slot => ?_
      rw [hsorted.mem_upTo, List.mem_filter, hsorted₀.mem_upTo, h.sound.listed.held later hl,
        h.start.listed.held client hc, hid, h.evolves.now, decide_eq_true_eq]
      have hold {x : Job} (hset : x.Settled) (hst : x.state = .reserved client.id slot.rank)
          (hle : slot.rank ≤ s₀.now) : x ∈ s.jobs ↔ x ∈ s₀.jobs ∧ x.id ∉ done := by
        have hreturn := hr x (by simp [isOverdue, hst, hle])
        exact h.mem_jobs_iff hr hreturn.not_ready (hreturn.not_fresh hset)
      constructor
      · rintro ⟨⟨x, hx, hxid, hst⟩, hle⟩
        obtain ⟨hx, hnot⟩ := (hold (h.sound.settled x hx) hst hle).1 hx
        exact ⟨⟨⟨x, hx, hxid, hst⟩, hle⟩, hxid ▸ hnot⟩
      · rintro ⟨⟨⟨x, hx, hxid, hst⟩, hle⟩, hnot⟩
        exact ⟨⟨x, (hold (h.start.settled x hx) hst hle).2 ⟨hx, hxid ▸ hnot⟩, hxid, hst⟩, hle⟩
    rw [h.start.listed.overdueJobs_eq hc, ← hid, h.sound.listed.overdueJobs_eq hl, hslots,
      List.filter_map]
    rfl

theorem Returning.open_of_overdue {id : JobId} (hid : id ∈ s.overdueJobs c) :
    id ∉ done ∧ ∃ job ∈ s₀.jobs, job.id = id ∧ isOverdue s₀.now job = true := by
  rw [h.overdueJobs c] at hid
  obtain ⟨hid, hnot⟩ := List.mem_filter.1 hid
  exact ⟨of_decide_eq_true hnot, h.start.listed.overdue_of_mem hid⟩

/-- A turn takes the overdue jobs of the client in their order. -/
theorem Returning.takes {ids : List JobId} (hids : s.overdueJobs c = ids) :
    Takes c (transitionEach expire s ids).1 s (transitionEach expire s ids).2 := by
  have hr := return_of_isOverdue s₀.now
  induction ids generalizing done s with
  | nil => exact .done fun slot hnext hle => absurd hle (not_le_of_nearest? hids hnext)
  | cons id rest ih =>
    have hmem : id ∈ s.overdueJobs c := hids ▸ List.mem_cons_self
    obtain ⟨slot, hnext, rfl, hle⟩ := nearest?_of_overdueJobs hids
    obtain ⟨hnot, job, hj, hid, hover⟩ := h.open_of_overdue hmem
    rw [← hid] at hnot
    have hstep := h.step hr expire_of_now hj hover hnot
    rw [hid] at hstep
    have hback := h.back hr hj hover hnot
    -- the job is struck off the agenda, and nothing overdue is put on it
    have hfresh : slot.job ∉ rest :=
      (List.nodup_cons.1 (hids ▸ h.sound.listed.nodup_overdueJobs)).1
    have hless : (s.enterReady job (·.countTimeout)).overdueJobs c = rest := by
      calc (s.enterReady job (·.countTimeout)).overdueJobs c
        _ = (s₀.overdueJobs c).filter (· ∉ done ++ [job.id]) := hback.overdueJobs c
        _ = ((s₀.overdueJobs c).filter (· ∉ done)).filter (· ≠ slot.job) := by
          rw [List.filter_filter, hid]
          exact List.filter_congr fun id _ => by simp [and_comm]
        _ = rest := by
          rw [← h.overdueJobs c, hids, List.filter_cons_of_neg (by simp)]
          exact filter_ne_eq_self hfresh
    have hturn := ih hback hless
    rw [transitionEach_cons, hstep, Bool.toNat_true, Nat.add_comm]
    exact .turn hnext hle (by rw [hstep]) (by rw [hstep]; exact hturn)

/-- A turn takes all the overdue jobs of the client, and none of them is refused. -/
theorem Returning.taken (c : ClientId) :
    (transitionEach expire s (s.overdueJobs c)).1 = (s.overdueJobs c).length ∧
      Returning (isOverdue s₀.now) (·.countTimeout) (done ++ s.overdueJobs c) s₀
        (transitionEach expire s (s.overdueJobs c)).2 :=
  h.row (return_of_isOverdue s₀.now) expire_of_now h.sound.listed.nodup_overdueJobs
    fun _ => h.open_of_overdue

end Walk

/-! ## The clients one after the other -/

/-- The sweep of some clients. -/
def expireEach (s : Engine) (clients : List ClientId) : Nat × Engine :=
  clients.foldl (fun total c => (total.1 + (total.2.expireClient c).1, (total.2.expireClient c).2))
    (0, s)

theorem expirySweep_eq (s : Engine) : s.expirySweep = s.expireEach s.expiring :=
  rfl

theorem expireEach_cons (s : Engine) (c : ClientId) (rest : List ClientId) :
    s.expireEach (c :: rest) =
      ((s.expireClient c).1 + ((s.expireClient c).2.expireEach rest).1,
        ((s.expireClient c).2.expireEach rest).2) :=
  foldl_total_cons (fun n => n) expireClient c rest s

theorem Returning.takesEach (clients : List ClientId)
    (h : Returning (isOverdue s₀.now) (·.countTimeout) done s₀ s) :
    TakesEach clients (s.expireEach clients).1 s (s.expireEach clients).2 ∧
      ∃ more, (s.expireEach clients).1 = more.length ∧
        Returning (isOverdue s₀.now) (·.countTimeout) (done ++ more) s₀
          (s.expireEach clients).2 := by
  induction clients generalizing done s with
  | nil => exact ⟨.nil, [], rfl, (List.append_nil done).symm ▸ h⟩
  | cons c rest ih =>
    have htakes : Takes c _ s _ := h.takes rfl
    obtain ⟨hcount, htaken⟩ := h.taken c
    obtain ⟨hrest, more, hcounts, hall⟩ := ih (htaken.dropIdle c)
    rw [expireEach_cons]
    refine ⟨.cons htakes hrest, s.overdueJobs c ++ more, ?_, ?_⟩
    · rw [List.length_append]
      exact congrArg₂ (· + ·) hcount hcounts
    · rw [← List.append_assoc]
      exact hall

/-! ## Who is looked after -/

/-- A client holds a job. -/
def Holds (s : Engine) (c : ClientId) : Prop :=
  ∃ client ∈ s.clients, client.id = c ∧ client.held ≠ []

theorem Listed.holds_iff (h : s.Listed) :
    s.Holds c ↔ ∃ job ∈ s.jobs, ∃ due, job.state = .reserved c due := by
  constructor
  · rintro ⟨client, hc, rfl, hsome⟩
    obtain ⟨slot, hslot⟩ := List.exists_mem_of_ne_nil _ hsome
    obtain ⟨job, hj, -, hst⟩ := (h.held client hc slot).1 hslot
    exact ⟨job, hj, slot.rank, hst⟩
  · rintro ⟨job, hj, due, hst⟩
    obtain ⟨client, rfl, hclient, -⟩ := client?_of_isConnected (h.holders job hj c due hst)
    obtain ⟨hc, -⟩ := (client?_eq_some_iff h.clients).1 hclient
    have hslot : (⟨due, job.id⟩ : Slot) ∈ client.held := (h.held client hc _).2 ⟨job, hj, rfl, hst⟩
    exact ⟨client, hc, rfl, List.ne_nil_of_mem hslot⟩

theorem dropIdle_frame (s : Engine) (c : ClientId) :
    (s.dropIdle c).jobs = s.jobs ∧ (s.dropIdle c).now = s.now := by
  unfold dropIdle
  split <;> exact ⟨rfl, rfl⟩

theorem mem_dropIdle (h : s.Listed) {d : ClientId} :
    d ∈ (s.dropIdle c).expiring ↔ d ∈ s.expiring ∧ (d = c → s.Holds c) := by
  have hidle : (s.client? c).all (·.held.isEmpty) = true ↔ ¬s.Holds c := by
    cases hclient : s.client? c with
    | none =>
      refine iff_of_true rfl fun ⟨client, hc, hid, _⟩ => ?_
      cases hclient.symm.trans ((client?_eq_some_iff h.clients).2 ⟨hc, hid⟩)
    | some client =>
      obtain ⟨hc, hid⟩ := (client?_eq_some_iff h.clients).1 hclient
      rw [Option.all_some, List.isEmpty_iff]
      constructor
      · rintro hnil ⟨other, hother, hsame, hsome⟩
        obtain rfl := Table.eq_of_key_eq h.clients.nodup hother hc (hsame.trans hid.symm)
        exact hsome hnil
      · exact fun hnot => by_contra fun hsome => hnot ⟨client, hc, hid, hsome⟩
  unfold dropIdle
  split
  · next hall =>
    have hnot := hidle.1 hall
    simp [List.mem_filter, hnot]
  · next hbusy =>
    have hholds : s.Holds c := not_not.1 (mt hidle.2 hbusy)
    simp [hholds]

/-- A client holds a job with a deadline to come. -/
def HoldsBeyond (s : Engine) (c : ClientId) : Prop :=
  ∃ job ∈ s.jobs, ∃ due, job.state = .reserved c due ∧ s.now < due

/-- Who is looked after is one of those that are still to have their turn, or holds a job with a
deadline to come. -/
def Watched (rest : List ClientId) (s : Engine) : Prop :=
  ∀ c ∈ s.expiring, c ∈ rest ∨ s.HoldsBeyond c

theorem HoldsBeyond.of_eq (h : s.HoldsBeyond c) (hjobs : t.jobs = s.jobs) (hnow : t.now = s.now) :
    t.HoldsBeyond c := by
  obtain ⟨job, hj, due, hst, hlt⟩ := h
  exact ⟨job, hjobs ▸ hj, due, hst, hnow ▸ hlt⟩

/-- A move of another job. -/
theorem HoldsBeyond.move {job : Job} {f : Job → Job} (h : s.HoldsBeyond c)
    (hn : s.jobs.Numbered) (hj : s.job? job.id = some job) (htube : (f job).tube = job.tube)
    (hfree : ∀ d due, job.state = .reserved d due → due ≤ s.now) :
    (s.move job.id f).HoldsBeyond c := by
  obtain ⟨x, hx, due, hst, hlt⟩ := h
  obtain ⟨hmem, -⟩ := (job?_eq_some_iff hn).1 hj
  refine ⟨x, mem_jobs_move_of_ne hj htube hx fun hsame => ?_, due, hst, ?_⟩
  · obtain rfl := Table.eq_of_key_eq hn.nodup hx hmem hsame
    exact Nat.not_le_of_lt hlt (hfree c due hst)
  · rw [move_eq hj htube]
    exact hlt

theorem Watched.move {job : Job} {f : Job → Job} (h : Watched rest s) (hn : s.jobs.Numbered)
    (hj : s.job? job.id = some job) (htube : (f job).tube = job.tube)
    (hfree : ∀ d due, job.state = .reserved d due → due ≤ s.now) :
    Watched rest (s.move job.id f) := by
  intro c hc
  have hexpiring : (s.move job.id f).expiring = s.expiring := by rw [move_eq hj htube]
  exact (h c (hexpiring ▸ hc)).imp_right fun hold => hold.move hn hj htube hfree

/-- Who is given a job is looked after, and the job is held until later. -/
theorem Watched.grant {name : TubeName} {q : Request} {id : JobId} (h : Watched rest s)
    (hs : s.Coherent) (hsettled : ∀ job ∈ s.jobs, job.Settled) (m : s.Match name q id) :
    Watched rest (s.grant q id) := by
  obtain ⟨job, hj, rfl, -, hst⟩ := hs.listed.ready_of_next? m.next
  obtain ⟨hmem, -⟩ := (job?_eq_some_iff hs.listed.jobs).1 hj
  set u := (s.finish q).move job.id (·.makeReserved s.now q.client) with hu
  obtain ⟨-, hjobs, -⟩ := m.grant_tables hs.tracked
  have hnow : (s.grant q job.id).now = u.now := by
    rw [m.grant_eq hs.tracked, served, watchDeadlines_eq]
    rfl
  have hmoved : Watched rest u :=
    Watched.move (s := s.finish q) h hs.listed.jobs hj rfl fun d due hheld => by
      cases hst.symm.trans hheld
  have hgiven : u.HoldsBeyond q.client := by
    have hpos : 0 < job.ttr := Nat.lt_of_lt_of_le (by decide) (hsettled job hmem).ttr
    have hnew : job.makeReserved s.now q.client ∈ u.jobs := by
      rw [hu, move_eq (s := s.finish q) hj rfl]
      exact Table.mem_adjust.2 (Or.inl ⟨job, hmem, rfl, rfl⟩)
    refine ⟨_, hnew, _, rfl, ?_⟩
    rw [hu, (move_frame (s.finish q) job.id _).1]
    exact Nat.lt_add_of_pos_right hpos
  intro c hc
  rw [m.grant_eq hs.tracked, served] at hc
  have hc : c = q.client ∨ c ∈ u.expiring := mem_watchDeadlines.1 hc
  rcases hc with rfl | hc
  · exact Or.inr (hgiven.of_eq hjobs hnow)
  · exact (hmoved c hc).imp_right fun hold => hold.of_eq hjobs hnow

theorem watched_expire (h : Sound none none s ∧ Watched rest s) (id : JobId) :
    Sound none none (s.expire id).2 ∧ Watched rest (s.expire id).2 := by
  refine transition_cases (P := fun t => Sound none none t ∧ Watched rest t) (fun _ => h)
    fun job hj _ hover => ?_
  have hr : Return s.now none job (·.countTimeout) := .expire hover
  have hmoved : Watched rest (s.move job.id fun job => job.countTimeout.makeReady) :=
    h.2.move h.1.listed.jobs hj rfl fun d due hst => by
      rw [isOverdue, hst] at hover
      exact of_decide_eq_true hover
  exact (h.1.comeBack hj hr).drain_keeping
    (fun _ _ _ hs hw m => hw.grant hs.toCoherent hs.settled m.toMatch) (fun _ _ hw => hw) hmoved

/-- A client that has had its turn is only looked after if it holds a job with a deadline to come.
-/
theorem Watched.expireClient (h : Watched (c :: rest) s) (hs : s.Whole) :
    Watched rest (s.expireClient c).2 := by
  set u := (transitionEach expire s (s.overdueJobs c)).2 with hu
  obtain ⟨hsound, hwatched⟩ : Sound none none u ∧ Watched (c :: rest) u :=
    transitionEach_keeps (P := fun u => Sound none none u ∧ Watched (c :: rest) u)
      (fun _ id hu => watched_expire hu id) _ ⟨hs.sound, h⟩
  have hunexpired : Unexpired c (u.dropIdle c) := unexpired_expireClient hs c
  change Watched rest (u.dropIdle c)
  intro d hd
  obtain ⟨hd, hbusy⟩ := (mem_dropIdle hsound.listed).1 hd
  by_cases hne : d = c
  · obtain ⟨job, hj, due, hst⟩ := hsound.listed.holds_iff.1 (hbusy hne)
    rw [hne]
    refine Or.inr ⟨job, (dropIdle_frame u c).1.symm ▸ hj, due, hst, ?_⟩
    exact hunexpired job ((dropIdle_frame u c).1.symm ▸ hj) due hst
  · have hmem := (hwatched d hd).imp_left fun hmem => (List.mem_cons.1 hmem).resolve_left hne
    exact hmem.imp_right fun hold => hold.of_eq (dropIdle_frame u c).1 (dropIdle_frame u c).2

theorem Watched.expireEach (clients : List ClientId) (h : Watched clients s) (hs : s.Whole) :
    Watched [] (s.expireEach clients).2 := by
  induction clients generalizing s with
  | nil => exact h
  | cons c rest ih =>
    rw [expireEach_cons]
    exact ih (h.expireClient hs) ((stages_expireClient c).later hs).whole

/-! ## The sweep -/

/-- What an expiry sweep leaves. -/
structure TimesOut (s t : Engine) : Prop where
  jobs : BringsBack (fun job => isOverdue s.now job = true) (·.countTimeout) s t
  untouched : ∀ job ∈ s.jobs, ∀ c due, job.state = .reserved c due → s.now < due →
    job ∈ t.jobs ∧ ∃ client ∈ t.clients, client.id = c ∧ ⟨due, job.id⟩ ∈ client.held
  held : ∀ client ∈ t.clients, ∀ slot ∈ client.held, s.now < slot.rank
  expiring : ∀ c, c ∈ t.expiring ↔ t.Holds c

theorem Whole.holds_expiring (hs : s.Whole) (h : s.Holds c) : c ∈ s.expiring := by
  obtain ⟨job, hj, due, hst⟩ := hs.sound.listed.holds_iff.1 h
  exact hs.tended.deadlines job hj c due hst

/-- The loop comes to its end, with all jobs taken that are overdue. -/
theorem Whole.takesEach (hs : s.Whole) :
    TakesEach s.expiring s.expirySweep.1 s s.expirySweep.2 ∧
      ∃ done, s.expirySweep.1 = done.length ∧
        Returning (isOverdue s.now) (·.countTimeout) done s s.expirySweep.2 ∧
        ∀ job ∈ s.jobs, isOverdue s.now job = true ↔ job.id ∈ done := by
  have hstart : Returning (isOverdue s.now) (·.countTimeout) [] s s := .refl hs.sound
  obtain ⟨hends, done, hcount, hall⟩ := hstart.takesEach s.expiring
  rw [← expirySweep_eq] at hends hcount hall
  rw [List.nil_append] at hall
  refine ⟨hends, done, hcount, hall, fun job hj => ⟨fun hover => ?_, hall.open_of_mem hj⟩⟩
  by_contra hnot
  have hr := return_of_isOverdue s.now
  have hreturn := hr job hover
  have hleft : job ∈ s.expirySweep.2.jobs :=
    (hall.mem_jobs_iff hr hreturn.not_ready (hreturn.not_fresh (hs.sound.settled job hj))).2
      ⟨hj, hnot⟩
  unfold isOverdue at hover
  split at hover
  · next c due hst =>
    have hlate := unexpired_sweep hs c job hleft due hst
    rw [hall.evolves.now] at hlate
    exact Nat.not_le_of_lt hlate (of_decide_eq_true hover)
  · cases hover

theorem Whole.timesOut (hs : s.Whole) : TimesOut s s.expirySweep.2 := by
  obtain ⟨-, done, -, hall, hdone⟩ := hs.takesEach
  have hr := return_of_isOverdue s.now
  have hlater : Later s s.expirySweep.2 := stages_expirySweep.later hs
  have hl := hlater.whole.sound.listed
  -- a job with a deadline to come is safe
  have hspares : Spares (fun job => isOverdue s.now job = false) (fun _ => False) s
      s.expirySweep.2 :=
    (Sparing.expirySweep (.refl hs.sound) fun job hover hsafe =>
      Bool.false_ne_true (hsafe.symm.trans hover)).spares
  refine ⟨hall.bringsBack hr stages_expirySweep hspares hdone, fun job hj c due hst hlt => ?_,
    fun client hc slot hslot => ?_, fun c => ⟨fun hc => ?_, hlater.whole.holds_expiring⟩⟩
  · have hkept : job ∈ s.expirySweep.2.jobs :=
      hspares.kept job hj ⟨c, due, hst⟩ (by simp [isOverdue, hst, hlt])
    obtain ⟨client, rfl, hclient, -⟩ := client?_of_isConnected (hl.holders job hkept c due hst)
    obtain ⟨hc, -⟩ := (client?_eq_some_iff hl.clients).1 hclient
    exact ⟨hkept, client, hc, rfl, (hl.held client hc _).2 ⟨job, hkept, rfl, hst⟩⟩
  · obtain ⟨job, hj, -, hst⟩ := (hl.held client hc slot).1 hslot
    have hlate := unexpired_sweep hs client.id job hj slot.rank hst
    rwa [hlater.now] at hlate
  · have hwatched : Watched [] s.expirySweep.2 :=
      Watched.expireEach s.expiring (fun c hc => Or.inl hc) hs
    obtain ⟨job, hj, due, hst, -⟩ := (hwatched c hc).resolve_left List.not_mem_nil
    exact hl.holds_iff.2 ⟨job, hj, due, hst⟩

end Engine

namespace Broker

open Engine

/-- What the expiry sweep does. -/
structure SweepsOverdue (b : Broker) : Prop where
  expiring : ∀ c, b.engine.Holds c → c ∈ b.engine.expiring
  ends : ∀ n t, TakesEach b.engine.expiring n b.engine t ↔ b.engine.expirySweep = (n, t)
  sweep : TimesOut b.engine b.engine.expirySweep.2
  count : b.engine.expirySweep.1 = b.engine.jobs.countP (isOverdue b.engine.now)

/-- The expiry sweep comes to its end. It takes the reservations that are overdue and no others, and
then looks after those clients that hold a job. -/
theorem expiry_sweep_times_out (config : Config) (events : List Event) :
    ((start config).after events).SweepsOverdue := by
  have hb := (Reachable.start config).after events
  obtain ⟨hends, done, hcount, hall, hdone⟩ := hb.whole.takesEach
  refine ⟨fun c => hb.whole.holds_expiring, fun n t => ⟨fun h => ?_, fun h => ?_⟩,
    hb.whole.timesOut, ?_⟩
  · obtain ⟨rfl, rfl⟩ := hends.unique h
    rfl
  · rw [h] at hends
    exact hends
  · rw [hcount]
    refine hb.sound.listed.length_eq_countP hall.nodup fun id => ⟨hall.opened id, ?_⟩
    rintro ⟨job, hj, rfl, hover⟩
    exact (hdone job hj).1 hover

/-- A client makes two requests, and the job that the first one is answered with is overdue. -/
def askedTwice : List Event :=
  [.connect, .connect, .command 1 .reserve none, .command 1 .reserve none,
    .command 2 (.put 0 0 1 1) (some [120]), .advance 1000]

example :
    let s := ((start {}).after askedTwice).engine
    let t := s.expirySweep.2
    s.jobs.map (·.state) = [.reserved 1 1000] ∧ s.expirySweep.1 = 1 ∧
    t.jobs.map (fun job => (job.state, job.counts.timeouts)) = [(.reserved 1 2000, 1)] ∧
    t.expiring = [1] ∧ t.outcome? 2 = some (.reserved 1) := by
  decide

end Broker

end WorkQueue
