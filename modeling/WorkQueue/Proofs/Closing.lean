import WorkQueue.Proofs.Staged

/-!
# Closing a client

A client that is closed gives up its requests, so that it gets no job any more, and gives back the
jobs it holds. After that no job is reserved by it (`not_held_giveBackAll`), and closing it leaves
the engine sound (`Sound.close`). What happens on the way is the course of an event in which the
client acts and waits for nothing (`close_course`).
-/

namespace WorkQueue

namespace Engine

variable {s t : Engine} {c : ClientId} {leaving : Option ClientId}

/-! ## Giving all jobs back -/

/-- No job that was not held by a client before its tube is drained is held by it afterwards, if the
client waits for nothing. -/
theorem held_before_drain {name : TubeName} (hs : Sound leaving (some name) s)
    (hopen : ∀ q, s.isOpen q = true → some q.client ≠ some c) :
    ∀ x ∈ (s.drain name).jobs, x.holder? = some c →
      ∃ old ∈ s.jobs, old.id = x.id ∧ old.holder? = some c := by
  intro x hx hheld
  have hcourse := ((Course.refl hs.listed.jobs).drain hopen hs).2
  rcases hcourse.jobs x hx with hk | ht
  · obtain ⟨old, hold, hh⟩ := hk.holder c hheld
    obtain ⟨hmem, hid⟩ := (job?_eq_some_iff hs.listed.jobs).1 hold
    exact ⟨old, hmem, hid, hh⟩
  · have hnot := ht.not_held rfl
    simp [Job.isHeldBy, hheld] at hnot

/-- After a client has given back a job, it holds none but those it held before, and not that one.
-/
theorem held_giveBack (hs : Sound leaving none s)
    (hopen : ∀ q, s.isOpen q = true → some q.client ≠ some c) (id : JobId) :
    ∀ x ∈ (s.giveBack c id).2.jobs, x.holder? = some c →
      ∃ old ∈ s.jobs, old.id = x.id ∧ old.holder? = some c ∧ old.id ≠ id := by
  refine transition_cases (P := fun t => ∀ x ∈ t.jobs, x.holder? = some c →
    ∃ old ∈ s.jobs, old.id = x.id ∧ old.holder? = some c ∧ old.id ≠ id)
    (fun hrefused => ?_) fun job hj hid hheld => ?_
  · intro x hx hh
    refine ⟨x, hx, rfl, hh, fun hid => ?_⟩
    have hnot := hrefused x ((job?_eq_some_iff hs.listed.jobs).2 ⟨hx, hid⟩)
    simp [Job.isHeldBy, hh] at hnot
  · intro x hx hh
    have hr : Return s.now (some c) job fun job => job := .giveBack rfl hheld
    have hopen' : ∀ q, (s.move job.id fun job => job.makeReady).isOpen q = true →
        some q.client ≠ some c := fun q ho =>
      hopen q ((sameDesk_move (f := fun job => job.makeReady) hj rfl).isOpen q ▸ ho)
    obtain ⟨old, hold, hsame, hc⟩ :=
      held_before_drain (hs.comeBack hj hr) hopen' x hx hh
    rcases of_mem_jobs_move (f := fun job => job.makeReady) hj rfl hold with rfl | ⟨hold, hne⟩
    · cases hc
    · exact ⟨old, hold, hsame, hc, hid ▸ hne⟩

theorem not_held_foldl_giveBack (slots : List Slot) (hs : Sound leaving none s)
    (hopen : ∀ q, s.isOpen q = true → some q.client ≠ some c)
    (hslots : ∀ x ∈ s.jobs, x.holder? = some c → ∃ slot ∈ slots, slot.job = x.id) :
    ∀ x ∈ (slots.foldl (fun s slot => (s.giveBack c slot.job).2) s).jobs, x.holder? ≠ some c := by
  induction slots generalizing s with
  | nil =>
    intro x hx hh
    obtain ⟨slot, hslot, -⟩ := hslots x hx hh
    exact List.not_mem_nil hslot
  | cons slot rest ih =>
    have hk := (stages_giveBack c slot.job).keeps hs (.refl hs.listed.jobs) hopen
    refine ih hk.1 (fun q ho => hopen q (hk.2.isOpen q ho)) fun x hx hh => ?_
    obtain ⟨old, hold, hid, hc, hne⟩ := held_giveBack hs hopen slot.job x hx hh
    obtain ⟨other, hother, hjob⟩ := hslots old hold hc
    rcases List.mem_cons.1 hother with rfl | hother
    · exact absurd hjob.symm hne
    · exact ⟨other, hother, hjob.trans hid⟩

/-- A client that has given all its jobs back holds none. -/
theorem not_held_giveBackAll {client : Client} (hc : s.client? c = some client)
    (hs : Sound leaving none s) (hopen : ∀ q, s.isOpen q = true → some q.client ≠ some c) :
    ∀ x ∈ (s.giveBackAll c).jobs, x.holder? ≠ some c := by
  unfold giveBackAll
  rw [hc]
  refine not_held_foldl_giveBack _ hs hopen fun x hx hh => ?_
  obtain ⟨due, hst⟩ := Job.isHeldBy_iff.1 (decide_eq_true hh)
  obtain ⟨hmem, rfl⟩ := (client?_eq_some_iff hs.listed.clients).1 hc
  exact ⟨⟨due, x.id⟩, (hs.listed.held client hmem _).2 ⟨x, hx, rfl, hst⟩, rfl⟩

/-! ## Departing -/

/-- Closes a client that has given everything up. -/
def shut (s : Engine) (c : ClientId) : Engine :=
  s.adjustClient c fun client => { client with closed := true, watching := [] }

theorem client?_shut (s : Engine) (c d : ClientId) : (s.shut c).client? d =
    (s.client? d).map fun client =>
      if client.id = c then { client with closed := true, watching := [] } else client :=
  client?_adjustClient s c (fun _ => by rfl) d

theorem isOpen_shut (s : Engine) (c : ClientId) (q : Request) :
    (s.shut c).isOpen q = s.isOpen q := by
  rw [isOpen, isOpen, client?_shut, Option.any_map]
  congr 1
  funext client
  split <;> rfl

theorem isConnected_shut (s : Engine) (c d : ClientId) :
    (s.shut c).isConnected d = (s.isConnected d && decide (d ≠ c)) := by
  rw [isConnected, isConnected, client?_shut, Option.any_map]
  cases hs : s.client? d with
  | none => rfl
  | some client =>
    have hid : client.id = d := Table.key_of_lookup hs
    by_cases hd : d = c <;> simp [hid, hd]

theorem Tracked.shut (h : s.Tracked) (hopen : ∀ q, s.isOpen q = true → q.client ≠ c) :
    (s.shut c).Tracked := by
  refine { h with asked := fun q hq => ?_, closed := fun d client ht hclosed => ?_,
                  unanswered := fun q hq ho => h.unanswered q hq (isOpen_shut s c q ▸ ho) }
  · obtain ⟨client, hs, hle⟩ := h.asked q hq
    rw [client?_shut, hs]
    refine ⟨_, rfl, ?_⟩
    dsimp only
    split <;> exact hle
  · rw [client?_shut, Option.map_eq_some_iff] at ht
    obtain ⟨client, hs, rfl⟩ := ht
    split
    · next hid =>
      -- any open task would be that of an open request
      refine List.eq_nil_iff_forall_not_mem.2 fun k hk => ?_
      have hcd : client.id = d := Table.key_of_lookup hs
      refine hopen { id := 0, client := d, task := k, tubes := [], timeout := none, made := 0
                     timer := none } ?_ (hcd.symm.trans hid)
      simpa [Engine.isOpen, hs, Tasks.isOpen] using hk
    · next hid =>
      rw [if_neg hid] at hclosed
      exact h.closed d client hs hclosed

/-- A client that holds nothing and waits for nothing can be closed. -/
theorem Sound.shut (h : Sound (some c) none s) (hheld : ∀ x ∈ s.jobs, x.holder? ≠ some c)
    (hopen : ∀ q, s.isOpen q = true → q.client ≠ c) : Sound none none (s.shut c) := by
  have hl : (s.shut c).Listed := h.listed.adjustClient c (fun _ => ⟨rfl, rfl⟩)
    fun x hx due hst => absurd (by simp [Job.holder?, hst]) (hheld x hx)
  have ha : Attended none (s.shut c) := by
    intro q hq _ hcon hun
    rw [isConnected_shut, Bool.and_eq_true, decide_eq_true_eq] at hcon
    rw [isOpen_shut]
    exact h.attended q hq (fun he => hcon.2 (Option.some.inj he)) hcon.1 hun
  have hquiet : Quiet none s (s.shut c) :=
    ⟨⟨[], (List.append_nil _).symm, List.forall_mem_nil _⟩, fun q _ ho => isOpen_shut s c q ▸ ho,
      fun b hb => ⟨b, hb, .refl _ b⟩⟩
  refine h.of_quiet hquiet ⟨hl, h.tracked.shut hopen⟩ ha ?_ h.settled
  have hmem {b : Client} (hb : b ∈ (s.shut c).clients) :
      ∃ a ∈ s.clients, b.used = a.used ∧ (b.watching = a.watching ∨ b.watching = []) :=
    Table.exists_of_mem_adjust
      (R := fun a b => b.used = a.used ∧ (b.watching = a.watching ∨ b.watching = []))
      (fun _ => ⟨rfl, Or.inl rfl⟩) (fun _ _ => ⟨rfl, Or.inr rfl⟩) hb
  refine ⟨h.posted.default, fun b hb => ?_, fun b hb => ?_, fun b hb => ?_, h.posted.requests⟩
  · obtain ⟨a, ha, hu, -⟩ := hmem hb
    exact hu ▸ h.posted.used a ha
  · obtain ⟨a, ha, -, hw | hw⟩ := hmem hb
    · exact hw ▸ h.posted.watching a ha
    · exact hw ▸ List.nil_subset _
  · obtain ⟨a, ha, -, hw | hw⟩ := hmem hb
    · exact hw ▸ h.posted.distinct a ha
    · exact hw ▸ List.nodup_nil

/-- Leaving its tubes is aside of what a client holds and waits for. -/
theorem leave_tubes (names : List TubeName) (hs : Sound leaving none s) :
    Sound leaving none (names.foldl removeWatcher s) ∧ Aside s (names.foldl removeWatcher s) := by
  induction names generalizing s with
  | nil => exact ⟨hs, .refl s, rfl, rfl, rfl⟩
  | cons name rest ih =>
    obtain ⟨hsound, haside⟩ := ih (hs.removeWatcher name)
    exact ⟨hsound, (Aside.adjustTube s name _).trans haside⟩

/-- What happens while a client is closed : it has given up its requests, then it gives its jobs
back, and in the end it is shut. -/
theorem close_course {client : Client} (hs : Sound none none s)
    (hc : s.client? client.id = some client) :
    ∃ u, Sound (some client.id) none u ∧
      Course (some client.id) (some client.id) (s.finishAll client.id) u ∧
      (∀ x ∈ u.jobs, x.holder? ≠ some client.id) ∧ s.close client.id = u.shut client.id := by
  have h₁ := hs.finishAll client.id
  have hopen : ∀ q, (s.finishAll client.id).isOpen q = true → some q.client ≠ some client.id :=
    fun _ => ne_of_isOpen_finishAll
  obtain ⟨h₂, hcourse⟩ := (stages_giveBackAll client.id).keeps h₁ (.refl h₁.listed.jobs) hopen
  have hc' : (s.finishAll client.id).client? client.id =
      some { client with tasks := client.tasks.finishAll } :=
    (client?_adjustClient s client.id (fun _ => by rfl) client.id).trans (by simp [hc])
  have hheld := not_held_giveBackAll hc' h₁ hopen
  obtain ⟨h₃, haside⟩ := leave_tubes client.watching (h₂.removeUser client.used)
  have haside := (Aside.adjustTube _ client.used _).trans haside
  refine ⟨_, h₃, hcourse.aside haside, ?_, close_eq hc⟩
  rw [haside.jobs]
  exact hheld

theorem Sound.close {client : Client} (hs : Sound none none s)
    (hc : s.client? client.id = some client) : Sound none none (s.close client.id) := by
  obtain ⟨u, hu, hcourse, hheld, heq⟩ := close_course hs hc
  rw [heq]
  exact hu.shut hheld fun q ho he =>
    ne_of_isOpen_finishAll (hcourse.isOpen q ho) (congrArg some he)

end Engine

end WorkQueue
