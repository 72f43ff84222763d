import WorkQueue.Proofs.Posts
import WorkQueue.Proofs.Reachable

/-!
# No lost wake-up

In every state that comes up, a tube without a pause on record has no ready job or nobody in its
queue is waiting. A tube with a pause that has run out gets there with the next delayed sweep, which
takes the pause off the record and drains the tube (`Broker.Reachable.no_lost_wakeup`). What the
sweep does besides only eases the tubes : no pause begins or gets longer (`Engine.Eases`).
-/

namespace WorkQueue

namespace Engine

variable {s t : Engine}

/-- The tubes are the same, and their pauses are as before or off the record. -/
structure Eases (s t : Engine) : Prop where
  now : t.now = s.now
  keys : t.tubes.keys = s.tubes.keys
  pauses : ∀ b ∈ t.tubes, ∃ a ∈ s.tubes, b.name = a.name ∧
    (b.pausedUntil = a.pausedUntil ∨ b.pausedUntil = none)

namespace Eases

theorem of_eq (hnow : t.now = s.now) (htubes : t.tubes = s.tubes) : Eases s t :=
  ⟨hnow, by rw [htubes], fun b hb => ⟨b, htubes ▸ hb, rfl, Or.inl rfl⟩⟩

theorem adjustTube (s : Engine) (name : TubeName) {f : Tube → Tube}
    (hf : ∀ tube, (f tube).name = tube.name ∧
      ((f tube).pausedUntil = tube.pausedUntil ∨ (f tube).pausedUntil = none)) :
    Eases s (s.adjustTube name f) := by
  exact ⟨rfl, keys_adjustTube s name fun tube => (hf tube).1, fun _ hb =>
    Table.exists_of_mem_adjust (R := fun a b => b.name = a.name ∧
      (b.pausedUntil = a.pausedUntil ∨ b.pausedUntil = none))
      (fun _ => ⟨rfl, Or.inl rfl⟩) (fun tube _ => hf tube) hb⟩

end Eases

/-- Whatever leaves the posts as they are eases the tubes. -/
theorem SamePosts.eases (h : SamePosts s t) : Eases s t := by
  refine ⟨h.now, h.keys, fun b hb => ?_⟩
  obtain ⟨a, ha, hstays⟩ := h.tubes b hb
  exact ⟨a, ha, hstays.name, hstays.pause.imp_right And.right⟩

/-! ## Pauses that are over -/

/-- No pause on the record of a tube has run out. -/
def Resumed (s : Engine) (name : TubeName) : Prop :=
  ∀ tube ∈ s.tubes, tube.name = name → tube.pauseIsOver s.now = false

theorem Resumed.eases {name : TubeName} (h : s.Resumed name) (he : Eases s t) : t.Resumed name := by
  intro b hb hname
  obtain ⟨a, ha, hab, hpause | hpause⟩ := he.pauses b hb
  · have hover := h a ha (hab ▸ hname)
    rwa [Tube.pauseIsOver, he.now, hpause]
  · simp [Tube.pauseIsOver, hpause]

theorem resumed_resume (s : Engine) (name : TubeName) (h : s.tubes.keys.Nodup) :
    (s.resume name).Resumed name := by
  unfold resume
  split
  · next hover =>
    refine Resumed.eases (fun tube ht hname => ?_) (SamePosts.drain _ name).eases
    rcases Table.mem_adjust.1 ht with ⟨a, -, -, rfl⟩ | ⟨-, hne⟩
    · rfl
    · exact absurd hname hne
  · next hover =>
    intro tube ht hname
    rw [(tube?_eq_some_iff h).2 ⟨ht, hname⟩] at hover
    exact eq_false_of_ne_true hover

/-- A delayed sweep of some tubes takes their pauses off the record that have run out. -/
theorem resumed_sweep (names : List TubeName) (n : Nat) (s : Engine) (h : s.tubes.keys.Nodup) :
    ∀ name ∈ names, (names.foldl (fun (total : Nat × Engine) name =>
      (total.1 + (total.2.sweepTube name).1, (total.2.sweepTube name).2)) (n, s)).2.Resumed
        name := by
  induction names generalizing n s with
  | nil => exact nofun
  | cons first rest ih =>
    have hkeys : (s.sweepTube first).2.tubes.keys.Nodup :=
      (SamePosts.sweepTube s first h).keys ▸ h
    intro name hname
    rcases List.mem_cons.1 hname with rfl | hname
    · have hpromoted := SamePosts.transitionEach .promote s ((s.dueJobs name).take promotionCap)
      have hfirst : (s.sweepTube name).2.Resumed name :=
        resumed_resume _ name (hpromoted.keys ▸ h)
      exact hfirst.eases (SamePosts.sweepTubes rest _ _ hkeys).eases
    · exact ih _ _ hkeys name hname

end Engine

namespace Broker

variable {b : Broker}

/-- No wake-up is lost : a tube without a pause on record is at rest, and one whose pause has run
out is so after the next delayed sweep. -/
theorem Reachable.no_lost_wakeup (h : Reachable b) :
    (∀ tube ∈ b.engine.tubes, tube.pausedUntil = none → b.engine.AtRest tube) ∧
      ∀ tube ∈ b.engine.tubes, tube.pauseIsOver b.engine.now = true →
        ∃ swept, b.delayedSweep.2.engine.tube? tube.name = some swept ∧ swept.pausedUntil = none ∧
          b.delayedSweep.2.engine.AtRest swept := by
  refine ⟨fun tube ht hpause => h.sound.awake tube ht nofun hpause, fun tube ht hover => ?_⟩
  have hswept : Reachable b.delayedSweep.2 := h.step .delayedSweep
  have hnodup := h.sound.listed.tubes
  have heases : Engine.Eases b.engine b.delayedSweep.2.engine :=
    (Engine.SamePosts.delayedSweep b.engine hnodup).eases
  have hkey : tube.name ∈ b.engine.tubes.keys := List.mem_map_of_mem ht
  have hresumed : b.delayedSweep.2.engine.Resumed tube.name :=
    Engine.resumed_sweep b.engine.tubes.keys 0 b.engine hnodup tube.name hkey
  obtain ⟨swept, hmem, hname⟩ := List.mem_map.1 (heases.keys ▸ hkey)
  obtain ⟨old, hold, hsame, hpause⟩ := heases.pauses swept hmem
  have hname : swept.name = tube.name := hname
  obtain rfl := h.sound.listed.tube_ext hold ht (hsame.symm.trans hname)
  have hnone : swept.pausedUntil = none := by
    refine hpause.resolve_left fun heq => ?_
    have hnot := hresumed swept hmem hname
    rw [Tube.pauseIsOver, heases.now, heq] at hnot
    rw [Tube.pauseIsOver, hnot] at hover
    cases hover
  exact ⟨swept, (Engine.tube?_eq_some_iff hswept.sound.listed.tubes).2 ⟨hmem, hname⟩, hnone,
    hswept.sound.awake swept hmem nofun hnone⟩

/-- A client waits at a paused tube into which another one puts a job, and the pause runs out. -/
def sleepingWorker : List Event :=
  [.connect, .connect, .command 1 (.pauseTube .default 0) none, .command 2 .reserve none,
    .command 1 (.put 0 0 60 1) (some [120]), .advance 1000]

theorem no_lost_wakeup_sleepingWorker :
    ((∀ tube ∈ ((start {}).after sleepingWorker).engine.tubes, tube.pausedUntil = none →
        ((start {}).after sleepingWorker).engine.AtRest tube) ∧
      ∀ tube ∈ ((start {}).after sleepingWorker).engine.tubes,
        tube.pauseIsOver ((start {}).after sleepingWorker).engine.now = true →
          ∃ swept, ((start {}).after sleepingWorker).delayedSweep.2.engine.tube? tube.name =
              some swept ∧ swept.pausedUntil = none ∧
            ((start {}).after sleepingWorker).delayedSweep.2.engine.AtRest swept) ∧
    ((start {}).after sleepingWorker).engine.tubes.map (fun tube =>
      (tube.pausedUntil, tube.ready, tube.waiters)) = [(some 1000, [⟨0, 1⟩], [1])] ∧
    ((start {}).after sleepingWorker).delayedSweep.2.engine.deliveries =
      [⟨1, .reserved 1, 1000⟩] :=
  ⟨Reachable.no_lost_wakeup ((Reachable.start {}).after sleepingWorker), by decide, by decide⟩

end Broker

end WorkQueue
