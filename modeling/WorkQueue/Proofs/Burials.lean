import Mathlib.Data.List.Dedup
import WorkQueue.Proofs.Comebacks
import WorkQueue.Proofs.Dealings

/-!
# The order of burial

The list of the buried jobs of a tube is in the order in which they were buried : it is what the run
tells of the burials, each job at its last one, without those that are not buried in the tube any
more (`Broker.buried_in_order`). For whatever happens, the jobs that stay buried stay in their
order, and only a bury of the holder adds one, at the end (`Engine.BuriesLast`).
-/

namespace WorkQueue

open Relation

/-- A list with one more entry, each at its last place. -/
theorem dedup_concat {α : Type} [DecidableEq α] (l : List α) (a : α) :
    (l ++ [a]).dedup = l.dedup.filter (· ≠ a) ++ [a] := by
  induction l with
  | nil => simp
  | cons b rest ih =>
    rw [List.cons_append]
    by_cases hrest : b ∈ rest
    · rw [List.dedup_cons_of_mem hrest, List.dedup_cons_of_mem (List.mem_append_left _ hrest), ih]
    · by_cases hab : b = a
      · subst hab
        have hlast : b ∈ rest ++ [b] := List.mem_append_right _ List.mem_cons_self
        rw [List.dedup_cons_of_mem hlast, List.dedup_cons_of_notMem hrest, ih,
          List.filter_cons_of_neg (by simp)]
      · have hnot : b ∉ rest ++ [a] := by simp [hrest, hab]
        rw [List.dedup_cons_of_notMem hnot, List.dedup_cons_of_notMem hrest, ih,
          List.filter_cons_of_pos (by simpa using hab), List.cons_append]

theorem filter_ne_eq_self {α : Type} [DecidableEq α] {l : List α} {a : α} (h : a ∉ l) :
    l.filter (· ≠ a) = l :=
  List.filter_eq_self.2 fun _ hb => decide_eq_true (ne_of_mem_of_not_mem hb h)

/-- A list without the last entry of another one. -/
theorem sublist_of_not_mem {α : Type} [DecidableEq α] {l m : List α} {a : α}
    (hsub : l.Sublist (m ++ [a])) (h : a ∉ l) : l.Sublist m := by
  have hrest := hsub.filter (· ≠ a)
  rw [filter_ne_eq_self h, List.filter_append, List.filter_cons_of_neg (by simp), List.filter_nil,
    List.append_nil] at hrest
  exact hrest.trans List.filter_sublist

namespace Engine

variable {s₀ s t u : Engine} {leaving who : Option ClientId} {job : Job} {f : Job → Job}
  {late : List JobId} {name : TubeName}

/-- The jobs that are buried in a tube. -/
def buriedIn (s : Engine) (name : TubeName) : List JobId :=
  ((s.tube? name).map (·.buried)).getD []

theorem buriedIn_of_mem (h : s.Listed) {tube : Tube} (ht : tube ∈ s.tubes) :
    s.buriedIn tube.name = tube.buried := by
  rw [buriedIn, (tube?_eq_some_iff h.tubes).2 ⟨ht, rfl⟩]
  rfl

theorem Listed.mem_buriedIn (h : s.Listed) {id : JobId} : id ∈ s.buriedIn name ↔
    ∃ job ∈ s.jobs, job.tube = name ∧ job.id = id ∧ job.state = .buried := by
  cases htube : s.tube? name with
  | none =>
    simp only [buriedIn, htube, Option.map_none, Option.getD_none, List.not_mem_nil, false_iff]
    rintro ⟨job, hj, rfl, -⟩
    exact Table.lookup_eq_none_iff.1 htube (h.homes job hj)
  | some tube =>
    obtain ⟨ht, rfl⟩ := (tube?_eq_some_iff h.tubes).1 htube
    rw [buriedIn_of_mem h ht, h.mem_buried ht]

/-- What is buried has been buried before in the same order, or is one of the last. -/
def BuriesLast (late : List JobId) (s t : Engine) : Prop :=
  ∀ name, (t.buriedIn name).Sublist (s.buriedIn name ++ late)

namespace BuriesLast

theorem refl (s : Engine) : BuriesLast [] s s :=
  fun _ => List.sublist_append_left _ _

theorem trans (h₁ : BuriesLast [] s t) (h₂ : BuriesLast late t u) : BuriesLast late s u := by
  intro name
  have hfirst := h₁ name
  rw [List.append_nil] at hfirst
  exact (h₂ name).trans (hfirst.append_right late)

theorem of_eq (h : BuriesLast late s t) (htubes : u.tubes = t.tubes) : BuriesLast late s u := by
  intro name
  rw [buriedIn, tube?, htubes]
  exact h name

theorem adjustTube (s : Engine) (name : TubeName) {f : Tube → Tube}
    (hf : ∀ tube : Tube, (f tube).name = tube.name ∧
      (f tube).buried.Sublist (tube.buried ++ late)) :
    BuriesLast late s (s.adjustTube name f) := by
  intro other
  by_cases hname : other = name
  · have hself := Table.lookup_adjust_self s.tubes name f fun tube => (hf tube).1
    rw [hname, buriedIn, tube?, Engine.adjustTube, hself, buriedIn, tube?]
    cases s.tubes.lookup name with
    | none => exact List.nil_sublist _
    | some tube => exact (hf tube).2
  · have hother := Table.lookup_adjust_ne s.tubes hname f fun tube => (hf tube).1
    rw [buriedIn, tube?, Engine.adjustTube, hother]
    exact List.sublist_append_left _ _

/-- A change of a tube that buries nothing. -/
theorem markTube (s : Engine) (name : TubeName) {f : Tube → Tube}
    (hf : ∀ tube : Tube, (f tube).name = tube.name ∧ (f tube).buried = tube.buried) :
    BuriesLast [] s (s.adjustTube name f) :=
  adjustTube s name fun tube => ⟨(hf tube).1, by rw [(hf tube).2, List.append_nil]⟩

theorem ensureTube (s : Engine) (name : TubeName) : BuriesLast [] s (s.ensureTube name) := by
  unfold Engine.ensureTube
  split
  · exact refl s
  · next hnew =>
    intro other
    rw [List.append_nil]
    by_cases hname : name = other
    · have hnone : s.tubes.lookup name = none := Option.not_isSome_iff_eq_none.1 hnew
      have hself := Table.lookup_append_self s.tubes (a := { name := name })
        (Table.lookup_eq_none_iff.1 hnone)
      rw [← hname, buriedIn, tube?, show Table.lookup _ name = _ from hself]
      exact List.nil_sublist _
    · have hother := Table.lookup_append_of_ne s.tubes (a := { name := name }) hname
      rw [buriedIn, tube?, hother]
      exact List.Sublist.refl _

theorem buried_withdraw (tube : Tube) (job : Job) :
    ((tube.withdraw job).buried).Sublist tube.buried := by
  unfold Tube.withdraw
  split <;> first | exact List.filter_sublist | exact List.Sublist.refl _

theorem buried_enlist (tube : Tube) {job : Job} (h : job.state ≠ .buried) :
    (tube.enlist job).buried = tube.buried := by
  unfold Tube.enlist
  split <;> first | contradiction | rfl

/-- A job that moves is buried last, if it is buried at all. -/
theorem move (hj : s.job? job.id = some job) (htube : (f job).tube = job.tube)
    (hid : (f job).id = job.id) (hlate : (f job).state = .buried → late = [job.id]) :
    BuriesLast late s (s.move job.id f) := by
  have hadjust : BuriesLast late s (s.adjustTube job.tube fun tube =>
      (tube.withdraw job).enlist (f job)) := by
    refine adjustTube s job.tube fun tube => ⟨by simp, ?_⟩
    by_cases hst : (f job).state = .buried
    · rw [hlate hst, Tube.enlist, hst, hid]
      exact (buried_withdraw tube job).append_right _
    · rw [buried_enlist _ hst]
      exact (buried_withdraw tube job).trans (List.sublist_append_left _ _)
  rw [move_eq hj htube]
  exact hadjust.of_eq rfl

/-- A request is served. -/
theorem grant {q : Request} {id : JobId} (m : s.Match name q id) (hc : s.Coherent) :
    BuriesLast [] s (s.grant q id) := by
  obtain ⟨job, hj, rfl, -⟩ := hc.listed.ready_of_next? m.next
  have hfinished : BuriesLast [] s (s.finish q) := (refl s).of_eq rfl
  have hmove : BuriesLast [] (s.finish q)
      ((s.finish q).move job.id (·.makeReserved s.now q.client)) :=
    move hj rfl rfl nofun
  exact (hfinished.trans hmove).of_eq (m.grant_tables hc.tracked).1

/-- The tube that is woken is drained. -/
theorem drain (h : BuriesLast [] s₀ s) (hs : Sound leaving (some name) s) :
    Sound leaving none (s.drain name) ∧ BuriesLast [] s₀ (s.drain name) :=
  hs.drain_keeping (fun _ _ _ hs h m => BuriesLast.trans h (grant m.toMatch hs.toCoherent))
    (fun s _ h => BuriesLast.trans h (markTube s name fun _ => ⟨rfl, rfl⟩)) h

/-- A job comes back to ready. -/
theorem enterReady (hs : Sound leaving none s) (hj : s.job? job.id = some job)
    (hr : Return s.now who job f) :
    Sound leaving none (s.enterReady job f) ∧ BuriesLast [] s (s.enterReady job f) := by
  have hmove : BuriesLast [] s (s.move job.id fun job => (f job).makeReady) :=
    move (f := fun job => (f job).makeReady) hj hr.alike.tube hr.alike.id nofun
  exact hmove.drain (hs.comeBack hj hr)

theorem resume (hs : Sound leaving none s) (name : TubeName) : BuriesLast [] s (s.resume name) := by
  unfold Engine.resume
  split
  · have hcut : BuriesLast [] s (s.adjustTube name ({ · with pausedUntil := none })) :=
      markTube s name fun _ => ⟨rfl, rfl⟩
    exact (hcut.drain (hs.unpause name)).2
  · exact refl s

theorem useTube (s : Engine) (c : ClientId) (name : TubeName) :
    BuriesLast [] s (s.useTube c name) := by
  unfold Engine.useTube
  split
  · next client _ =>
    have hmade := ensureTube s name
    have hadded := hmade.trans (markTube _ name (f := fun tube =>
      { tube with users := tube.users + 1 }) fun _ => ⟨rfl, rfl⟩)
    have hremoved := hadded.trans (markTube _ client.used (f := fun tube =>
      { tube with users := tube.users - 1 }) fun _ => ⟨rfl, rfl⟩)
    exact hremoved.of_eq rfl
  · exact refl s

theorem watch (s : Engine) (c : ClientId) (name : TubeName) : BuriesLast [] s (s.watch c name) := by
  have hmade := ensureTube s name
  unfold Engine.watch
  dsimp only
  split
  · split
    · exact hmade
    · have hadded := hmade.trans (markTube _ name (f := fun tube =>
        { tube with watchers := tube.watchers + 1 }) fun _ => ⟨rfl, rfl⟩)
      exact hadded.of_eq rfl
  · exact hmade

theorem ignore (s : Engine) (c : ClientId) (name : TubeName) :
    BuriesLast [] s (s.ignore c name) := by
  unfold Engine.ignore
  split
  · split
    · have hremoved : BuriesLast [] s (s.removeWatcher name) := markTube s name fun _ => ⟨rfl, rfl⟩
      exact hremoved.of_eq rfl
    · exact refl s
  · exact refl s

/-- A job that is put is not buried. -/
theorem put (hs : Sound leaving none s) (hname : name ∈ s.tubes.keys) (pri : Nat)
    (delay ttr : Millis) (body : Bytes) : BuriesLast [] s (s.put name pri delay ttr body) := by
  have hj := job?_makeJob hs name pri delay ttr body
  have hcount : BuriesLast [] s (s.adjustTube name fun tube =>
      { tube with totalJobs := tube.totalJobs + 1 }) := markTube s name fun _ => ⟨rfl, rfl⟩
  have hmade : BuriesLast [] s (s.makeJob name pri delay ttr body) := hcount.of_eq rfl
  rw [put_eq hs]
  split
  · have hready : BuriesLast [] s
        ((s.makeJob name pri delay ttr body).move s.nextJob (·.makeReady)) :=
      hmade.trans (move (f := (·.makeReady)) hj rfl rfl nofun)
    exact (hready.drain (sound_makeJob_ready hs name pri delay ttr body hname)).2
  · exact hmade.trans (move (f := (·.makeDelayed s.now _)) hj rfl rfl nofun)

end BuriesLast

/-! ## Stages -/

/-- A stage buries at most one job, which was held. -/
theorem Stage.buriesLast (hst : Stage who s t) (hs : Sound leaving none s) :
    BuriesLast [] s t ∨
      who ≠ none ∧ ∃ job ∈ s.jobs, job.IsHeld ∧ BuriesLast [job.id] s t := by
  cases hst with
  | back hj hr => exact Or.inl (BuriesLast.enterReady hs hj hr).2
  | @shift job f hj hr =>
    obtain ⟨hmem, -⟩ := (job?_eq_some_iff hs.listed.jobs).1 hj
    by_cases hburied : (f job).state = .buried
    · refine Or.inr ?_
      cases hr with
      | bury hw hheld pri =>
        obtain ⟨due, hst⟩ := Job.isHeldBy_iff.1 hheld
        exact ⟨hw ▸ Option.some_ne_none _, job, hmem, ⟨_, due, hst⟩, .move hj rfl rfl fun _ => rfl⟩
      | take | touch | postpone => cases hburied
    · exact Or.inl (.move hj hr.alike.tube hr.alike.id fun hst => absurd hst hburied)
  | put client hc pri delay ttr body =>
    have hused := hs.posted.used client (Table.mem_of_lookup hc)
    exact Or.inl (.put hs hused pri delay ttr body)
  | @discard job hj _ _ =>
    have hmove : BuriesLast [] s
        (s.move job.id fun job => { job.makeDeleted with registered := false }) :=
      .move (f := fun job => { job.makeDeleted with registered := false }) hj rfl rfl nofun
    rw [discard_eq hj]
    exact Or.inl (hmove.trans (.markTube _ _ fun _ => ⟨rfl, rfl⟩))
  | resume name => exact Or.inl (.resume hs name)
  | pause name span => exact Or.inl (.markTube s name fun _ => ⟨rfl, rfl⟩)
  | connect =>
    have hused : BuriesLast [] s (s.addUser .default) := .markTube s .default fun _ => ⟨rfl, rfl⟩
    have hwatched := hused.trans (.markTube _ .default (f := fun tube =>
      { tube with watchers := tube.watchers + 1 }) fun _ => ⟨rfl, rfl⟩)
    exact Or.inl (hwatched.of_eq rfl)
  | use c name => exact Or.inl (.useTube s c name)
  | watch c name => exact Or.inl (.watch s c name)
  | ignore c name => exact Or.inl (.ignore s c name)
  | produce c => exact Or.inl ((BuriesLast.refl s).of_eq rfl)
  | work c => exact Or.inl ((BuriesLast.refl s).of_eq rfl)
  | expect c =>
    rw [watchDeadlines_eq]
    exact Or.inl ((BuriesLast.refl s).of_eq rfl)
  | dropIdle c =>
    unfold Engine.dropIdle
    split <;> exact Or.inl ((BuriesLast.refl s).of_eq rfl)

/-- Stages that act for nobody bury nothing. -/
theorem Stages.buriesLast (hst : Stages none s t) (hs : Sound leaving none s) :
    BuriesLast [] s t := by
  induction hst with
  | refl => exact .refl s
  | tail hsteps hstep ih =>
    have hsound := (Stages.keeps hsteps hs (.refl hs.listed.jobs) fun _ _ => nofun).1
    exact ih.trans ((hstep.buriesLast hsound).resolve_right fun hbury => hbury.1 rfl)

/-- The jobs of a tube that stay buried in a row of stages stay in their order. -/
theorem Stages.buried_sublist (hst : Stages none s t) (hs : Sound none none s) {tube later : Tube}
    (ht : tube ∈ s.tubes) (hl : later ∈ t.tubes) (hname : later.name = tube.name) :
    later.buried.Sublist tube.buried := by
  have hsound := (hst.keeps hs (.refl hs.listed.jobs) fun _ _ => nofun).1
  have hsub := hst.buriesLast hs tube.name
  rw [List.append_nil, buriedIn_of_mem hs.listed ht, ← hname,
    buriedIn_of_mem hsound.listed hl] at hsub
  exact hsub

/-! ## Events -/

theorem Asked.buriesLast {client : Client} {timeout : Option Millis} (hs : Sound none none s)
    (hc : s.client? client.id = some client) (hopen : client.closed = false)
    (ha : Asked s (s.newRequest client timeout) t) : BuriesLast [] s t := by
  have hmade : BuriesLast [] s (s.openRequest (s.newRequest client timeout)) :=
    (BuriesLast.refl s).of_eq rfl
  cases ha with
  | served _ m => exact hmade.trans (.grant m (coherent_openRequest hs hc hopen timeout))
  | refused => exact hmade.of_eq rfl
  | waiting =>
    exact List.foldlRecOn _ _ hmade fun u hu name _ =>
      hu.trans (.markTube u name fun _ => ⟨rfl, rfl⟩)

theorem buriesLast_close {client : Client} (hs : Sound none none s)
    (hc : s.client? client.id = some client) : BuriesLast [] s (s.close client.id) := by
  have hdone : BuriesLast [] s (s.finishAll client.id) := (BuriesLast.refl s).of_eq rfl
  have hgiven : Sound (some client.id) none ((s.finishAll client.id).giveBackAll client.id) ∧
      BuriesLast [] s ((s.finishAll client.id).giveBackAll client.id) := by
    refine giveBackAll_keeps (P := fun u => Sound (some client.id) none u ∧ BuriesLast [] s u)
      (fun u id ⟨hu, hb⟩ => ?_) ⟨hs.finishAll client.id, hdone⟩
    refine transition_cases (P := fun v => Sound (some client.id) none v ∧ BuriesLast [] s v)
      (fun _ => ⟨hu, hb⟩) fun job hj _ hheld => ?_
    have hback : Return u.now (some client.id) job fun job => job := .giveBack rfl hheld
    obtain ⟨hsound, hkept⟩ := BuriesLast.enterReady hu hj hback
    exact ⟨hsound, hb.trans hkept⟩
  have hused := hgiven.2.trans (.markTube _ client.used (f := fun tube =>
      { tube with users := tube.users - 1 }) fun _ => ⟨rfl, rfl⟩)
  have hleft : BuriesLast [] s (client.watching.foldl removeWatcher
      (((s.finishAll client.id).giveBackAll client.id).removeUser client.used)) :=
    List.foldlRecOn client.watching removeWatcher hused fun u hu name _ =>
      hu.trans (.markTube u name fun _ => ⟨rfl, rfl⟩)
  rw [close_eq hc]
  exact hleft.of_eq rfl

/-- An event buries at most one job, which was held. -/
theorem Passage.buriesLast {asks : Option (ClientId × Option Millis)} (hp : Passage asks s t)
    (hs : Sound none none s) : BuriesLast [] s t ∨ ∃ job ∈ s.jobs, job.IsHeld ∧
      BuriesLast [job.id] s t := by
  cases hp with
  | stages hst => exact Or.inl (hst.buriesLast hs)
  | act hst => exact (hst.buriesLast hs).imp_right And.right
  | @reserve c timeout _ hc =>
    obtain ⟨client, rfl, hclient, hopen⟩ := client?_of_isConnected hc
    obtain ⟨worker, -, hopen, hworker, hasked⟩ := reserve_passage hclient hopen timeout
    have hmarked : BuriesLast [] s (Broker.markWorker s client.id) := (BuriesLast.refl s).of_eq rfl
    exact Or.inl (hmarked.trans (hasked.buriesLast (sound_markWorker hs client.id) hworker hopen))
  | advance span =>
    exact Or.inl ((BuriesLast.refl s).of_eq
      (foldl_fireTimer_frame (s.now + span) s.requests s).2.2)
  | close hc =>
    obtain ⟨client, rfl, hclient, -⟩ := client?_of_isConnected hc
    exact Or.inl (buriesLast_close hs hclient)

end Engine

namespace Broker

open Engine

variable {b : Broker} {c : ClientId} {job x : Job}

/-- The job that is buried by an event, if the holder is told so. -/
def buried? (b : Broker) : Event → Option JobId
  | .command c (.bury n pri) body =>
    if b.buries n.toNat (.command c (.bury n pri) body) then some n.toNat else none
  | _ => none

theorem buried?_eq_some_iff {event : Event} {id : JobId} :
    b.buried? event = some id ↔ b.buries id event = true := by
  constructor
  · intro h
    unfold buried? at h
    split at h
    · split at h
      · next hburies => exact Option.some.inj h ▸ hburies
      · cases h
    · cases h
  · intro h
    obtain ⟨c, n, pri, body, rfl, -, rfl, -⟩ := buries_iff.1 h
    exact if_pos h

/-- Only the holder of a job buries it. -/
theorem Reachable.buries_of_buried (h : Reachable b) {event : Event} (hj : job ∈ b.engine.jobs)
    (hheld : job.IsHeld) (hx : x ∈ (b.step event).engine.jobs) (hid : x.id = job.id)
    (hst : x.state = .buried) : b.buries job.id event = true := by
  obtain ⟨y, ht, hgoes⟩ := ((h.recorded event).goes_on h.sound hj).2 x hx hid
  have hxy : x = y := hgoes.resolve_right fun ⟨_, c, _, hxy⟩ => by rw [hxy] at hst; cases hst
  subst hxy
  cases ht with
  | spared =>
    obtain ⟨c, due, hheld⟩ := hheld
    cases hst.symm.trans hheld
  | changed hadmits hchange =>
    cases hchange with
    | bury hnumber hheld => exact buries_of_held h.sound hj hadmits hnumber hheld _ _
    | release =>
      unfold Job.placed at hst
      split at hst <;> cases hst
    | touch | take | delete | kickJob | kick | abandon | promote | expire => cases hst

/-- The jobs that stay buried keep their order, and one that is buried comes last. -/
theorem Reachable.buriesLast (h : Reachable b) (event : Event) :
    BuriesLast (b.buried? event).toList b.engine (b.step event).engine := by
  have hnothing (hnone : BuriesLast [] b.engine (b.step event).engine) :
      BuriesLast (b.buried? event).toList b.engine (b.step event).engine := fun name => by
    have hsub := hnone name
    rw [List.append_nil] at hsub
    exact hsub.trans (List.sublist_append_left _ _)
  rcases (step_passage b event).buriesLast h.sound with hnone | ⟨job, hj, hheld, hone⟩
  · exact hnothing hnone
  · by_cases hburied : ∃ name, job.id ∈ (b.step event).engine.buriedIn name
    · obtain ⟨name, hmem⟩ := hburied
      obtain ⟨x, hx, -, hid, hst⟩ := (h.step event).sound.listed.mem_buriedIn.1 hmem
      rw [buried?_eq_some_iff.2 (h.buries_of_buried hj hheld hx hid hst)]
      exact hone
    · refine hnothing fun name => ?_
      rw [List.append_nil]
      exact sublist_of_not_mem (hone name) fun hmem => hburied ⟨name, hmem⟩

/-- A job that an event buries was not buried before. -/
theorem Reachable.not_mem_buriedIn (h : Reachable b) {event : Event} {id : JobId}
    (hburies : b.buried? event = some id) (name : TubeName) : id ∉ b.engine.buriedIn name := by
  intro hmem
  obtain ⟨job, hj, -, rfl, hst⟩ := h.sound.listed.mem_buriedIn.1 hmem
  obtain ⟨c, n, pri, body, -, -, -, hheld⟩ := buries_iff.1 (buried?_eq_some_iff.1 hburies)
  rw [finds_isHeldBy h.sound hj] at hheld
  obtain ⟨due, hreserved⟩ := Job.isHeldBy_iff.1 hheld
  cases hst.symm.trans hreserved

/-- The jobs that are buried in a tube, in the order in which the run has buried them. -/
theorem buriedIn_sublist (config : Config) (events : List Event) (name : TubeName) :
    (((start config).after events).engine.buriedIn name).Sublist
      ((start config).history buried? events).dedup := by
  induction events using List.reverseRecOn generalizing name with
  | nil =>
    have hnone : (start config).engine.buriedIn name = [] := by
      refine List.eq_nil_iff_forall_not_mem.2 fun id hmem => ?_
      obtain ⟨job, hj, -⟩ := (Reachable.start config).sound.listed.mem_buriedIn.1 hmem
      cases hj
    exact hnone ▸ List.nil_sublist _
  | append_singleton earlier event ih =>
    have h : Reachable ((start config).after earlier) := (Reachable.start config).after earlier
    have hstep := h.buriesLast event name
    rw [after_append, history_append]
    cases hburied : ((start config).after earlier).buried? event with
    | none =>
      rw [hburied, Option.toList_none, List.append_nil] at hstep
      rw [Option.toList_none, List.append_nil]
      exact hstep.trans (ih name)
    | some id =>
      rw [hburied, Option.toList_some] at hstep
      rw [Option.toList_some, dedup_concat]
      have hothers := (ih name).filter (· ≠ id)
      rw [filter_ne_eq_self (h.not_mem_buriedIn hburied name)] at hothers
      exact hstep.trans (hothers.append_right [id])

/-- Whether a job is buried in a tube. -/
def isBuriedIn (b : Broker) (name : TubeName) (id : JobId) : Bool :=
  (b.engine.job? id).any fun job => job.tube = name && job.state = .buried

/-- The buried jobs of a tube are listed in the order of their burials. -/
theorem buried_eq_history (config : Config) (events : List Event) {tube : Tube}
    (ht : tube ∈ ((start config).after events).engine.tubes) :
    tube.buried = ((start config).history buried? events).dedup.filter
      (((start config).after events).isBuriedIn tube.name) := by
  have hs := ((Reachable.start config).after events).sound
  have hmem {id : JobId} : id ∈ tube.buried ↔
      ((start config).after events).isBuriedIn tube.name id = true := by
    rw [hs.listed.mem_buried ht, isBuriedIn, Option.any_eq_true]
    refine exists_congr fun job => ?_
    rw [job?_eq_some_iff hs.listed.jobs, Bool.and_eq_true, decide_eq_true_eq, decide_eq_true_eq]
    exact ⟨fun ⟨hj, htube, hid, hst⟩ => ⟨⟨hj, hid⟩, htube, hst⟩,
      fun ⟨⟨hj, hid⟩, htube, hst⟩ => ⟨hj, htube, hid, hst⟩⟩
  have hsub := buriedIn_sublist config events tube.name
  rw [buriedIn_of_mem hs.listed ht] at hsub
  have hkept := hsub.filter (((start config).after events).isBuriedIn tube.name)
  rw [List.filter_eq_self.2 fun id hid => hmem.1 hid] at hkept
  exact eq_of_sublist_of_subset hkept ((List.nodup_dedup _).filter _) fun id hid =>
    hmem.2 (List.mem_filter.1 hid).2

end Broker

end WorkQueue
