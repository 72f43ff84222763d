import WorkQueue.Proofs.Serving

/-!
# The queues of the tubes

`Engine.Queued` : the open requests in the queue of a tube are all that watch the tube, in the order
they were made. `Engine.Awake` : a tube with no pause on record has no ready job, or nobody in its
queue is waiting. Both stay true as long as the changes are `Quiet` : no new request is open and no
tube gets a ready job. A tube that does get one is `waking` until it is drained, which is a row of
turns (`drain_induction`) after which it has nothing to hand out or an empty queue.
-/

namespace WorkQueue

/-- The same queue, and unless the tube is being woken no pause less and no ready job where there
was none. -/
structure Tube.Calm (waking : Option TubeName) (a b : Tube) : Prop where
  name : b.name = a.name
  waiters : b.waiters = a.waiters
  pausedUntil : some a.name ≠ waking → b.pausedUntil = none → a.pausedUntil = none
  ready : some a.name ≠ waking → a.ready = [] → b.ready = []

theorem Tube.Calm.refl (waking : Option TubeName) (tube : Tube) : Tube.Calm waking tube tube :=
  ⟨rfl, rfl, fun _ => id, fun _ => id⟩

namespace Engine

variable {s t : Engine} {waking : Option TubeName} {name : TubeName}

/-- The open requests that watch a tube, in the order they were made. -/
def turns (s : Engine) (name : TubeName) : List RequestId :=
  (s.requests.filter fun q => s.isOpen q && decide (name ∈ q.tubes)).map (·.id)

/-- Every queue has the open requests of its tube in turn. What else it has is known and not open.
-/
structure Queued (s : Engine) : Prop where
  known : ∀ tube ∈ s.tubes, ∀ r ∈ tube.waiters, r ∈ s.requests.keys
  turns : ∀ tube ∈ s.tubes, tube.waiters.filter s.isPending = s.turns tube.name

/-- A tube has no ready job, or no request in its queue is open. -/
def AtRest (s : Engine) (tube : Tube) : Prop :=
  tube.ready = [] ∨ ∀ r ∈ tube.waiters, s.isPending r = false

/-- All tubes without a pause on record are at rest, except for one that is being woken. -/
def Awake (waking : Option TubeName) (s : Engine) : Prop :=
  ∀ tube ∈ s.tubes, some tube.name ≠ waking → tube.pausedUntil = none → s.AtRest tube

theorem Awake.mono (h : Awake none s) : Awake waking s :=
  fun tube ht _ => h tube ht (by simp)

theorem mem_turns_iff {r : RequestId} : r ∈ s.turns name ↔
    ∃ q ∈ s.requests, s.isOpen q = true ∧ name ∈ q.tubes ∧ q.id = r := by
  simp [turns, and_assoc]

/-! ## Quiet changes -/

/-- No new request is open, and all tubes are calm. -/
structure Quiet (waking : Option TubeName) (s t : Engine) : Prop where
  requests : ∃ late, t.requests = s.requests ++ late ∧ ∀ q ∈ late, t.isOpen q = false
  isOpen : ∀ q ∈ s.requests, t.isOpen q = true → s.isOpen q = true
  tubes : ∀ b ∈ t.tubes, ∃ a ∈ s.tubes, Tube.Calm waking a b

namespace Quiet

theorem of_fewer (h : Fewer s t)
    (ht : ∀ b ∈ t.tubes, ∃ a ∈ s.tubes, Tube.Calm waking a b) : Quiet waking s t :=
  ⟨⟨[], by simp [h.requests], by simp⟩, fun _ _ => h.isOpen, ht⟩

theorem of_tubes_eq (h : Fewer s t) (ht : t.tubes = s.tubes) : Quiet waking s t :=
  of_fewer h fun b hb => ⟨b, ht ▸ hb, .refl _ b⟩

theorem adjustTube (s : Engine) (name : TubeName) {f : Tube → Tube}
    (hf : ∀ tube : Tube, tube.name = name → Tube.Calm waking tube (f tube)) :
    Quiet waking s (s.adjustTube name f) :=
  of_fewer (.of_sameDesk (sameDesk_adjustTube s name f)) fun _ hb =>
    Table.exists_of_mem_adjust (.refl waking) hf hb

/-- A move is quiet, except for the tube of a job that becomes ready. -/
theorem move {id : JobId} {job : Job} {f : Job → Job} (h : s.job? id = some job)
    (htube : (f job).tube = job.tube)
    (hready : (f job).state = .ready → waking = some job.tube) :
    Quiet waking s (s.move id f) := by
  refine of_fewer (.of_sameDesk (sameDesk_move h htube)) fun b hb => ?_
  rw [move_eq h htube] at hb
  rcases Table.mem_adjust.1 hb with ⟨a, ha, hkey, rfl⟩ | ⟨hb, -⟩
  · have hkey : a.name = job.tube := hkey
    have hout := Tube.frame_withdraw a job
    have hin := Tube.frame_enlist (a.withdraw job) (f job)
    refine ⟨a, ha, by simp, hin.1.trans hout.1, fun _ hp => ?_, fun hne hnil => ?_⟩
    · rwa [hin.2, hout.2] at hp
    · have hst : (f job).state ≠ .ready := fun hst => hne (hkey ▸ (hready hst).symm)
      rw [Tube.ready_enlist_of_ne _ hst]
      exact Tube.ready_withdraw_of_nil job hnil
  · exact ⟨b, hb, .refl _ b⟩

/-! ### What quiet changes keep -/

variable (h : Quiet waking s t) (hn : t.requests.Numbered)

include h hn

theorem numbered : s.requests.Numbered := by
  obtain ⟨late, hlate, -⟩ := h.requests
  rw [Table.Numbered] at hn ⊢
  rw [hlate, List.length_append, ← List.range'_append_1] at hn
  simp only [Table.keys, List.map_append] at hn ⊢
  exact (List.append_inj hn (by simp)).1

theorem isPending {q : Request} (hq : q ∈ s.requests) :
    t.isPending q.id = t.isOpen q ∧ s.isPending q.id = s.isOpen q := by
  obtain ⟨late, hlate, -⟩ := h.requests
  have hqt : q ∈ t.requests := hlate ▸ List.mem_append_left _ hq
  constructor
  · simp [Engine.isPending, (request?_eq_some_iff hn).2 ⟨hqt, rfl⟩]
  · simp [Engine.isPending, (request?_eq_some_iff (h.numbered hn)).2 ⟨hq, rfl⟩]

/-- A known request that is pending was pending. -/
theorem isPending_of_known {r : RequestId} (hr : r ∈ s.requests.keys)
    (hp : t.isPending r = true) : s.isPending r = true := by
  obtain ⟨q, hq, rfl⟩ := List.mem_map.1 hr
  obtain ⟨ht, hs⟩ := h.isPending hn hq
  exact hs.trans (h.isOpen q hq (ht.symm.trans hp))

theorem turns_eq (name : TubeName) : t.turns name = (s.turns name).filter t.isPending := by
  obtain ⟨late, hlate, hclosed⟩ := h.requests
  have hnil : late.filter (fun q => t.isOpen q && decide (name ∈ q.tubes)) = [] := by
    rw [List.filter_eq_nil_iff]
    intro q hq
    simp [hclosed q hq]
  simp only [turns, hlate, List.filter_append, hnil, List.append_nil, List.filter_map,
    List.filter_filter]
  refine congrArg (List.map _) (List.filter_congr fun q hq => ?_)
  have hopen := h.isOpen q hq
  have hpending := (h.isPending hn hq).1
  simp only [Function.comp_apply, hpending]
  cases ht : t.isOpen q with
  | false => simp
  | true => simp [hopen ht]

theorem queued (hs : s.Queued) : t.Queued := by
  obtain ⟨late, hlate, -⟩ := h.requests
  have hknown {r : RequestId} (hr : r ∈ s.requests.keys) : r ∈ t.requests.keys := by
    rw [hlate]
    simp only [Table.keys, List.map_append, List.mem_append] at hr ⊢
    exact Or.inl hr
  refine ⟨fun b hb r hr => ?_, fun b hb => ?_⟩
  · obtain ⟨a, ha, hcalm⟩ := h.tubes b hb
    exact hknown (hs.known a ha r (hcalm.waiters ▸ hr))
  · obtain ⟨a, ha, hcalm⟩ := h.tubes b hb
    rw [hcalm.waiters, hcalm.name, h.turns_eq hn, ← hs.turns a ha, List.filter_filter]
    refine List.filter_congr fun r hr => ?_
    cases ht : t.isPending r with
    | false => rfl
    | true => simp [h.isPending_of_known hn (hs.known a ha r hr) ht]

theorem awake (hs : s.Queued) (ha : Awake waking s) : Awake waking t := by
  intro b hb hne hpause
  obtain ⟨a, hmem, hcalm⟩ := h.tubes b hb
  rw [hcalm.name] at hne
  rcases ha a hmem hne (hcalm.pausedUntil hne hpause) with hnil | hidle
  · exact Or.inl (hcalm.ready hne hnil)
  · refine Or.inr fun r hr => ?_
    rw [hcalm.waiters] at hr
    by_contra hp
    have hps := h.isPending_of_known hn (hs.known a hmem r hr) (by simpa using hp)
    rw [hidle r hr] at hps
    cases hps

end Quiet

/-- A match is quiet, since the job is reserved. -/
theorem Match.quiet {q : Request} {id : JobId} (m : s.Match name q id) (h : s.Coherent) :
    Quiet waking s (s.grant q id) := by
  obtain ⟨job, hj, -⟩ := h.listed.ready_of_next? m.next
  have hmove : Quiet waking (s.finish q) ((s.finish q).move id (·.makeReserved s.now q.client)) :=
    .move hj rfl fun hst => nomatch hst
  exact .of_fewer (m.fewer h) fun b hb => hmove.tubes b ((m.grant_tables h.tracked).1 ▸ hb)

/-! ## Turns -/

/-- A match whose request is the first in turn at the tube. -/
structure Turn (s : Engine) (name : TubeName) (q : Request) (id : JobId) : Prop
    extends s.Match name q id where
  watches : name ∈ q.tubes
  first : ∀ p ∈ s.requests, s.isOpen p = true → name ∈ p.tubes → q.id ≤ p.id

/-- A queue that is left of the queue of a tube, with nothing open before it. -/
def Remains (s : Engine) (name : TubeName) (queue : List RequestId) : Prop :=
  ∃ tube, s.tube? name = some tube ∧ ∃ gone, tube.waiters = gone ++ queue ∧
    ∀ r ∈ gone, s.isPending r = false

theorem pairwise_turns (hn : s.requests.Numbered) (name : TubeName) :
    (s.turns name).Pairwise (· < ·) := by
  have hkeys : s.requests.keys.Pairwise (· < ·) := by
    rw [Table.Numbered] at hn
    rw [hn]
    exact List.pairwise_lt_range'
  exact hkeys.sublist (List.filter_sublist.map _)

/-- The first of the queue that is left has its turn, if it is open. -/
theorem Remains.turn {q : Request} {id : JobId} {r : RequestId} {rest : List RequestId}
    (hr : s.Remains name (r :: rest)) (hc : s.Coherent) (hs : s.Queued)
    (hq : s.request? r = some q) (ho : s.isOpen q = true) (hn : s.next? name = some id) :
    s.Turn name q id := by
  have hnum := hc.tracked.numbered
  obtain ⟨hmem, rfl⟩ := (request?_eq_some_iff hnum).1 hq
  obtain ⟨tube, ht, gone, hw, hgone⟩ := hr
  obtain ⟨htube, rfl⟩ := (tube?_eq_some_iff hc.listed.tubes).1 ht
  have hpending : s.isPending q.id = true := by rw [hc.tracked.isPending_id hmem, ho]
  have hturns : s.turns tube.name = q.id :: rest.filter s.isPending := by
    have hnil : gone.filter s.isPending = [] := by simpa using hgone
    rw [← hs.turns tube htube, hw, List.filter_append, hnil, List.nil_append,
      List.filter_cons_of_pos hpending]
  have hfirst : q.id ∈ s.turns tube.name := hturns ▸ List.mem_cons_self
  obtain ⟨p, hp, -, hwatch, hid⟩ := mem_turns_iff.1 hfirst
  obtain rfl := hc.tracked.request_ext hp hmem hid
  refine ⟨⟨hmem, ho, hn⟩, hwatch, fun x hx hox hwx => ?_⟩
  have hx : x.id ∈ s.turns tube.name := mem_turns_iff.2 ⟨x, hx, hox, hwx, rfl⟩
  have hsorted := pairwise_turns hnum tube.name
  rw [hturns] at hx hsorted
  rcases List.mem_cons.1 hx with hx | hx
  · exact Nat.le_of_eq hx.symm
  · exact Nat.le_of_lt (List.rel_of_pairwise_cons hsorted hx)

/-- A request that is not open leaves the queue. -/
theorem Remains.tail {r : RequestId} {rest : List RequestId} (hr : s.Remains name (r :: rest))
    (hp : s.isPending r = false) : s.Remains name rest := by
  obtain ⟨tube, ht, gone, hw, hgone⟩ := hr
  refine ⟨tube, ht, gone ++ [r], by simp [hw], fun x hx => ?_⟩
  rcases List.mem_append.1 hx with hx | hx
  · exact hgone x hx
  · exact List.mem_singleton.1 hx ▸ hp

/-- A queue that is left is left after a quiet change as well. -/
theorem Remains.of_quiet {queue : List RequestId} (hr : s.Remains name queue)
    (hl : s.Listed) (hlt : t.Listed) (hs : s.Queued) (h : Quiet waking s t)
    (hkeys : t.tubes.keys = s.tubes.keys) (hn : t.requests.Numbered) : t.Remains name queue := by
  obtain ⟨a, ha, gone, hw, hgone⟩ := hr
  obtain ⟨hmem, rfl⟩ := (tube?_eq_some_iff hl.tubes).1 ha
  have hkey : a.name ∈ t.tubes.keys := hkeys ▸ List.mem_map_of_mem hmem
  obtain ⟨b, hb, hname⟩ := List.mem_map.1 hkey
  obtain ⟨a', ha', hcalm⟩ := h.tubes b hb
  have hname : b.name = a.name := hname
  obtain rfl := hl.tube_ext ha' hmem (hcalm.name.symm.trans hname)
  refine ⟨b, (tube?_eq_some_iff hlt.tubes).2 ⟨hb, hname⟩, gone, hcalm.waiters.trans hw,
    fun r hr => ?_⟩
  by_contra hp
  have hknown := hs.known a' ha' r (hw ▸ List.mem_append_left _ hr)
  have hps := h.isPending_of_known hn hknown (by simpa using hp)
  rw [hgone r hr] at hps
  cases hps

/-! ## Draining -/

section Drain

variable {P Q : Engine → Prop}

/-- What every turn keeps, an offer to the queue that is left keeps. It ends when the tube has
nothing more to hand out, or the queue is empty. -/
theorem offer_spec (hP : ∀ s, P s → s.Coherent ∧ s.Queued)
    (hgrant : ∀ s q id, P s → s.Turn name q id → P (s.grant q id)) :
    ∀ (queue : List RequestId) (s : Engine), P s → s.Remains name queue →
      P (offer name queue s).2 ∧ (offer name queue s).2.Remains name (offer name queue s).1 ∧
        ((offer name queue s).2.next? name = none ∨ (offer name queue s).1 = [])
  | [], s, h, hr => ⟨h, hr, Or.inr rfl⟩
  | r :: rest, s, h, hr => by
    rw [offer]
    cases hn : s.next? name with
    | none => exact ⟨h, hr, Or.inl hn⟩
    | some id =>
      obtain ⟨hc, hs⟩ := hP s h
      have hserve : P (s.serve r id) ∧ (s.serve r id).Remains name rest := by
        unfold serve
        split
        · next q hq =>
          split
          · next ho =>
            have ht := hr.turn hc hs hq ho hn
            have m := ht.toMatch
            have hg := (hP _ (hgrant s q id h ht)).1
            have hquiet : Quiet none s (s.grant q id) := m.quiet hc
            have hleft := hr.of_quiet hc.listed hg.listed hs hquiet
              (keys_grant (m.connected hc.tracked) id) hg.tracked.numbered
            refine ⟨hgrant s q id h ht, hleft.tail ?_⟩
            obtain ⟨hmem, rfl⟩ := (request?_eq_some_iff hc.tracked.numbered).1 hq
            have hreq : q ∈ (s.grant q id).requests := (m.fewer hc).requests ▸ hmem
            rw [hg.tracked.isPending_id hreq, m.isOpen_grant hc]
            simp
          · next ho => exact ⟨h, hr.tail (by simp [isPending, hq, ho])⟩
        · next hq => exact ⟨h, hr.tail (by simp [isPending, hq])⟩
      exact offer_spec hP hgrant rest _ hserve.1 hserve.2

/-- What every turn keeps holds until the queue is cut at the end of a drain. -/
theorem drain_induction (hP : ∀ s, P s → s.Coherent ∧ s.Queued)
    (hgrant : ∀ s q id, P s → s.Turn name q id → P (s.grant q id))
    (hcut : ∀ s rest, P s → s.Remains name rest → (s.next? name = none ∨ rest = []) →
      Q (s.adjustTube name fun tube => { tube with waiters := rest }))
    (hnone : s.tube? name = none → Q s) (h : P s) : Q (s.drain name) := by
  unfold drain
  split
  · next tube ht =>
    obtain ⟨hp, hr, hdone⟩ :=
      offer_spec hP hgrant tube.waiters s h ⟨tube, ht, [], rfl, by simp⟩
    exact hcut _ _ hp hr hdone
  · next ht => exact hnone ht

end Drain

namespace Remains

variable {rest : List RequestId} (hr : s.Remains name rest) (hl : s.Listed) (hs : s.Queued)

include hr hl

/-- The tubes after their queue has been cut. -/
theorem mem_cut {b : Tube}
    (hb : b ∈ (s.adjustTube name fun tube => { tube with waiters := rest }).tubes) :
    (b.name ≠ name ∧ b ∈ s.tubes) ∨ ∃ a ∈ s.tubes, a.name = name ∧ s.tube? name = some a ∧
      b = { a with waiters := rest } ∧ ∃ gone, a.waiters = gone ++ rest ∧
        ∀ r ∈ gone, s.isPending r = false := by
  obtain ⟨tube, ht, hgone⟩ := hr
  obtain ⟨hmem, hname⟩ := (tube?_eq_some_iff hl.tubes).1 ht
  rcases Table.mem_adjust.1 hb with ⟨a, ha, hkey, rfl⟩ | ⟨hb, hkey⟩
  · obtain rfl := hl.tube_ext ha hmem (Eq.trans hkey hname.symm)
    exact Or.inr ⟨a, ha, hname, ht, rfl, hgone⟩
  · exact Or.inl ⟨hkey, hb⟩

include hs

theorem queued_cut : (s.adjustTube name fun tube => { tube with waiters := rest }).Queued := by
  refine ⟨fun b hb r hmem => ?_, fun b hb => ?_⟩
  · rcases hr.mem_cut hl hb with ⟨-, hb⟩ | ⟨a, ha, -, -, rfl, gone, hw, -⟩
    · exact hs.known b hb r hmem
    · exact hs.known a ha r (hw ▸ List.mem_append_right _ hmem)
  · rcases hr.mem_cut hl hb with ⟨-, hb⟩ | ⟨a, ha, -, -, rfl, gone, hw, hgone⟩
    · exact hs.turns b hb
    · have hnil : gone.filter s.isPending = [] := by simpa using hgone
      have hturns := hs.turns a ha
      rw [hw, List.filter_append, hnil, List.nil_append] at hturns
      exact hturns

omit hs in
/-- A tube that has been drained is awake. -/
theorem awake_cut (ha : Awake (some name) s) (hdone : s.next? name = none ∨ rest = []) :
    Awake none (s.adjustTube name fun tube => { tube with waiters := rest }) := by
  intro b hb _ hpause
  rcases hr.mem_cut hl hb with ⟨hne, hb⟩ | ⟨a, -, -, htube, rfl, -⟩
  · exact ha b hb (fun he => hne (Option.some.inj he)) hpause
  · rcases hdone with hnext | rfl
    · have hnil : a.ready = [] := ready_eq_nil_of_next? htube hpause hnext
      exact Or.inl hnil
    · exact Or.inr fun r hr => absurd hr List.not_mem_nil

end Remains

end Engine

end WorkQueue
