import WorkQueue.Proofs.Headcount
import WorkQueue.Proofs.Settling

/-!
# Connections and their clients

Each connection of a server is that of one client, which is connected to the broker until the
connection is closed (`Connection.Attached`). A turn of a connection is a few events of the broker,
none of which disconnects another client (`Connection.Attached.turned`). So in every state that a
server comes to its connections are attached (`Server.Reachable.sound`), and its broker goes through
events of its own (`Server.Reachable.leads`).

When the program lets the connections settle and the sweepers run, it takes the server to states
that come up (`Server.Reachable.settle`, `Server.Reachable.run`).
-/

namespace WorkQueue

open Yaml (Writer)

/-! ## Events of the broker -/

namespace Broker

variable {stays : ClientId → Prop} {b b' b'' : Broker} {c : ClientId}

/-- A broker comes of another by events that disconnect none of the clients that stay. -/
def Leads (stays : ClientId → Prop) (b b' : Broker) : Prop :=
  ∃ events, b' = b.after events ∧ ∀ c, stays c → .disconnect c ∉ events

namespace Leads

theorem refl (stays : ClientId → Prop) (b : Broker) : Leads stays b b :=
  ⟨[], rfl, fun _ _ => List.not_mem_nil⟩

theorem trans (h : Leads stays b b') (h' : Leads stays b' b'') : Leads stays b b'' := by
  obtain ⟨events, rfl, hstay⟩ := h
  obtain ⟨later, rfl, hlater⟩ := h'
  refine ⟨events ++ later, (List.foldl_append ..).symm, fun c hc hmem => ?_⟩
  exact (List.mem_append.1 hmem).elim (hstay c hc) (hlater c hc)

theorem single (b : Broker) (event : Event) (h : ∀ c, stays c → event ≠ .disconnect c) :
    Leads stays b (b.step event) :=
  ⟨[event], rfl, fun c hc hmem => h c hc (List.mem_singleton.1 hmem).symm⟩

theorem mono {fewer : ClientId → Prop} (h : Leads stays b b') (hle : ∀ c, fewer c → stays c) :
    Leads fewer b b' := by
  obtain ⟨events, heq, hstay⟩ := h
  exact ⟨events, heq, fun c hc => hstay c (hle c hc)⟩

theorem reachable (h : Leads stays b b') (hb : Reachable b) : Reachable b' := by
  obtain ⟨events, rfl, -⟩ := h
  exact hb.after events

theorem known (h : Leads stays b b') (hb : Reachable b)
    (hknown : (b.engine.client? c).isSome = true) : (b'.engine.client? c).isSome = true := by
  obtain ⟨events, rfl, -⟩ := h
  induction events generalizing b with
  | nil => exact hknown
  | cons event rest ih => exact ih (hb.step event) ((hb.progress event).clients c hknown).1

/-- A client that stays is as connected as it was. -/
theorem isConnected (h : Leads stays b b') (hb : Reachable b) (hc : stays c)
    (hknown : (b.engine.client? c).isSome = true) : b'.isConnected c = b.isConnected c := by
  obtain ⟨events, rfl, hstay⟩ := h
  replace hstay := hstay c hc
  induction events generalizing b with
  | nil => rfl
  | cons event rest ih =>
    have hevent : leaves c b event = false := by
      have hne : event ≠ .disconnect c := fun heq => hstay (heq ▸ List.mem_cons_self)
      simp [leaves, hne]
    have hrest := ih (hb.step event) ((hb.progress event).clients c hknown).1
      fun hmem => hstay (List.mem_cons_of_mem event hmem)
    refine hrest.trans ?_
    rw [hb.isConnected_step event hknown, hevent, Bool.not_false, Bool.and_true]

/-- A request that has no answer has had none before. -/
theorem unanswered (h : Leads stays b b') (hb : Reachable b) {r : RequestId}
    (hnone : b'.response? r = none) : b.response? r = none := by
  obtain ⟨events, rfl, -⟩ := h
  rw [response?, Option.map_eq_none_iff, Engine.outcome?_eq_none_iff] at hnone ⊢
  exact fun hmem => hnone (((hb.deliveries_grow events).map _).subset hmem)

end Leads

theorem leads_connect (b : Broker) : Leads stays b b.connect :=
  .single b .connect fun _ _ heq => by cases heq

/-! ### The sweepers -/

section Sweepers

variable {P : Broker → Prop} (hadvance : ∀ b span, P b → P (b.advance span))
  (hdelayed : ∀ b, P b → P b.delayedSweep.2) (hexpiry : ∀ b, P b → P b.expirySweep)

include hdelayed in
theorem repeatSweep_keeps (n : Nat) (h : P b) : P (repeatSweep n b) := by
  induction n generalizing b with
  | zero => exact h
  | succ n ih =>
    rw [repeatSweep]
    dsimp only
    split
    · exact ih (hdelayed b h)
    · exact hdelayed b h

include hdelayed hexpiry in
theorem sweepInstant_keeps (expiryAhead : Bool) (h : P b) : P (sweepInstant expiryAhead b).2 := by
  unfold sweepInstant
  split
  · exact repeatSweep_keeps hdelayed _ (hexpiry b h)
  · dsimp only
    split
    · exact repeatSweep_keeps hdelayed _ (hexpiry _ (hdelayed b h))
    · exact hexpiry _ (hdelayed b h)

include hadvance hdelayed hexpiry in
/-- What the clock and each sweep keep is kept while the sweepers run. -/
theorem run_keeps (span : Millis) (h : P b) : P (b.run span) := by
  have hintervals (n : Nat) (state : Bool × Broker) (h : P state.2) :
      P (sweepIntervals n state).2 := by
    induction n generalizing state with
    | zero => exact h
    | succ n ih => exact ih _ (sweepInstant_keeps hdelayed hexpiry _ (hadvance _ _ h))
  exact hadvance _ _ (hintervals _ _ (sweepInstant_keeps hdelayed hexpiry false h))

end Sweepers

end Broker

/-! ## Connections -/

namespace Connection

open Broker

variable {k other : Connection} {b b' : Broker} {result : Connection × Broker}

/-- The client of a connection is connected as long as the connection is not closed, and what has
arrived on it are bytes or the end of its stream. -/
structure Attached (k : Connection) (b : Broker) : Prop where
  known : (b.engine.client? k.client).isSome = true
  connected : b.isConnected k.client = decide (k.doing ≠ .closed)
  arrived : ∀ read ∈ k.inbox, ∃ bytes, read = .bytes bytes

theorem Attached.leads {stays : ClientId → Prop} (h : k.Attached b) (hb : Reachable b)
    (hl : Leads stays b b') (hstays : stays k.client) : k.Attached b' where
  known := hl.known hb h.known
  connected := (hl.isConnected hb hstays h.known).trans h.connected
  arrived := h.arrived

/-- A command of a connected client is an event. -/
theorem leads_of_carries {c : ClientId} {carried : Broker} (hc : b.isConnected c = true)
    (h : Carries c b carried) : Leads (fun _ => True) b carried := by
  rcases h with rfl | ⟨command, body, rfl⟩
  · exact .refl _ _
  · have hstep : b.step (.command c command body) = (b.dispatch c command body).2 := if_pos hc
    exact hstep ▸ .single b _ nofun

/-- A turn disconnects no other client, and its own just if it closes the connection. -/
theorem Attached.turned (h : k.Attached b) (hb : Reachable b) (ht : Turned k b result) :
    Leads (· ≠ k.client) b result.2 ∧ result.1.Attached result.2 := by
  have hc : b.isConnected k.client = true := h.connected.trans (decide_eq_true ht.wasOpen)
  have harrived : ∀ read ∈ result.1.inbox, ∃ bytes, read = .bytes bytes :=
    fun read hread => h.arrived read (ht.inbox hread)
  obtain ⟨carried, hcarries, hresult⟩ := ht.broker
  have hl := leads_of_carries hc hcarries
  have hcarried := hl.reachable hb
  have hknown := hl.known hb h.known
  have hcon : carried.isConnected k.client = true :=
    (hl.isConnected hb trivial h.known).trans hc
  by_cases hclosed : result.1.doing = .closed
  · have hstep : carried.step (.disconnect k.client) = carried.disconnect k.client := if_pos hcon
    rw [if_pos hclosed, ← hstep] at hresult
    have hleaves : Leads (· ≠ k.client) carried result.2 :=
      hresult ▸ .single carried _ fun c hne heq => hne (Event.disconnect.inj heq).symm
    refine ⟨(hl.mono fun _ _ => trivial).trans hleaves, ?_, ?_, harrived⟩
    · rw [ht.client]
      exact hleaves.known hcarried hknown
    · rw [ht.client, hresult, hcarried.isConnected_step _ hknown, leaves, hcon, hclosed]
      simp
  · rw [if_neg hclosed] at hresult
    subst hresult
    refine ⟨hl.mono fun _ _ => trivial, ht.client ▸ hknown, ?_, harrived⟩
    rw [ht.client, hcon, decide_eq_true hclosed]

end Connection

/-! ## Servers -/

namespace Server

open Connection Broker

theorem keys_arrive (s : Server) (c : ClientId) (read : Read) :
    (s.arrive c read).connections.keys = s.connections.keys :=
  Table.keys_adjust _ _ _ fun _ => rfl

/-- Each connection is that of a client of its own, and the broker is in a state that comes up. -/
structure Sound (s : Server) : Prop where
  broker : Broker.Reachable s.broker
  keys : s.connections.keys.Nodup
  attached : ∀ k ∈ s.connections, k.Attached s.broker

variable {s s' : Server}

namespace Sound

theorem arrive (h : Sound s) (c : ClientId) (bytes : Bytes) :
    Sound (s.arrive c (.bytes bytes)) := by
  refine ⟨h.broker, keys_arrive s c _ ▸ h.keys, fun k hk => ?_⟩
  rcases Table.mem_adjust.1 hk with ⟨old, hold, -, rfl⟩ | ⟨hk, -⟩
  · have ha := h.attached old hold
    refine ⟨ha.known, ha.connected, fun read hread => ?_⟩
    rcases List.mem_append.1 hread with hread | hread
    · exact ha.arrived read hread
    · exact ⟨bytes, List.mem_singleton.1 hread⟩
  · exact h.attached k hk

/-- The broker goes on by itself, and disconnects nobody. -/
theorem leads {b : Broker} (h : Sound s) (hl : Leads (fun _ => True) s.broker b) :
    Sound { s with broker := b } ∧ Leads (fun _ => False) s.broker b :=
  ⟨⟨hl.reachable h.broker, h.keys, fun k hk => (h.attached k hk).leads h.broker hl trivial⟩,
    hl.mono fun _ => False.elim⟩

theorem nextClient_not_mem (h : Sound s) : s.broker.nextClient ∉ s.connections.keys := by
  intro hmem
  obtain ⟨k, hk, hkey⟩ := List.mem_map.1 hmem
  obtain ⟨client, hclient⟩ := Option.isSome_iff_exists.1 (h.attached k hk).known
  exact Engine.ne_nextClient h.broker.sound.listed.clients hclient hkey

theorem accept (h : Sound s) : Sound s.accept := by
  refine ⟨h.broker.step .connect, ?_, fun k hk => ?_⟩
  · simp only [Server.accept, Table.keys, List.map_append, List.map_singleton]
    refine List.nodup_append.2 ⟨h.keys, List.nodup_singleton _, fun c hc d hd heq => ?_⟩
    have hd : d = s.broker.nextClient := List.mem_singleton.1 hd
    exact h.nextClient_not_mem (hd ▸ heq ▸ hc)
  · rcases List.mem_append.1 hk with hk | hk
    · have hl : Leads (fun _ => True) s.broker s.broker.connect := leads_connect s.broker
      exact (h.attached k hk).leads h.broker hl trivial
    · have hclient : s.accept.broker.engine.client? s.broker.nextClient =
          some { id := s.broker.nextClient } :=
        Engine.client?_openClient_self h.broker.sound.listed.clients
      rw [List.mem_singleton.1 hk]
      refine ⟨Option.isSome_of_eq_some hclient, ?_, List.forall_mem_nil _⟩
      simp only [isConnected, Engine.isConnected, hclient]
      rfl

end Sound

variable [Writer]

/-- A turn of one connection leaves the others attached. -/
theorem Sound.turns (h : Sound s) (hturn : s.Turns s') :
    Sound s' ∧ Leads (fun _ => False) s.broker s'.broker := by
  obtain ⟨k, hk, first, result, hresult, rfl⟩ := hturn
  have ht := turned hresult
  obtain ⟨hl, hself⟩ := (h.attached k hk).turned h.broker ht
  refine ⟨⟨hl.reachable h.broker, ?_, fun other hother => ?_⟩, hl.mono fun _ => False.elim⟩
  · rw [Table.keys_adjust_const s.connections ht.client]
    exact h.keys
  · rcases Table.mem_adjust.1 hother with ⟨_, -, -, rfl⟩ | ⟨hmem, hne⟩
    · exact hself
    · exact (h.attached other hmem).leads h.broker hl hne

/-- Every event keeps the connections attached. -/
theorem Sound.event (h : Sound s) (event : Event) :
    Sound (s.step event) ∧ Leads (fun _ => False) s.broker (s.step event).broker := by
  cases event with
  | accept => exact ⟨h.accept, leads_connect s.broker⟩
  | receive c bytes =>
    rw [Server.step, Server.receive]
    split
    · exact ⟨h, .refl _ _⟩
    · exact ⟨h.arrive c bytes, .refl _ _⟩
  | hangUp c => exact ⟨h.arrive c [], .refl _ _⟩
  | turn c first =>
    rw [Server.step]
    rcases turn_eq_or s c first with hsame | hturns
    · exact hsame.symm ▸ ⟨h, .refl _ _⟩
    · exact h.turns hturns
  | advance span => exact h.leads (.single s.broker (.advance span) nofun)
  | delayedSweep => exact h.leads (.single s.broker .delayedSweep nofun)
  | expirySweep => exact h.leads (.single s.broker .expirySweep nofun)

/-- No event takes a connection away. -/
theorem keys_step_subset (s : Server) (event : Event) :
    s.connections.keys ⊆ (s.step event).connections.keys := by
  cases event with
  | accept =>
    simp only [step, accept, Table.keys, List.map_append]
    exact List.subset_append_left _ _
  | receive c bytes =>
    simp only [step, receive]
    split
    · exact List.Subset.refl _
    · rw [keys_arrive]
      exact List.Subset.refl _
  | hangUp c =>
    simp only [step, hangUp, keys_arrive]
    exact List.Subset.refl _
  | turn c first =>
    rw [step]
    rcases turn_eq_or s c first with hsame | hturns
    · rw [hsame]
      exact List.Subset.refl _
    · rw [hturns.keys]
      exact List.Subset.refl _
  | advance | delayedSweep | expirySweep => exact List.Subset.refl _

theorem keys_after_subset (s : Server) (events : List Event) :
    s.connections.keys ⊆ (s.after events).connections.keys := by
  induction events generalizing s with
  | nil => exact List.Subset.refl _
  | cons event rest ih => exact List.Subset.trans (keys_step_subset s event) (ih (s.step event))

namespace Reachable

/-- In every state that comes up the connections are attached. -/
theorem sound (h : Reachable s) : Sound s := by
  induction h with
  | start config => exact ⟨.start config, List.nodup_nil, List.forall_mem_nil _⟩
  | step event _ ih => exact (ih.event event).1

theorem after (h : Reachable s) (events : List Event) : Reachable (s.after events) := by
  induction events generalizing s with
  | nil => exact h
  | cons event rest ih => exact ih (h.step event)

/-- The broker of a server goes through events of its own. -/
theorem leads (h : Reachable s) (events : List Event) :
    Leads (fun _ => False) s.broker (s.after events).broker := by
  induction events generalizing s with
  | nil => exact .refl _ _
  | cons event rest ih => exact (h.sound.event event).2.trans (ih (h.step event))

/-- Settling is one way for the connections to make their turns. -/
theorem settle (h : Reachable s) : Reachable s.settle := by
  obtain ⟨turns, heq⟩ := settle_eq_after h.sound.keys
  exact heq ▸ h.after _

theorem run (h : Reachable s) (span : Millis) : Reachable (s.run span) :=
  settle (run_keeps (P := fun b => Reachable { s with broker := b })
    (fun _ span h => h.step (.advance span)) (fun _ h => h.step .delayedSweep)
    (fun _ h => h.step .expirySweep) span h)

end Reachable

end Server

end WorkQueue
