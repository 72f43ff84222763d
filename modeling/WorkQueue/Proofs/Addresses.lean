import WorkQueue.Proofs.Directory
import WorkQueue.Proofs.Roster

/-!
# Addresses for names

The tables of the engine, which know names only, are what the directory comes to when every address
is read as a name (`Directory.Mirrors`) : the same tubes in the same order, with the same counts,
and the same tubes used and watched by each client. It is kept by every event
(`Broker.Reachable.mirrors_step`), so a directory that goes along with a broker always shows what
the broker has (`Broker.mirrors_after`).
-/

namespace WorkQueue

/-- What of a tube is on record in a directory. -/
def Tube.object (tube : Tube) : TubeObject where
  name := tube.name
  users := tube.users
  watchers := tube.watchers

theorem Command.assigns_watch (name : TubeName) (reply : Reply) (post : Post) :
    (watch name).assigns reply post =
      if post.watching.contains name then post
      else { post with watching := post.watching ++ [name] } :=
  rfl

theorem Command.assigns_ignore (name : TubeName) (reply : Reply) (post : Post) :
    (ignore name).assigns reply post =
      if post.watching == [name] then post
      else { post with watching := post.watching.filter (· ≠ name) } :=
  rfl

/-- A list with a name on it has just one entry if it is that of the name. -/
theorem length_eq_one_iff_of_mem {name : TubeName} {names : List TubeName} (h : name ∈ names) :
    names.length = 1 ↔ names = [name] := by
  rw [List.length_eq_one_iff]
  constructor
  · rintro ⟨other, rfl⟩
    rw [List.mem_singleton.1 h]
  · exact fun heq => ⟨name, heq⟩

/-- A tube is taken off the tubes that a client watches if it is one of them and not the only one. -/
theorem Engine.ignore_eq {s : Engine} {c : ClientId} {client : Client}
    (hc : s.client? c = some client) (name : TubeName) : s.ignore c name =
      if name ∈ client.watching ∧ client.watching ≠ [name] then
        (s.removeWatcher name).adjustClient c
          fun client => { client with watching := client.watching.filter (· ≠ name) }
      else s := by
  simp only [ignore, watchesOnly, hc, Option.any_some, List.contains_eq_mem, beq_eq_decide,
    Bool.and_eq_true, Bool.not_eq_true', decide_eq_true_eq, decide_eq_false_iff_not, ne_eq]

namespace Directory

variable {d e : Directory} {name : TubeName} {ref : TubeRef} {c : ClientId}

/-! ## Addresses for names -/

/-- A client holds the addresses of the tubes that it uses and watches. -/
structure Seats (d : Directory) (seat : Seat) (post : Post) : Prop where
  client : seat.client = post.id
  used : d.name? seat.used = some post.used
  watching : List.Forall₂ (fun ref name => d.name? ref = some name) seat.watching post.watching
  closed : seat.closed = post.closed

/-- The tubes of an engine are those of the directory. -/
structure Shelves (d : Directory) (s : Engine) : Prop where
  kept : d.Kept
  heap : d.heap = s.tubes.map Tube.object

/-- The tables of an engine are the directory, with names for addresses. -/
structure Mirrors (d : Directory) (s : Engine) : Prop extends Shelves d s where
  seats : List.Forall₂ d.Seats d.seats (s.clients.map Client.post)

theorem Seats.of_grows {seat : Seat} {post : Post} (h : d.Seats seat post) (hg : Grows d e) :
    e.Seats seat post :=
  ⟨h.client, hg _ _ h.used, h.watching.imp hg, h.closed⟩

namespace Seats

variable {seat : Seat} {post : Post} {names : List TubeName} (h : d.Seats seat post)
  (hnames : List.Forall₂ (fun ref name => d.name? ref = some name) seat.watching names)

include h hnames

/-- A seat is that of one watch list only. -/
theorem watching_eq : post.watching = names :=
  (namesOf_eq h.watching).symm.trans (namesOf_eq hnames)

theorem assigns_ignore (hdistinct : names.Nodup) (name : TubeName) (reply : Reply) :
    (Command.ignore name).assigns reply post =
      if names = [name] then post else { post with watching := names.erase name } := by
  have hfilter : names.filter (· ≠ name) = names.erase name := by
    rw [hdistinct.erase_eq_filter]
    exact List.filter_congr fun other _ => by rw [bne, beq_eq_decide, decide_not]
  simp only [Command.assigns_ignore, h.watching_eq hnames, hfilter, beq_iff_eq]

end Seats

namespace Shelves

variable {s t : Engine} (h : d.Shelves s)

include h

theorem of_sameTubes (hsame : SameTubes d e) (hheap : e.heap = t.tubes.map Tube.object) :
    e.Shelves t :=
  ⟨hsame.kept h.kept, hheap⟩

theorem name?_of_getElem? {i : Nat} {tube : Tube} (htube : s.tubes[i]? = some tube) :
    d.name? i = some tube.name := by
  rw [name?, h.heap, List.getElem?_map, htube]
  rfl

theorem names_eq : d.names = s.tubes.keys := by
  rw [h.kept.names_eq, h.heap, List.map_map]
  rfl

theorem isSome_get (name : TubeName) : (d.get name).isSome = (s.tube? name).isSome := by
  rw [Bool.eq_iff_iff, Engine.tube?, Table.lookup_isSome_iff, ← h.names_eq, h.kept.names_eq,
    Option.isSome_iff_exists]
  simp only [h.kept.byName, name?_eq, List.mem_iff_getElem?]

/-- The object at an address changes like the tube of its name. -/
theorem adjust (href : d.name? ref = some name) {f : TubeObject → TubeObject} {g : Tube → Tube}
    (hf : ∀ tube, (f tube).name = tube.name) (hfg : ∀ tube, (g tube).object = f tube.object) :
    (d.adjust ref f).Shelves (s.adjustTube name g) := by
  refine h.of_sameTubes (.adjust d ref hf) (List.ext_getElem? fun i => ?_)
  simp only [Directory.adjust, Engine.adjustTube, Table.adjust, h.heap, List.getElem?_modify,
    List.getElem?_map]
  cases htube : s.tubes[i]? with
  | none => rfl
  | some tube =>
    have hi := h.name?_of_getElem? htube
    have hsame : ref = i ↔ tube.name = name := by
      refine ⟨fun heq => ?_, fun heq => h.kept.ref_unique href (heq ▸ hi)⟩
      rw [← heq, href] at hi
      exact (Option.some.inj hi).symm
    simp only [Option.map_some, Functor.map, hsame, Keyed.key]
    split
    · rw [hfg]
    · rfl

theorem addUser (href : d.name? ref = some name) : (d.addUser ref).Shelves (s.addUser name) :=
  h.adjust href (fun _ => rfl) fun _ => rfl

theorem removeUser (href : d.name? ref = some name) :
    (d.removeUser ref).Shelves (s.removeUser name) :=
  h.adjust href (fun _ => rfl) fun _ => rfl

theorem addWatcher (href : d.name? ref = some name) :
    (d.addWatcher ref).Shelves (s.addWatcher name) :=
  h.adjust href (fun _ => rfl) fun _ => rfl

theorem removeWatcher (href : d.name? ref = some name) :
    (d.removeWatcher ref).Shelves (s.removeWatcher name) :=
  h.adjust href (fun _ => rfl) fun _ => rfl

theorem create (name : TubeName) : (d.create name).2.Shelves (s.ensureTube name) := by
  refine ⟨h.kept.create name, ?_⟩
  have hfound := h.isSome_get name
  unfold Directory.create Engine.ensureTube
  cases hget : d.get name with
  | some ref =>
    rw [hget] at hfound
    have hsome : (s.tube? name).isSome = true := hfound.symm
    rw [if_pos hsome]
    exact h.heap
  | none =>
    rw [hget] at hfound
    have hnone : (s.tube? name).isSome = false := hfound.symm
    rw [if_neg (ne_true_of_eq_false hnone)]
    simp only [h.heap, List.map_append]
    rfl

omit h in
theorem removeWatchers {refs : List TubeRef} {names : List TubeName} (h : d.Shelves s)
    (hrefs : List.Forall₂ (fun ref name => d.name? ref = some name) refs names) :
    (refs.foldl Directory.removeWatcher d).Shelves (names.foldl Engine.removeWatcher s) := by
  induction refs generalizing d s names with
  | nil =>
    cases hrefs
    exact h
  | cons ref rest ih =>
    obtain - | ⟨hfirst, hrest⟩ := hrefs
    have hleft := ih (h.removeWatcher hfirst) (hrest.imp (SameTubes.removeWatcher d ref).grows)
    exact hleft

/-- Moves of jobs and answers to requests change no object. -/
theorem of_samePosts (hp : Engine.SamePosts s t) (hn : s.tubes.keys.Nodup) : d.Shelves t := by
  refine ⟨h.kept, h.heap.trans ?_⟩
  -- the object of a tube goes by its name, and both engines have the same names
  have hnew (tube : Tube) (ht : tube ∈ t.tubes) :
      (s.tube? tube.name).map Tube.object = some tube.object := by
    obtain ⟨old, hold, hstays⟩ := hp.tubes tube ht
    rw [(Engine.tube?_eq_some_iff hn).2 ⟨hold, hstays.name.symm⟩, Option.map_some]
    simp only [Tube.object, hstays.name, hstays.users, hstays.watchers]
  have hold (tube : Tube) (ht : tube ∈ s.tubes) :
      (s.tube? tube.name).map Tube.object = some tube.object := by
    rw [(Engine.tube?_eq_some_iff hn).2 ⟨ht, rfl⟩, Option.map_some]
  have hobjects (tubes : List Tube)
      (ht : ∀ tube ∈ tubes, (s.tube? tube.name).map Tube.object = some tube.object) :
      (tubes.map Tube.object).map some =
        (tubes.map Tube.name).map fun name => (s.tube? name).map Tube.object := by
    rw [List.map_map, List.map_map]
    exact List.map_congr_left fun tube hmem => (ht tube hmem).symm
  refine List.map_injective_iff.2 (fun _ _ => Option.some.inj) ?_
  rw [hobjects s.tubes hold, hobjects t.tubes hnew]
  exact congrArg _ hp.keys.symm

end Shelves

namespace Mirrors

section Seating

variable {s : Engine} (h : d.Mirrors s)

include h

theorem keys_seats : d.seats.keys = s.clients.keys := by
  have hseats := List.forall₂_map_right_iff.1 h.seats
  generalize d.seats = seats, s.clients = clients at hseats
  induction hseats with
  | nil => rfl
  | cons hfirst _ ih => exact congrArg₂ List.cons hfirst.client ih

/-- A client is found by its number in both. -/
theorem seat? {client : Client} (hc : s.client? c = some client) :
    ∃ seat, d.seat? c = some seat ∧ d.Seats seat client.post := by
  have hseats := List.forall₂_map_right_iff.1 h.seats
  unfold Directory.seat?
  unfold Engine.client? at hc
  generalize d.seats = seats, s.clients = clients at hseats hc
  induction hseats with
  | nil => cases hc
  | @cons seat first _ _ hfirst _ ih =>
    have hkey : Keyed.key seat = Keyed.key first := hfirst.client
    simp only [Table.lookup, List.find?_cons, hkey] at hc ih ⊢
    split at hc
    · cases hc
      exact ⟨seat, rfl, hfirst⟩
    · exact ih hc

theorem isConnected (c : ClientId) : d.isConnected c = s.isConnected c := by
  cases hc : s.client? c with
  | some client =>
    obtain ⟨seat, hseat, hpost⟩ := h.seat? hc
    simp only [Directory.isConnected, Engine.isConnected, hseat, hc, Option.any_some, hpost.closed]
    rfl
  | none =>
    have hnone : d.seat? c = none := by
      rw [Directory.seat?, Table.lookup_eq_none_iff, h.keys_seats, ← Table.lookup_eq_none_iff]
      exact hc
    rw [Directory.isConnected, Engine.isConnected, hnone, hc]
    rfl

/-- The seat of one client changes like its post. -/
theorem adjustSeat (hn : s.clients.Numbered) {seat : Seat} (hseat : d.seat? c = some seat)
    (hg : Grows d e) {f : Seat → Seat} {g : Post → Post}
    (hfg : ∀ post, d.Seats seat post → e.Seats (f seat) (g post)) :
    List.Forall₂ e.Seats (d.seats.adjust c f)
      ((s.clients.map Client.post).map fun post => if post.id = c then g post else post) := by
  refine List.forall₂_map_left_iff.2 (List.forall₂_map_right_iff.2 ?_)
  have hmem := (List.forall₂_and_left _ _).2 ⟨fun seat (hseat : seat ∈ d.seats) => hseat, h.seats⟩
  refine hmem.imp fun other post ⟨hother, hpost⟩ => ?_
  have hkey : Keyed.key other = post.id := hpost.client
  rw [hkey]
  split
  · next hid =>
    have hkeys : d.seats.keys.Nodup := h.keys_seats ▸ hn.nodup
    obtain rfl := Table.eq_of_key_eq hkeys hother (Table.mem_of_lookup hseat)
      ((hkey.trans hid).trans (Table.key_of_lookup hseat).symm)
    exact hfg post hpost
  · exact hpost.of_grows hg

/-- The seat of one client stays, and its post is still that of the seat. -/
theorem keepSeat (hn : s.clients.Numbered) {seat : Seat} (hseat : d.seat? c = some seat)
    (hg : Grows d e) {g : Post → Post} (hfg : ∀ post, d.Seats seat post → e.Seats seat (g post)) :
    List.Forall₂ e.Seats d.seats
      ((s.clients.map Client.post).map fun post => if post.id = c then g post else post) := by
  have hseats := h.adjustSeat hn hseat hg (f := fun seat => seat) hfg
  simpa [Table.adjust] using hseats

end Seating

/-! ## What a client does -/

variable {s : Engine} {client : Client}

/-- A client comes. -/
theorem connect (h : d.Mirrors s) (hdefault : .default ∈ s.tubes.keys) :
    d.connect.Shelves s.openClient ∧ List.Forall₂ d.connect.Seats d.connect.seats
      (s.clients.map Client.post ++ [{ id := s.nextClient }]) := by
  have hmade := h.kept.name?_create .default
  have hcreated := sameTubes_connect d
  have hname : d.connect.name? (d.create .default).1 = some .default :=
    (hcreated.name? _).trans hmade
  have hlength : (d.create .default).2.seats.length = s.clients.length := by
    rw [seats_create]
    exact h.seats.length_eq.trans (List.length_map ..)
  have heq : d.connect = { ((d.create .default).2.addUser (d.create .default).1).addWatcher
      (d.create .default).1 with
        seats := d.seats ++ [{
          client := s.nextClient
          used := (d.create .default).1
          watching := [(d.create .default).1] }] } := by
    rw [Engine.nextClient, ← hlength, ← seats_create d .default]
    unfold Directory.connect
    rw [getOrCreate_eq_create]
    rfl
  have hthere : s.ensureTube .default = s := if_pos (Table.lookup_isSome_iff.2 hdefault)
  have hshelves := h.toShelves.create .default
  rw [hthere] at hshelves
  have hgrows : Grows d d.connect := fun ref name hname =>
    hcreated.grows ref name (Kept.grows_create d .default ref name hname)
  have huser := hshelves.addUser hmade
  have hwatcher := huser.addWatcher ((SameTubes.addUser _ _).grows _ _ hmade)
  refine ⟨huser.of_sameTubes ?_ ?_, ?_⟩
  · rw [heq]
    exact (SameTubes.addWatcher _ _).trans ⟨rfl, rfl, rfl⟩
  · rw [heq]
    exact hwatcher.heap
  · have hseats : d.connect.seats = d.seats ++ [{
        client := s.nextClient
        used := (d.create .default).1
        watching := [(d.create .default).1] }] := by rw [heq]
    rw [hseats]
    exact List.rel_append (h.seats.imp fun _ _ hpost => hpost.of_grows hgrows)
      (.cons ⟨rfl, hname, .cons hname .nil, rfl⟩ .nil)

variable (h : d.Mirrors s) (hn : s.clients.Numbered) (hc : s.client? c = some client)

include h hn hc

theorem useTube (name : TubeName) (reply : Reply) : (d.useTube c name).Shelves (s.useTube c name) ∧
    List.Forall₂ (d.useTube c name).Seats (d.useTube c name).seats
      ((s.clients.map Client.post).map fun post =>
        if post.id = c then (Command.useTube name).assigns reply post else post) := by
  obtain ⟨seat, hseat, hpost⟩ := h.seat? hc
  have hmade := h.kept.name?_create name
  have hcreated := sameTubes_useTube d c name
  have hgrows : Grows d (d.useTube c name) := fun ref other hother =>
    hcreated.grows ref other (Kept.grows_create d name ref other hother)
  have hname : (d.useTube c name).name? (d.create name).1 = some name :=
    (hcreated.name? _).trans hmade
  have hshelves := ((h.toShelves.create name).addUser hmade).removeUser
    ((SameTubes.addUser _ _).grows _ _ (Kept.grows_create d name _ _ hpost.used))
  have hleft := h.adjustSeat hn hseat hgrows
    (f := fun seat => { seat with used := (d.create name).1 })
    (g := (Command.useTube name).assigns reply) fun post hpost =>
      ⟨hpost.client, hname, hpost.watching.imp hgrows, hpost.closed⟩
  refine ⟨⟨hcreated.kept (h.kept.create name), ?_⟩, ?_⟩
  · simp only [useTube_eq hseat, Engine.useTube, hc]
    exact hshelves.heap
  · have hseats : (d.useTube c name).seats =
        d.seats.adjust c fun seat => { seat with used := (d.create name).1 } := by
      rw [useTube_eq hseat, ← seats_create d name]
      rfl
    rw [hseats]
    exact hleft

theorem watch (name : TubeName) (reply : Reply) :
    (d.watch c name).2.Shelves (s.watch c name) ∧
    List.Forall₂ (d.watch c name).2.Seats (d.watch c name).2.seats
      ((s.clients.map Client.post).map fun post =>
        if post.id = c then (Command.watch name).assigns reply post else post) := by
  obtain ⟨seat, hseat, hpost⟩ := h.seat? hc
  have hmade := h.kept.name?_create name
  have hcreated := sameTubes_watch d c name
  have hkept := h.kept.create name
  have hgrown := Kept.grows_create d name
  have hgrows : Grows d (d.watch c name).2 := fun ref other hother =>
    hcreated.grows ref other (hgrown ref other hother)
  have hname : (d.watch c name).2.name? (d.create name).1 = some name :=
    (hcreated.name? _).trans hmade
  -- the address is on the list exactly if the name is
  have hsame {post : Post} (hpost : d.Seats seat post) :
      post.watching.contains name = seat.watching.contains (d.create name).1 := by
    rw [Bool.eq_iff_iff, List.contains_iff_mem, List.contains_iff_mem]
    exact (Kept.mem_iff (hpost.watching.imp hgrown) hkept hmade).symm
  have hclient : (s.ensureTube name).client? c = some client := by
    rw [Engine.client?, Broker.clients_ensureTube]
    exact hc
  have hshelves := h.toShelves.create name
  have hlisted : client.watching.contains name = seat.watching.contains (d.create name).1 :=
    hsame hpost
  by_cases hthere : seat.watching.contains (d.create name).1
  · have heq : (d.watch c name).2 = (d.create name).2 := by
      rw [watch_eq hseat, if_pos hthere]
    refine ⟨?_, ?_⟩
    · simp only [heq, Engine.watch, hclient, hlisted, hthere, if_true]
      exact hshelves
    · have hseats : (d.watch c name).2.seats = d.seats := by rw [heq, seats_create]
      rw [hseats]
      refine h.keepSeat hn hseat hgrows fun post hpost => ?_
      rw [Command.assigns_watch, hsame hpost, if_pos hthere]
      exact hpost.of_grows hgrows
  · have heq : (d.watch c name).2 = ((d.create name).2.addWatcher (d.create name).1).adjustSeat c
        fun seat => { seat with watching := seat.watching ++ [(d.create name).1] } := by
      rw [watch_eq hseat, if_neg hthere]
    refine ⟨⟨hcreated.kept hkept, ?_⟩, ?_⟩
    · simp only [heq, Engine.watch, hclient, hlisted, hthere]
      exact (hshelves.addWatcher hmade).heap
    · have hseats : (d.watch c name).2.seats = d.seats.adjust c
          fun seat => { seat with watching := seat.watching ++ [(d.create name).1] } := by
        rw [heq, ← seats_create d name]
        rfl
      rw [hseats]
      refine h.adjustSeat hn hseat hgrows fun post hpost => ?_
      rw [Command.assigns_watch, hsame hpost, if_neg hthere]
      exact ⟨hpost.client, hgrows _ _ hpost.used,
        List.rel_append (hpost.watching.imp hgrows) (.cons hname .nil), hpost.closed⟩

theorem ignore (hdistinct : client.watching.Nodup) (name : TubeName) (reply : Reply) :
    (d.ignore c name).2.Shelves (s.ignore c name) ∧
    List.Forall₂ (d.ignore c name).2.Seats (d.ignore c name).2.seats
      ((s.clients.map Client.post).map fun post =>
        if post.id = c then (Command.ignore name).assigns reply post else post) := by
  obtain ⟨seat, hseat, hpost⟩ := h.seat? hc
  have hgrows : Grows d (d.ignore c name).2 := (sameTubes_ignore d c name).grows
  have hlist : List.Forall₂ (fun ref name => d.name? ref = some name) seat.watching
    client.watching := hpost.watching
  have hfound := findFinIdx?_name hlist name
  cases hfind : seat.watching.findFinIdx? fun ref => d.name? ref = some name with
  | none =>
    rw [hfind] at hfound
    have heq : (d.ignore c name).2 = d := by simp only [Directory.ignore, hseat, hfind]
    rw [heq, Engine.ignore_eq hc, if_neg fun hthere => hfound hthere.1]
    refine ⟨h.toShelves, h.keepSeat hn hseat (fun _ _ => id) fun post hpost' => ?_⟩
    rw [hpost'.assigns_ignore hlist hdistinct, List.erase_of_not_mem hfound,
      ← hpost'.watching_eq hlist, ite_self]
    exact hpost'
  | some i =>
    rw [hfind] at hfound
    obtain ⟨hmem, hname, herased⟩ := hfound
    have hone : seat.watching.length = 1 ↔ client.watching = [name] := by
      rw [hlist.length_eq]
      exact length_eq_one_iff_of_mem hmem
    by_cases hlast : client.watching = [name]
    · have heq : (d.ignore c name).2 = d := by
        simp only [Directory.ignore, hseat, hfind, hone.2 hlast, if_true]
      rw [heq, Engine.ignore_eq hc, if_neg fun hthere => hthere.2 hlast]
      refine ⟨h.toShelves, h.keepSeat hn hseat (fun _ _ => id) fun post hpost' => ?_⟩
      rw [hpost'.assigns_ignore hlist hdistinct, if_pos hlast]
      exact hpost'
    · have heq : (d.ignore c name).2 = (d.removeWatcher seat.watching[i]).adjustSeat c
          fun seat => { seat with watching := seat.watching.eraseIdx i } := by
        simp only [Directory.ignore, hseat, hfind, mt hone.1 hlast, if_false]
      have hremoved := h.toShelves.removeWatcher hname
      rw [heq] at hgrows ⊢
      rw [Engine.ignore_eq hc, if_pos ⟨hmem, hlast⟩]
      refine ⟨hremoved.of_sameTubes (.adjustSeat _ c _) hremoved.heap,
        h.adjustSeat hn hseat hgrows fun post hpost' => ?_⟩
      rw [hpost'.assigns_ignore hlist hdistinct, if_neg hlast]
      exact ⟨hpost'.client, hgrows _ _ hpost'.used, herased.imp hgrows, hpost'.closed⟩

theorem close : (d.close c).Shelves (s.depart client) ∧
    List.Forall₂ (d.close c).Seats (d.close c).seats
      ((s.clients.map Client.post).map fun post =>
        if post.id = c then { post with closed := true, watching := [] } else post) := by
  obtain ⟨seat, hseat, hpost⟩ := h.seat? hc
  have hgrows : Grows d (d.close c) := (sameTubes_close d c).grows
  have hleft := (h.toShelves.removeUser hpost.used).removeWatchers
    (hpost.watching.imp (SameTubes.removeUser d seat.used).grows)
  have heq := close_eq hseat
  have hseats : (d.close c).seats =
      d.seats.adjust c fun seat => { seat with closed := true, watching := [] } := by
    have hkept : ∀ (refs : List TubeRef) (d : Directory),
        (refs.foldl Directory.removeWatcher d).seats = d.seats := fun refs d =>
      List.foldlRecOn refs Directory.removeWatcher (motive := fun e => e.seats = d.seats) rfl
        fun e (h : e.seats = d.seats) _ _ => h
    rw [heq, Directory.adjustSeat, hkept]
    rfl
  refine ⟨?_, ?_⟩
  · rw [heq]
    exact hleft.of_sameTubes (.adjustSeat _ c _) hleft.heap
  · rw [hseats]
    exact h.adjustSeat hn hseat hgrows fun post hpost =>
      ⟨hpost.client, hgrows _ _ hpost.used, .nil, rfl⟩

/-- A command does to the directory what it does to the tables. -/
theorem perform (hdistinct : client.watching.Nodup) (command : Command) (reply : Reply) :
    (d.perform c command).Shelves (command.repost s c reply) ∧
    List.Forall₂ (d.perform c command).Seats (d.perform c command).seats
      ((s.clients.map Client.post).map fun post =>
        if post.id = c then command.assigns reply post else post) := by
  obtain ⟨seat, hseat, -⟩ := h.seat? hc
  -- a command that is not about tubes leaves its client where it is
  have hstays {g : Post → Post} (hg : ∀ post, d.Seats seat post → d.Seats seat (g post)) :
      List.Forall₂ d.Seats d.seats
        ((s.clients.map Client.post).map fun post => if post.id = c then g post else post) :=
    h.keepSeat hn hseat (fun _ _ => id) hg
  have hobjects {t : Engine} (ht : t.tubes.map Tube.object = s.tubes.map Tube.object) :
      d.Shelves t := ⟨h.kept, h.heap.trans ht.symm⟩
  cases command with
  | useTube name => exact h.useTube hn hc name reply
  | watch name => exact h.watch hn hc name reply
  | ignore name => exact h.ignore hn hc hdistinct name reply
  | put | reserveJob =>
    refine ⟨?_, hstays fun post hpost => ⟨hpost.client, hpost.used, hpost.watching, hpost.closed⟩⟩
    unfold Command.repost
    dsimp only
    split <;> exact hobjects rfl
  | reserve | reserveWithTimeout =>
    exact ⟨hobjects rfl,
      hstays fun post hpost => ⟨hpost.client, hpost.used, hpost.watching, hpost.closed⟩⟩
  | pauseTube name delay =>
    refine ⟨?_, hstays fun _ => id⟩
    unfold Command.repost
    dsimp only
    split
    · refine hobjects (List.map_map.trans (List.map_congr_left fun tube _ => ?_))
      rw [Function.comp_apply]
      split <;> rfl
    · exact hobjects rfl
  | _ => exact ⟨hobjects rfl, hstays fun _ => id⟩

end Mirrors

end Directory

namespace Broker

open Engine

variable {b : Broker} {d : Directory}

/-- The directory goes along with the broker. -/
theorem Reachable.mirrors_step (h : Reachable b) (hd : d.Mirrors b.engine) (event : Event) :
    (d.step event).Mirrors (b.step event).engine := by
  have hs := h.sound
  suffices hboth : (d.step event).Shelves (b.repost event) ∧
      List.Forall₂ (d.step event).Seats (d.step event).seats
        ((b.engine.clients.map Client.post).map (b.assigns event) ++ b.joins event) by
    obtain ⟨hshelves, hseats⟩ := hboth
    have hsame := h.samePosts event
    have hn : (b.repost event).tubes.keys.Nodup := hsame.keys ▸ (h.step event).sound.listed.tubes
    exact ⟨hshelves.of_samePosts hsame hn, (h.posts_step event).symm ▸ hseats⟩
  have hidle (hassigns : b.assigns event = id) (hjoins : b.joins event = []) :
      List.Forall₂ d.Seats d.seats
        ((b.engine.clients.map Client.post).map (b.assigns event) ++ b.joins event) := by
    rw [hassigns, hjoins, List.map_id, List.append_nil]
    exact hd.seats
  cases event with
  | connect =>
    have hkept : b.assigns .connect = id := rfl
    rw [hkept, List.map_id]
    exact hd.connect hs.posted.default
  | command c command body =>
    have hcon : d.isConnected c = b.isConnected c := hd.isConnected c
    rw [Directory.step, repost, hcon]
    split
    · next hc =>
      obtain ⟨client, -, hclient, -⟩ := client?_of_isConnected hc
      have hdistinct := hs.posted.distinct client (Table.mem_of_lookup hclient)
      have hassigns : b.assigns (.command c command body) = fun post =>
          if post.id = c then command.assigns (b.dispatch c command body).1 post else post :=
        funext fun post => by simp [assigns, hc]
      have hjoins : b.joins (.command c command body) = [] := rfl
      rw [hassigns, hjoins, List.append_nil]
      exact hd.perform hs.listed.clients hclient hdistinct command (b.dispatch c command body).1
    · next hc => exact ⟨hd.toShelves, hidle (funext fun post => by simp [assigns, hc]) rfl⟩
  | disconnect c =>
    have hcon : d.isConnected c = b.isConnected c := hd.isConnected c
    rw [Directory.step, repost, hcon]
    split
    · next hc =>
      obtain ⟨client, -, hclient, -⟩ := client?_of_isConnected hc
      have hassigns : b.assigns (.disconnect c) = fun post =>
          if post.id = c then { post with closed := true, watching := [] } else post :=
        funext fun post => by simp [assigns, hc]
      have hjoins : b.joins (.disconnect c) = [] := rfl
      rw [hassigns, hjoins, List.append_nil, hclient]
      exact hd.close hs.listed.clients hclient
    · next hc => exact ⟨hd.toShelves, hidle (funext fun post => by simp [assigns, hc]) rfl⟩
  | advance | delayedSweep | expirySweep =>
    exact ⟨⟨hd.kept, hd.heap⟩, hidle rfl rfl⟩

theorem mirrors_start (config : Config) : Directory.start.Mirrors (start config).engine where
  kept := Directory.kept_start
  heap := rfl
  seats := .nil

/-- In every run, the directory and the tables go together. -/
theorem mirrors_after (config : Config) (events : List Event) :
    (Directory.start.after events).Mirrors ((start config).after events).engine := by
  induction events using List.reverseRecOn with
  | nil => exact mirrors_start config
  | append_singleton earlier event ih =>
    rw [after_append, Directory.after, List.foldl_append]
    exact ((Reachable.start config).after earlier).mirrors_step ih event

end Broker

end WorkQueue
