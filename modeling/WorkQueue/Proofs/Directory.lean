import Mathlib.Data.List.Forall2
import WorkQueue.Directory

/-!
# The map and the list of the directory

The map and the list of a directory tell the same tubes : whatever is done, each address is in the
list once, and the map leads from the name of an object to its address and from no other name
(`Directory.Kept`). An address that a name has once it has for good (`Directory.Kept.get_after`).
So it comes to the same whether a watch list is searched by address or by name.
-/

namespace WorkQueue

namespace Directory

variable {d e : Directory} {name other : TubeName} {ref other' : TubeRef} {c : ClientId}

/-! ## The map and the list -/

/-- The list has each address once, and the map leads to the addresses by the names. -/
structure Kept (d : Directory) : Prop where
  order : d.order = List.range d.heap.length
  byName : ∀ name ref, d.get name = some ref ↔ d.name? ref = some name

/-- The addresses that have names keep them. -/
def Grows (d e : Directory) : Prop :=
  ∀ ref name, d.name? ref = some name → e.name? ref = some name

/-- The same tubes, whoever uses and watches them. -/
structure SameTubes (d e : Directory) : Prop where
  names : e.heap.map (·.name) = d.heap.map (·.name)
  byName : e.byName = d.byName
  order : e.order = d.order

theorem name?_eq (d : Directory) (ref : TubeRef) :
    d.name? ref = (d.heap.map (·.name))[ref]? := by
  rw [List.getElem?_map, name?]

namespace SameTubes

theorem refl (d : Directory) : SameTubes d d :=
  ⟨rfl, rfl, rfl⟩

theorem trans {e f : Directory} (h₁ : SameTubes d e) (h₂ : SameTubes e f) : SameTubes d f :=
  ⟨h₂.names.trans h₁.names, h₂.byName.trans h₁.byName, h₂.order.trans h₁.order⟩

theorem name? (h : SameTubes d e) (ref : TubeRef) : e.name? ref = d.name? ref := by
  rw [name?_eq, name?_eq, h.names]

theorem get (h : SameTubes d e) (name : TubeName) : e.get name = d.get name := by
  rw [Directory.get, Directory.get, h.byName]

theorem grows (h : SameTubes d e) : Grows d e := fun ref _ hname => (h.name? ref).trans hname

theorem kept (h : SameTubes d e) (hk : d.Kept) : e.Kept where
  order := by
    rw [h.order, hk.order, ← List.length_map (·.name), ← h.names, List.length_map]
  byName name ref := by rw [h.get, h.name?, hk.byName]

theorem adjust (d : Directory) (ref : TubeRef) {f : TubeObject → TubeObject}
    (hf : ∀ tube, (f tube).name = tube.name) : SameTubes d (d.adjust ref f) := by
  refine ⟨List.ext_getElem? fun i => ?_, rfl, rfl⟩
  simp only [Directory.adjust, List.getElem?_map, List.getElem?_modify]
  cases d.heap[i]? with
  | none => rfl
  | some tube =>
    refine congrArg some ?_
    split
    · exact hf tube
    · rfl

theorem addUser (d : Directory) (ref : TubeRef) : SameTubes d (d.addUser ref) :=
  adjust d ref fun _ => rfl

theorem removeUser (d : Directory) (ref : TubeRef) : SameTubes d (d.removeUser ref) :=
  adjust d ref fun _ => rfl

theorem addWatcher (d : Directory) (ref : TubeRef) : SameTubes d (d.addWatcher ref) :=
  adjust d ref fun _ => rfl

theorem removeWatcher (d : Directory) (ref : TubeRef) : SameTubes d (d.removeWatcher ref) :=
  adjust d ref fun _ => rfl

theorem removeWatchers : ∀ (refs : List TubeRef) (d : Directory),
    SameTubes d (refs.foldl Directory.removeWatcher d)
  | [], d => refl d
  | ref :: rest, d => (removeWatcher d ref).trans (removeWatchers rest _)

theorem adjustSeat (d : Directory) (c : ClientId) (f : Seat → Seat) :
    SameTubes d (d.adjustSeat c f) :=
  ⟨rfl, rfl, rfl⟩

end SameTubes

theorem seats_create (d : Directory) (name : TubeName) : (d.create name).2.seats = d.seats := by
  unfold create
  split <;> rfl

/-- Nothing comes of looking for a name first. -/
theorem getOrCreate_eq_create (d : Directory) (name : TubeName) :
    d.getOrCreate name = d.create name := by
  unfold getOrCreate create
  cases d.get name <;> rfl

namespace Kept

variable (h : d.Kept)

include h

/-- Names and addresses stand for each other. -/
theorem ref_unique (hr : d.name? ref = some name) (ho : d.name? other' = some name) :
    ref = other' :=
  Option.some.inj (((h.byName name ref).2 hr).symm.trans ((h.byName name other').2 ho))

omit h in
theorem lt_of_name? (hname : d.name? ref = some name) : ref < d.heap.length := by
  obtain ⟨tube, htube, -⟩ := Option.map_eq_some_iff.1 hname
  exact (List.getElem?_eq_some_iff.1 htube).1

/-- The list has the objects in order, each once. -/
theorem map_order : d.order.map d.name? = (d.heap.map (·.name)).map some := by
  rw [h.order]
  refine List.ext_getElem (by simp) fun i hi hi' => ?_
  simp only [List.length_map] at hi'
  simp [name?, List.getElem?_eq_getElem hi']

theorem names_eq : d.names = d.heap.map (·.name) := by
  have hnamed : d.names = (d.order.map d.name?).filterMap id := by
    rw [List.filterMap_map]
    rfl
  rw [hnamed, h.map_order, List.filterMap_map]
  exact List.filterMap_some

/-- The map leads to the addresses that are in the list. -/
theorem mem_order : ref ∈ d.order ↔ ∃ name, d.get name = some ref := by
  simp only [h.order, h.byName, List.mem_range]
  constructor
  · intro hlt
    exact ⟨d.heap[ref].name, by rw [name?, List.getElem?_eq_getElem hlt, Option.map_some]⟩
  · rintro ⟨name, hname⟩
    exact lt_of_name? hname

theorem name?_create (name : TubeName) :
    (d.create name).2.name? (d.create name).1 = some name := by
  unfold create
  cases hget : d.get name with
  | some ref => exact (h.byName name ref).1 hget
  | none => simp [name?]

omit h in
/-- A tube that is made comes last. -/
theorem name?_push (ref : TubeRef) : (d.heap ++ [({ name } : TubeObject)])[ref]?.map (·.name) =
    if ref = d.heap.length then some name else d.name? ref := by
  rcases Nat.lt_trichotomy ref d.heap.length with hlt | rfl | hgt
  · rw [List.getElem?_append_left hlt, if_neg (Nat.ne_of_lt hlt), name?]
  · simp
  · have hout : d.name? ref = none := by
      rw [name?, List.getElem?_eq_none (Nat.le_of_lt hgt), Option.map_none]
    rw [if_neg (Nat.ne_of_gt hgt), hout, List.getElem?_eq_none]
    · rfl
    · simpa using Nat.succ_le_of_lt hgt

omit h in
theorem grows_create (d : Directory) (name : TubeName) : Grows d (d.create name).2 := by
  intro ref other hother
  unfold create
  split
  · exact hother
  · rw [name?, name?_push, if_neg (Nat.ne_of_lt (lt_of_name? hother))]
    exact hother

theorem create (name : TubeName) : (d.create name).2.Kept := by
  unfold Directory.create
  cases hget : d.get name with
  | some ref => exact h
  | none =>
    refine ⟨?_, fun other ref => ?_⟩
    · simp only [h.order, List.length_append, List.length_singleton, List.range_succ]
    · rw [get, name?, name?_push, List.lookup_cons]
      by_cases hother : other = name
      · subst hother
        have hnew : d.name? ref ≠ some other := fun hname => by
          rw [(h.byName other ref).2 hname] at hget
          cases hget
        simp only [BEq.rfl, Option.some.injEq]
        split
        · next hlast => exact ⟨fun _ => rfl, fun _ => hlast.symm⟩
        · next hold => exact ⟨fun hlast => absurd hlast.symm hold, fun hname => absurd hname hnew⟩
      · have hold : d.name? ref = some other → ref ≠ d.heap.length := fun hname =>
          Nat.ne_of_lt (lt_of_name? hname)
        simp only [beq_eq_false_iff_ne.2 hother]
        refine (h.byName other ref).trans ⟨fun hname => ?_, fun hname => ?_⟩
        · rw [if_neg (hold hname), hname]
        · split at hname
          · exact absurd (Option.some.inj hname).symm hother
          · exact hname

end Kept

/-- What an event makes of the tubes : it makes the one that is mentioned, and changes no name. -/
theorem sameTubes_connect (d : Directory) : SameTubes (d.create .default).2 d.connect := by
  unfold connect
  rw [getOrCreate_eq_create]
  exact ((SameTubes.addUser _ _).trans (.addWatcher _ _)).trans ⟨rfl, rfl, rfl⟩

theorem sameTubes_useTube (d : Directory) (c : ClientId) (name : TubeName) :
    SameTubes (d.create name).2 (d.useTube c name) := by
  unfold useTube
  rw [getOrCreate_eq_create]
  dsimp only
  split
  · exact ((SameTubes.addUser _ _).trans (.removeUser _ _)).trans (.adjustSeat _ _ _)
  · exact .refl _

theorem sameTubes_watch (d : Directory) (c : ClientId) (name : TubeName) :
    SameTubes (d.create name).2 (d.watch c name).2 := by
  unfold watch
  rw [getOrCreate_eq_create]
  dsimp only
  split
  · split
    · exact .refl _
    · exact (SameTubes.addWatcher _ _).trans (.adjustSeat _ _ _)
  · exact .refl _

theorem sameTubes_ignore (d : Directory) (c : ClientId) (name : TubeName) :
    SameTubes d (d.ignore c name).2 := by
  unfold ignore
  split
  · split
    · split
      · exact .refl d
      · exact (SameTubes.removeWatcher d _).trans (.adjustSeat _ _ _)
    · exact .refl d
  · exact .refl d

theorem sameTubes_close (d : Directory) (c : ClientId) : SameTubes d (d.close c) := by
  unfold close
  split
  · exact ((SameTubes.removeUser d _).trans (.removeWatchers _ _)).trans (.adjustSeat _ _ _)
  · exact .refl d

/-- An event makes at most one tube, and changes no name. -/
theorem exists_sameTubes_step (d : Directory) (event : Event) :
    SameTubes d (d.step event) ∨ ∃ name, SameTubes (d.create name).2 (d.step event) := by
  cases event with
  | connect => exact Or.inr ⟨_, sameTubes_connect d⟩
  | command c command body =>
    rw [step]
    split
    · cases command with
      | useTube name => exact Or.inr ⟨name, sameTubes_useTube d c name⟩
      | watch name => exact Or.inr ⟨name, sameTubes_watch d c name⟩
      | ignore name => exact Or.inl (sameTubes_ignore d c name)
      | _ => exact Or.inl (.refl d)
    · exact Or.inl (.refl d)
  | disconnect c =>
    rw [step]
    split
    · exact Or.inl (sameTubes_close d c)
    · exact Or.inl (.refl d)
  | advance | delayedSweep | expirySweep => exact Or.inl (.refl d)

theorem kept_start : start.Kept := by
  rw [start, getOrCreate_eq_create]
  exact Kept.create ⟨rfl, fun _ _ => by simp [get, name?]⟩ .default

theorem Kept.step (h : d.Kept) (event : Event) : (d.step event).Kept := by
  rcases exists_sameTubes_step d event with hsame | ⟨name, hsame⟩
  · exact hsame.kept h
  · exact hsame.kept (h.create name)

theorem grows_step (d : Directory) (event : Event) : Grows d (d.step event) := by
  rcases exists_sameTubes_step d event with hsame | ⟨name, hsame⟩
  · exact hsame.grows
  · exact fun ref other hother => hsame.grows ref other (Kept.grows_create d name ref other hother)

theorem Kept.after (h : d.Kept) (events : List Event) : (d.after events).Kept :=
  List.foldlRecOn events Directory.step (motive := Kept) h fun _ h event _ => h.step event

theorem grows_after (d : Directory) (events : List Event) : Grows d (d.after events) :=
  List.foldlRecOn events Directory.step (motive := Grows d) (fun _ _ => id)
    fun e h event _ ref name hname => grows_step e event ref name (h ref name hname)

/-- A name leads to the same tube for good. -/
theorem Kept.get_after (h : d.Kept) (hget : d.get name = some ref) (later : List Event) :
    (d.after later).get name = some ref :=
  ((h.after later).byName name ref).2
    (grows_after d later ref name ((h.byName name ref).1 hget))

/-! ## What a client does -/

section Seated

variable {seat : Seat} (hseat : d.seat? c = some seat)

include hseat

theorem seat?_create (name : TubeName) : (d.create name).2.seat? c = some seat := by
  rw [seat?, seats_create]
  exact hseat

theorem useTube_eq (name : TubeName) : d.useTube c name =
    (((d.create name).2.addUser (d.create name).1).removeUser seat.used).adjustSeat c
      fun seat => { seat with used := (d.create name).1 } := by
  unfold useTube
  rw [getOrCreate_eq_create]
  simp only [seat?_create hseat]

theorem watch_eq (name : TubeName) : d.watch c name =
    if seat.watching.contains (d.create name).1 then
      (some seat.watching.length, (d.create name).2)
    else
      (some (seat.watching.length + 1),
        ((d.create name).2.addWatcher (d.create name).1).adjustSeat c
          fun seat => { seat with watching := seat.watching ++ [(d.create name).1] }) := by
  unfold watch
  rw [getOrCreate_eq_create]
  simp only [seat?_create hseat]

theorem close_eq : d.close c =
    (seat.watching.foldl removeWatcher (d.removeUser seat.used)).adjustSeat c
      fun seat => { seat with closed := true, watching := [] } := by
  unfold close
  simp only [hseat]

end Seated

/-! ## Addresses and names on a watch list -/

section Lists

variable {refs : List TubeRef} {names : List TubeName}
  (hrefs : List.Forall₂ (fun ref name => d.name? ref = some name) refs names)

include hrefs

theorem Kept.mem_iff (h : d.Kept) (hname : d.name? ref = some name) :
    ref ∈ refs ↔ name ∈ names := by
  induction hrefs with
  | nil => exact iff_of_false List.not_mem_nil List.not_mem_nil
  | @cons first _ _ _ hfirst _ ih =>
    rw [List.mem_cons, List.mem_cons, ih]
    refine or_congr_left ⟨?_, ?_⟩
    · rintro rfl
      exact Option.some.inj (hname.symm.trans hfirst)
    · rintro rfl
      exact h.ref_unique hname hfirst

theorem namesOf_eq : d.namesOf refs = names := by
  induction hrefs with
  | nil => rfl
  | cons hfirst _ ih => rw [namesOf, List.filterMap_cons_some hfirst, ← namesOf, ih]

/-- The first address of a name is taken out where the name is. -/
theorem forall₂_eraseP (name : TubeName) :
    List.Forall₂ (fun ref name => d.name? ref = some name)
      (refs.eraseP fun ref => d.name? ref = some name) (names.erase name) := by
  induction hrefs with
  | nil => exact .nil
  | @cons _ other _ _ hfirst hrest ih =>
    rw [List.eraseP_cons, List.erase_cons, hfirst]
    by_cases hother : other = name
    · simp only [hother, decide_true, BEq.rfl, if_true]
      exact hrest
    · simp only [Option.some.injEq, hother, decide_false, beq_eq_false_iff_ne.2 hother,
        Bool.false_eq_true, if_false, cond_false]
      exact .cons hfirst ih

/-- A name that is not on the list is not found, and one that is comes off it. -/
theorem findFinIdx?_name (name : TubeName) :
    match refs.findFinIdx? fun ref => d.name? ref = some name with
    | none => name ∉ names
    | some i => name ∈ names ∧ d.name? refs[i] = some name ∧
      List.Forall₂ (fun ref name => d.name? ref = some name) (refs.eraseIdx i)
        (names.erase name) := by
  split
  · next hnone =>
    intro hmem
    obtain ⟨i, hi, rfl⟩ := List.getElem_of_mem hmem
    have hlt : i < refs.length := hrefs.length_eq ▸ hi
    have hname : d.name? refs[i] = some names[i] := hrefs.get hlt hi
    exact List.findFinIdx?_eq_none_iff.1 hnone refs[i] (List.getElem_mem hlt)
      (decide_eq_true hname)
  · next i hsome =>
    have hname : d.name? refs[i] = some name :=
      of_decide_eq_true (List.findFinIdx?_eq_some_iff.1 hsome).1
    have hlt : i.1 < names.length := hrefs.length_eq ▸ i.2
    have hnamed : d.name? refs[i] = some names[i.1] := hrefs.get i.2 hlt
    refine ⟨Option.some.inj (hnamed.symm.trans hname) ▸ List.getElem_mem hlt, hname, ?_⟩
    have herased := forall₂_eraseP hrefs name
    rwa [List.eraseP_eq_eraseIdx, List.findIdx?_eq_map_findFinIdx?_val, hsome] at herased

end Lists

end Directory

end WorkQueue
