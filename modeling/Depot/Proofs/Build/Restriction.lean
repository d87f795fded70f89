import Depot.Proofs.Build.Composition
import Depot.Proofs.Build.Origin

set_option autoImplicit false

namespace Depot

namespace Slot

section

variable (workspace : Workspace) (changed : Source)

mutual

def restrict : Slot → Slot
  | .file name source => .file name source
  | .container kind name touches (.error fault) => .container kind name touches (.error fault)
  | .container kind name touches (.ok slots) => .container kind name touches
    (.ok (restrictEach slots))

/-- Those of some slots that a change reaches, with only such slots inside. -/
def restrictEach : List Slot → List Slot
  | [] => []
  | slot :: rest =>
    if workspace.reaches changed slot.touches = .ok true then restrict slot :: restrictEach rest
    else restrictEach rest

end

end

variable {workspace : Workspace} {changed : Source}

@[simp]
theorem name_restrict (slot : Slot) : (slot.restrict workspace changed).name = slot.name := by
  cases slot with
  | file name source => rw [restrict]
  | container kind name touches contents =>
    cases contents with
    | error fault => rw [restrict]
    | ok slots =>
      rw [restrict]
      rfl

theorem mem_restrictEach {slots : List Slot} {part : Slot} :
    part ∈ restrictEach workspace changed slots ↔
      ∃ slot ∈ slots, workspace.reaches changed slot.touches = .ok true ∧
        slot.restrict workspace changed = part := by
  induction slots with
  | nil => simp [restrictEach]
  | cons slot rest ih =>
    rw [restrictEach]
    split
    · next reached => simp [ih, reached, eq_comm]
    · next unreached => simp [ih, unreached]

theorem restrictEach_names (slots : List Slot) :
    ((restrictEach workspace changed slots).map Slot.name).Sublist (slots.map Slot.name) := by
  induction slots with
  | nil => exact .slnil
  | cons slot rest ih =>
    rw [restrictEach]
    split
    · simpa using ih
    · exact ih.cons _

theorem Separate.restrict {slot : Slot} (separate : Separate slot) :
    Separate (slot.restrict workspace changed) := by
  induction separate with
  | file name source =>
    rw [Slot.restrict]
    exact .file name source
  | failed kind name touches fault =>
    rw [Slot.restrict]
    exact .failed kind name touches fault
  | @container kind name touches slots distinct _ ih =>
    rw [Slot.restrict]
    refine .container ((restrictEach_names slots).nodup distinct) fun part present => ?_
    obtain ⟨slot, held, _, rfl⟩ := mem_restrictEach.mp present
    exact ih slot held

theorem separate_restrictEach {slots : List Slot} (distinct : (slots.map Slot.name).Nodup)
    (separate : ∀ slot ∈ slots, Separate slot) :
    ((restrictEach workspace changed slots).map Slot.name).Nodup ∧
      ∀ part ∈ restrictEach workspace changed slots, Separate part := by
  refine ⟨(restrictEach_names slots).nodup distinct, fun part present => ?_⟩
  obtain ⟨slot, held, _, rfl⟩ := mem_restrictEach.mp present
  exact (separate slot held).restrict

/-- A container of a restriction is one of the whole. -/
theorem container_of_restrict {slot : Slot} {kind : ContainerKind} {name : Name}
    {touches : List Touch} {inner : List Slot}
    (same : slot.restrict workspace changed = .container kind name touches (.ok inner)) :
    ∃ slots, slot = .container kind name touches (.ok slots) ∧
      restrictEach workspace changed slots = inner := by
  cases slot with
  | file name source =>
    rw [restrict] at same
    cases same
  | container kind name touches contents =>
    cases contents with
    | error fault =>
      rw [restrict] at same
      cases same
    | ok slots =>
      rw [restrict] at same
      cases same
      exact ⟨slots, rfl, rfl⟩

section Positions

variable {slots : List Slot} (distinct : (slots.map Slot.name).Nodup)

include distinct

theorem reachedThrough_top {slot : Slot} (present : slot ∈ slots) :
    ReachedThrough workspace changed slots [slot.name] ↔
      workspace.reaches changed slot.touches = .ok true := by
  constructor
  · exact fun through => through [slot.name] [] slot (List.append_nil _).symm (.top present)
  · intro reached outer inner other split place
    generalize same : outer = names at place
    cases place with
    | top held =>
      rw [same] at split
      obtain rfl := List.inj_on_of_nodup_map distinct present held (List.cons.inj split).1
      exact reached
    | inside _ deeper =>
      rw [same] at split
      obtain ⟨_, nil⟩ := List.cons.inj split
      exact absurd (List.append_eq_nil_iff.mp nil.symm).1 deeper.ne_nil

theorem reachedThrough_inside {kind : ContainerKind} {name : Name} {touches : List Touch}
    {inner : List Slot} (present : .container kind name touches (.ok inner) ∈ slots)
    {names : List Name} :
    ReachedThrough workspace changed slots (name :: names) ↔
      workspace.reaches changed touches = .ok true ∧ ReachedThrough workspace changed
        inner names := by
  constructor
  · intro through
    refine ⟨through [name] names _ rfl (.top present), fun outer rest slot split place => ?_⟩
    exact through (name :: outer) rest slot (by rw [split, List.cons_append])
      (.inside present place)
  · rintro ⟨reached, through⟩ outer rest other split place
    generalize same : outer = steps at place
    cases place with
    | top held =>
      rw [same] at split
      obtain rfl := List.inj_on_of_nodup_map distinct present held (List.cons.inj split).1
      exact reached
    | inside held deeper =>
      rw [same] at split
      obtain ⟨rfl, later⟩ := List.cons.inj split
      cases List.inj_on_of_nodup_map distinct present held rfl
      exact through _ rest other later deeper

end Positions

/-- The positions of a restriction are those at which the change reaches the slot and all slots
around it. -/
theorem at_restrictEach {names : List Name} : ∀ {slots : List Slot} {part : Slot},
    (slots.map Slot.name).Nodup → (∀ slot ∈ slots, Separate slot) →
    (At (restrictEach workspace changed slots) names part ↔
      ∃ slot, At slots names slot ∧ ReachedThrough workspace changed slots names ∧
        slot.restrict workspace changed = part) := by
  induction names with
  | nil =>
    intro slots part _ _
    exact iff_of_false (fun place => place.ne_nil rfl) fun ⟨_, place, _⟩ => place.ne_nil rfl
  | cons name rest ih =>
    intro slots part distinct separate
    constructor
    · intro place
      generalize same : name :: rest = names at place
      cases place with
      | top present =>
        obtain ⟨slot, held, reached, rfl⟩ := mem_restrictEach.mp present
        rw [name_restrict] at same ⊢
        exact ⟨slot, .top held, (reachedThrough_top distinct held).mpr reached, rfl⟩
      | inside present deeper =>
        obtain ⟨rfl, rfl⟩ := List.cons.inj same
        obtain ⟨outer, held, reached, restricted⟩ := mem_restrictEach.mp present
        obtain ⟨inner, rfl, rfl⟩ := container_of_restrict restricted
        obtain ⟨innerDistinct, innerSeparate⟩ := (separate _ held).inside
        obtain ⟨slot, place, through, rfl⟩ := (ih innerDistinct innerSeparate).mp deeper
        have both := (reachedThrough_inside distinct held).mpr ⟨reached, through⟩
        exact ⟨slot, .inside held place, both, rfl⟩
    · rintro ⟨slot, place, through, rfl⟩
      generalize same : name :: rest = names at place
      cases place with
      | top held =>
        rw [same, reachedThrough_top distinct held] at through
        have named := @name_restrict workspace changed slot
        rw [← named]
        exact .top (mem_restrictEach.mpr ⟨slot, held, through, rfl⟩)
      | @inside _ inner kind name touches _ _ held deeper =>
        obtain ⟨rfl, rfl⟩ := List.cons.inj same
        obtain ⟨reached, through⟩ := (reachedThrough_inside distinct held).mp through
        obtain ⟨innerDistinct, innerSeparate⟩ := (separate _ held).inside
        have outer := mem_restrictEach.mpr ⟨_, held, reached, rfl⟩
        rw [restrict] at outer
        exact .inside outer ((ih innerDistinct innerSeparate).mpr ⟨slot, deeper, through, rfl⟩)

end Slot

namespace Assembler

open Slot (At Separate ReachedThrough restrict restrictEach)

variable {assembler : Assembler} {path : Path} {changed : Source}

theorem entries_anew {slots : List Slot}
    (each : ∀ slot ∈ slots, ∀ path result effort,
      assembler.entry (.changed changed) path none slot = .ok (result, effort) →
      assembler.complete? (slot.restrict assembler.workspace changed) = some result) :
    ∀ {results : List Entry} {effort : Effort},
      assembler.entries (.changed changed) path none slots = .ok (results, effort) →
      assembler.completeEach? (restrictEach assembler.workspace changed slots) = some results := by
  induction slots with
  | nil =>
    intro results effort built
    cases built
    rw [restrictEach, completeEach?]
  | cons slot rest ih =>
    intro results effort built
    obtain ⟨first, work, others, more, here, there, rfl, rfl⟩ := entries_cons_eq_ok.mp built
    have later := ih (fun slot present => each slot (List.mem_cons_of_mem _ present)) there
    rw [restrictEach]
    cases here with
    | built reached made =>
      have reaches : assembler.workspace.reaches changed slot.touches = .ok true := reached
      have whole := each slot List.mem_cons_self _ _ _ made
      simp [reaches, completeEach?, whole, later]
    | kept _ found => cases found
    | supplied _ held _ _ => cases held
    | skipped unreached _ =>
      have misses : assembler.workspace.reaches changed slot.touches = .ok false := unreached
      simpa [misses] using later

/-- What was not built before is built for a change as everything would be if nothing else were
there, by induction on the slot. -/
theorem entry_anew (slot : Slot) : ∀ {path : Path} {result : Entry} {effort : Effort},
    assembler.entry (.changed changed) path none slot = .ok (result, effort) →
    assembler.complete? (slot.restrict assembler.workspace changed) = some result := by
  induction slot using Slot.induct with
  | file name source =>
    intro path result effort made
    rcases file_eq_ok.mp made with ⟨current, _⟩ | ⟨_, _, content, read, rfl⟩
    · cases (current?_eq_some current).1
    · rw [restrict]
      exact complete?_source.mpr ⟨content, read, rfl⟩
  | failed kind name touches fault =>
    intro path result effort made
    exact absurd made not_container_error
  | container kind name touches slots ih =>
    intro path result effort made
    obtain ⟨members, work, wrapping, built, wrapped, _⟩ := container_eq_ok.mp made
    have unbuilt : inside? kind (remembered (.changed changed) none) = none := by cases kind <;> rfl
    rw [unbuilt] at built
    have inner := entries_anew (fun slot present _ _ _ => ih slot present) built
    rw [restrict, complete?, inner, Option.bind_some]
    cases kind with
    | directory =>
      cases wrapped
      rfl
    | archive => exact archive_anew.mp ⟨wrapping, wrapped⟩

theorem container_of_complete {slot : Slot} {outer entry : Entry} {names : List Name}
    (complete : assembler.complete? slot = some outer)
    (found : Hierarchy.find? outer.children ⟨names⟩ = some entry) :
    ∃ kind touches inner, slot = .container kind slot.name touches (.ok inner) ∧
      assembler.completeEach? inner = some outer.children := by
  cases slot with
  | file name source =>
    obtain ⟨content, _, rfl⟩ := complete?_source.mp complete
    rw [show (Entry.ofFile _ _ _ _).children = [] from rfl, Entry.find?_empty] at found
    cases found
  | container kind name touches contents =>
    cases contents with
    | error fault => cases complete
    | ok inner =>
      obtain ⟨members, built, enclosed⟩ := complete?_container.mp complete
      rw [children_of_inside? (inside?_enclose? enclosed)]
      exact ⟨kind, touches, inner, rfl, (completeEach?_eq_some _).mpr built⟩

/-- A build of everything has an entry at each position of a slot, the one that the slot gets, and
at no other. -/
theorem find?_completeEach? {names : List Name} {entry : Entry} :
    ∀ {slots : List Slot} {entries : List Entry}, (slots.map Slot.name).Nodup →
      (∀ slot ∈ slots, Separate slot) → assembler.completeEach? slots = some entries →
      (Hierarchy.find? entries ⟨names⟩ = some entry ↔
        ∃ slot, At slots names slot ∧ assembler.complete? slot = some entry) := by
  induction names with
  | nil =>
    intro slots entries _ _ _
    exact iff_of_false (fun found => by cases found) fun ⟨_, place, _⟩ => place.ne_nil rfl
  | cons name rest ih =>
    intro slots entries distinct separate complete
    have each := (completeEach?_eq_some _).mp complete
    have named {slot : Slot} (present : slot ∈ slots) :=
      named?_of_forall₂ each (fun _ _ built => name_complete? built) distinct present
    rw [Entry.find?_eq_some_cons]
    constructor
    · rintro ⟨outer, there, within⟩
      obtain ⟨held, rfl⟩ := named?_mem there
      obtain ⟨slot, present, built⟩ := exists_of_mem_right each held
      rw [name_complete? built]
      rcases within with ⟨rfl, rfl⟩ | within
      · exact ⟨slot, .top present, built⟩
      · obtain ⟨kind, touches, inner, same, innerBuilt⟩ := container_of_complete built within
        have container : .container kind slot.name touches (.ok inner) ∈ slots := same ▸ present
        obtain ⟨innerDistinct, innerSeparate⟩ := (separate _ container).inside
        obtain ⟨deeper, place, whole⟩ := (ih innerDistinct innerSeparate innerBuilt).mp within
        exact ⟨deeper, .inside container place, whole⟩
    · rintro ⟨slot, place, whole⟩
      generalize same : name :: rest = names at place
      cases place with
      | top present =>
        obtain ⟨rfl, rfl⟩ := List.cons.inj same
        obtain ⟨outer, _, found, built⟩ := named present
        exact ⟨outer, found, .inl ⟨rfl, Option.some.inj (whole.symm.trans built)⟩⟩
      | inside present deeper =>
        obtain ⟨rfl, rfl⟩ := List.cons.inj same
        obtain ⟨outer, _, found, built⟩ := named present
        obtain ⟨members, inner, enclosed⟩ := complete?_container.mp built
        obtain ⟨innerDistinct, innerSeparate⟩ := (separate _ present).inside
        have under := (ih innerDistinct innerSeparate ((completeEach?_eq_some _).mpr inner)).mpr
          ⟨slot, deeper, whole⟩
        rw [← children_of_inside? (inside?_enclose? enclosed)] at under
        exact ⟨outer, found, .inr under⟩

/-- Entries are what is left of those of a build of everything in the slots that a change reaches:
the same files, and containers of the same kind and name made of what is left in them. -/
inductive Remains (assembler : Assembler) (changed : Source) :
    List Slot → List Entry → List Entry → Prop where
  | nil : Remains assembler changed [] [] []
  | unreached {slot : Slot} {rest : List Slot} {full : Entry} {fulls parts : List Entry}
    (unreached : assembler.workspace.reaches changed slot.touches ≠ .ok true)
    (others : Remains assembler changed rest fulls parts) :
    Remains assembler changed (slot :: rest) (full :: fulls) parts
  | file {name : Name} {source : Source} {rest : List Slot} {full : Entry}
    {fulls parts : List Entry}
    (reached : assembler.workspace.reaches changed [.file source] = .ok true)
    (others : Remains assembler changed rest fulls parts) :
    Remains assembler changed (.file name source :: rest) (full :: fulls) (full :: parts)
  | container {kind : ContainerKind} {name : Name} {touches : List Touch} {slots rest : List Slot}
    {whole remainder : List Entry} {full part : Entry} {fulls parts : List Entry}
    (reached : assembler.workspace.reaches changed touches = .ok true)
    (inner : Remains assembler changed slots whole remainder)
    (enclosed : assembler.enclose? kind name whole = some full)
    (remade : assembler.enclose? kind name remainder = some part)
    (others : Remains assembler changed rest fulls parts) :
    Remains assembler changed (.container kind name touches (.ok slots) :: rest) (full :: fulls)
      (part :: parts)

theorem remains_list {slots : List Slot}
    (each : ∀ slot ∈ slots, assembler.workspace.reaches changed slot.touches = .ok true →
      ∀ full part, assembler.complete? slot = some full →
      assembler.complete? (slot.restrict assembler.workspace changed) = some part →
      ∀ rest fulls parts, Remains assembler changed rest fulls parts →
        Remains assembler changed (slot :: rest) (full :: fulls) (part :: parts)) :
    ∀ {fulls parts : List Entry}, assembler.completeEach? slots = some fulls →
      assembler.completeEach? (restrictEach assembler.workspace changed slots) = some parts →
      Remains assembler changed slots fulls parts := by
  induction slots with
  | nil =>
    intro fulls parts complete restricted
    cases complete
    rw [restrictEach, completeEach?] at restricted
    cases restricted
    exact .nil
  | cons slot rest ih =>
    intro fulls parts complete restricted
    simp only [completeEach?, Option.bind_eq_some_iff, Option.map_eq_some_iff] at complete
    obtain ⟨full, here, others, later, rfl⟩ := complete
    have remains := @ih fun slot present => each slot (List.mem_cons_of_mem _ present)
    rw [restrictEach] at restricted
    split at restricted
    · next reached =>
      simp only [completeEach?, Option.bind_eq_some_iff, Option.map_eq_some_iff] at restricted
      obtain ⟨part, made, left, leftLater, rfl⟩ := restricted
      exact each slot List.mem_cons_self reached full part here made _ _ _ (remains later leftLater)
    · next unreached => exact .unreached unreached (remains later restricted)

theorem remains_cons (slot : Slot) :
    assembler.workspace.reaches changed slot.touches = .ok true →
    ∀ full part, assembler.complete? slot = some full →
    assembler.complete? (slot.restrict assembler.workspace changed) = some part →
    ∀ rest fulls parts, Remains assembler changed rest fulls parts →
      Remains assembler changed (slot :: rest) (full :: fulls) (part :: parts) := by
  induction slot using Slot.induct with
  | file name source =>
    intro reached full part complete restricted rest fulls parts others
    rw [restrict] at restricted
    obtain rfl := Option.some.inj (complete.symm.trans restricted)
    exact .file reached others
  | failed kind name touches fault =>
    intro _ full part complete
    cases complete
  | container kind name touches slots ih =>
    intro reached full part complete restricted rest fulls parts others
    rw [restrict] at restricted
    rw [complete?, Option.bind_eq_some_iff] at complete restricted
    obtain ⟨whole, complete, enclosed⟩ := complete
    obtain ⟨remainder, restricted, remade⟩ := restricted
    exact .container reached (remains_list ih complete restricted) enclosed remade others

/-- The first build of an output for a change builds everything in the slots that the change
reaches. Its entries are those of these slots, and they are what is left of a build of everything.
-/
theorem output_anew {plan : Plan} {slots : List Slot} {results : List Entry} {effort : Effort}
    (resolved : assembler.resolver.slots plan = .ok slots)
    (built : assembler.output (.changed changed) plan none = .ok (results, effort)) :
    assembler.completeEach? (restrictEach assembler.workspace changed slots) = some results ∧
    (∀ names entry, Hierarchy.find? results ⟨names⟩ = some entry ↔
      ∃ slot, At slots names slot ∧ ReachedThrough assembler.workspace changed slots names ∧
        assembler.complete? (slot.restrict assembler.workspace changed) = some entry) ∧
      ∀ full, assembler.full? plan = some full → Remains assembler changed slots full results := by
  obtain ⟨slots', resolved', walked⟩ := output_eq_ok.mp built
  obtain rfl := Except.ok.inj (resolved.symm.trans resolved')
  obtain ⟨distinct, separate⟩ := Resolver.slots_separate resolved
  have restricted := entries_anew (fun slot _ _ _ _ => entry_anew slot) walked
  obtain ⟨partDistinct, partSeparate⟩ := Slot.separate_restrictEach distinct separate
  refine ⟨restricted, fun names entry => ?_, fun full complete => ?_⟩
  · rw [find?_completeEach? partDistinct partSeparate restricted]
    simp only [Slot.at_restrictEach distinct separate]
    constructor
    · rintro ⟨part, ⟨slot, place, through, rfl⟩, whole⟩
      exact ⟨slot, place, through, whole⟩
    · rintro ⟨slot, place, through, whole⟩
      exact ⟨_, ⟨slot, place, through, rfl⟩, whole⟩
  · rw [full?, resolved] at complete
    exact remains_list (fun slot _ => remains_cons slot) complete restricted

end Assembler

end Depot
