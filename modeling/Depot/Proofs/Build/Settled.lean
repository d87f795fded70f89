import Depot.Proofs.Build.Complete

set_option autoImplicit false

/-
Updates after changes. Between two updates an output may be wrong, but only where changes are still
waiting to be taken in; each update settles what its change reaches.
-/

namespace Depot.Assembler

open Slot (Reached Covered Layered)
open Entry (Sealed Encoded)

def inside? (kind : ContainerKind) (before? : Option Entry) : Option (List Entry) :=
  match kind with
  | .directory => directoryBefore before?
  | .archive => (archiveBefore before?).map Prod.fst

/-- An entry is settled up to some changes if it is what a build of everything gives, or if one of
the changes covers its slot, or if one of them reaches its slot, which is a container, and all slots
inside are settled. -/
inductive Settled (assembler : Assembler) (pending : List Source) : Slot → Option Entry → Prop where
  | whole {slot : Slot} {full : Entry} (complete : assembler.complete? slot = some full) :
    Settled assembler pending slot (some full)
  | covered {slot : Slot} {before? : Option Entry} {source : Source} (waiting : source ∈ pending)
    (covered : Covered assembler.workspace source slot) : Settled assembler pending slot before?
  | container {kind : ContainerKind} {name : Name} {touches : List Touch} {slots : List Slot}
    {before? : Option Entry} {members : List Entry} {source : Source} (waiting : source ∈ pending)
    (reached : Reached assembler.workspace source (.container kind name touches (.ok slots)))
    (held : inside? kind before? = some members)
    (each : ∀ slot ∈ slots, Settled assembler pending slot (Entry.named? members slot.name)) :
    Settled assembler pending (.container kind name touches (.ok slots)) before?

variable {assembler : Assembler} {changed : Source} {pending : List Source}

theorem named?_mem {entries : List Entry} {name : Name} {entry : Entry}
    (found : Entry.named? entries name = some entry) : entry ∈ entries ∧ entry.name = name := by
  have named := List.find?_some found
  exact ⟨List.mem_of_find?_eq_some found, by simpa using named⟩

theorem named?_of_forall₂ {relates : Slot → Entry → Prop} {slots : List Slot} {entries : List Entry}
    (each : List.Forall₂ relates slots entries)
    (named : ∀ slot entry, relates slot entry → entry.name = slot.name)
    (distinct : (slots.map Slot.name).Nodup) {slot : Slot} (present : slot ∈ slots) :
    ∃ entry ∈ entries, Entry.named? entries slot.name = some entry ∧ relates slot entry := by
  induction each with
  | nil => cases present
  | @cons first entry rest others related _ ih =>
    obtain ⟨fresh, distinct⟩ := List.nodup_cons.mp distinct
    have name := named first entry related
    rcases List.mem_cons.mp present with rfl | later
    · exact ⟨entry, List.mem_cons_self, by simp [Entry.named?, name], related⟩
    · have unequal : ¬ first.name = slot.name := fun same =>
        fresh (same ▸ List.mem_map_of_mem later)
      obtain ⟨other, held, found, related⟩ := ih distinct later
      refine ⟨other, List.mem_cons_of_mem _ held, ?_, related⟩
      rw [Entry.named?, List.find?_cons_of_neg (by simp [name, unequal])]
      exact found

theorem inside?_enclose? {kind : ContainerKind} {name : Name} {entries : List Entry} {full : Entry}
    (enclosed : assembler.enclose? kind name entries = some full) :
    inside? kind (some full) = some entries := by
  unfold enclose? at enclosed
  cases kind with
  | directory =>
    cases enclosed
    rfl
  | archive =>
    simp only at enclosed
    split at enclosed
    · cases enclosed
      rfl
    · cases enclosed

/-- A change that does not reach a slot need not wait for it. -/
theorem Settled.of_unreached {slot : Slot} {before? : Option Entry}
    (settled : Settled assembler (changed :: pending) slot before?)
    (layered : Layered assembler.workspace slot)
    (unreached : ¬ Reached assembler.workspace changed slot) :
    Settled assembler pending slot before? := by
  induction settled with
  | whole complete => exact .whole complete
  | covered waiting covered =>
    rcases List.mem_cons.mp waiting with rfl | waiting
    · exact absurd covered.reached unreached
    · exact .covered waiting covered
  | container waiting reached held _ ih =>
    rcases List.mem_cons.mp waiting with rfl | waiting
    · exact absurd reached unreached
    · cases layered with
      | container known distinct upward inner =>
        refine .container waiting reached held fun slot present => ?_
        exact ih slot present (inner slot present) fun within =>
          unreached (upward changed slot present within)

/-- What no waiting change reaches is as in a build of everything. -/
theorem Settled.eq_complete {slot : Slot} {before? : Option Entry}
    (settled : Settled assembler pending slot before?)
    (unreached : ∀ source ∈ pending, ¬ Reached assembler.workspace source slot) :
    before? = assembler.complete? slot := by
  cases settled with
  | whole complete => exact complete.symm
  | covered waiting covered => exact absurd covered.reached (unreached _ waiting)
  | container waiting reached _ _ => exact absurd reached (unreached _ waiting)

/-- A container that is settled, and that no waiting change covers, was there before with settled
entries. -/
theorem Settled.inside {kind : ContainerKind} {name : Name} {touches : List Touch}
    {slots : List Slot} {before? : Option Entry}
    (settled : Settled assembler pending (.container kind name touches (.ok slots)) before?)
    (distinct : (slots.map Slot.name).Nodup)
    (uncovered : ∀ source ∈ pending,
      ¬ Covered assembler.workspace source (.container kind name touches (.ok slots))) :
    ∃ members, inside? kind before? = some members ∧
      ∀ slot ∈ slots, Settled assembler pending slot (Entry.named? members slot.name) := by
  cases settled with
  | whole complete =>
    obtain ⟨entries, each, enclosed⟩ := complete?_container.mp complete
    refine ⟨entries, inside?_enclose? enclosed, fun slot present => ?_⟩
    obtain ⟨entry, _, found, complete⟩ :=
      named?_of_forall₂ each (fun _ _ complete => name_complete? complete) distinct present
    rw [found]
    exact .whole complete
  | covered waiting covered => exact absurd covered (uncovered _ waiting)
  | container _ _ held each => exact ⟨_, held, each⟩

theorem sealed_enclose? {kind : ContainerKind} {name : Name} {members : List Entry} {full : Entry}
    (distinct : (members.map Entry.name).Nodup)
    (closed : ∀ member ∈ members, Sealed assembler.hash member)
    (enclosed : assembler.enclose? kind name members = some full) : Sealed assembler.hash full := by
  unfold enclose? at enclosed
  split at enclosed
  · cases enclosed
    exact .directory distinct closed
  · split at enclosed
    · cases enclosed
      exact .archive distinct closed
    · cases enclosed

theorem encoded_enclose? {kind : ContainerKind} {name : Name} {members : List Entry} {full : Entry}
    (inner : ∀ member ∈ members, Encoded assembler.codec assembler.compression member)
    (enclosed : assembler.enclose? kind name members = some full) :
    Encoded assembler.codec assembler.compression full := by
  unfold enclose? at enclosed
  split at enclosed
  · cases enclosed
    exact .directory inner
  · split at enclosed
    · next bytes written =>
      cases enclosed
      exact .archive written inner
    · cases enclosed

theorem sealed_complete {slot : Slot} (layered : Layered assembler.workspace slot) :
    ∀ {full : Entry}, assembler.complete? slot = some full →
      Sealed assembler.hash full ∧ Encoded assembler.codec assembler.compression full := by
  induction layered with
  | file name source =>
    intro full complete
    simp only [complete?] at complete
    split at complete
    · cases complete
      exact ⟨.file .., .file ..⟩
    · cases complete
  | @container kind name touches slots known distinct upward _ ih =>
    intro full complete
    obtain ⟨entries, each, enclosed⟩ := complete?_container.mp complete
    have names := map_eq_of_forall₂ each fun _ _ built => name_complete? built
    have inner : ∀ entry ∈ entries,
        Sealed assembler.hash entry ∧ Encoded assembler.codec assembler.compression entry := by
      intro entry present
      obtain ⟨slot, held, built⟩ := exists_of_mem_right each present
      exact ih slot held built
    rw [← names] at distinct
    exact ⟨sealed_enclose? distinct (fun entry present => (inner entry present).1) enclosed,
      encoded_enclose? (fun entry present => (inner entry present).2) enclosed⟩

end Depot.Assembler
