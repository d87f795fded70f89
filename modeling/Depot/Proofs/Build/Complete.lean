import Depot.Build.Update
import Depot.Proofs.Build.Sealed
import Depot.Proofs.Build.Slots
import Depot.Proofs.Outcome
import Mathlib.Data.List.Forall2

set_option autoImplicit false

namespace Depot.Assembler

variable (assembler : Assembler)

/-- The entry that groups others as a slot asks for, unless its archive cannot be written. -/
def enclose? (kind : ContainerKind) (name : Name) (entries : List Entry) : Option Entry :=
  match kind with
  | .directory => some (.ofDirectory assembler.hash name entries)
  | .archive =>
    match Archive.encodeWith assembler.codec assembler.compression (Entry.toMembers entries) with
    | .ok bytes => some (.ofArchive assembler.hash name entries bytes)
    | .error _ => none

mutual

/-- The entry that a slot gets in a build of everything, unless it cannot be built. -/
def complete? : Slot → Option Entry
  | .file name source =>
    match assembler.workspace.read source with
    | .ok content => some (.ofFile assembler.hash name content (assembler.workspace.stamp source))
    | .error _ => none
  | .container _ _ _ (.error _) => none
  | .container kind name _ (.ok slots) => (completeEach? slots).bind (assembler.enclose? kind name)

/-- The entries that some slots get in a build of everything. -/
def completeEach? : List Slot → Option (List Entry)
  | [] => some []
  | slot :: rest => (complete? slot).bind fun entry => (completeEach? rest).map (entry :: ·)

end

theorem completeEach?_eq_some {slots : List Slot} {entries : List Entry} :
    assembler.completeEach? slots = some entries ↔
      List.Forall₂ (fun slot entry => assembler.complete? slot = some entry) slots entries := by
  induction slots generalizing entries with
  | nil => simp [completeEach?, eq_comm]
  | cons slot rest ih =>
    simp only [completeEach?, Option.bind_eq_some_iff, Option.map_eq_some_iff,
      List.forall₂_cons_left_iff, ih]
    constructor
    · rintro ⟨entry, first, others, later, rfl⟩
      exact ⟨entry, others, first, later, rfl⟩
    · rintro ⟨entry, others, first, later, rfl⟩
      exact ⟨entry, first, others, later, rfl⟩

/-- Each of some slots can be built in a build of everything. -/
def Buildable (slots : List Slot) : Prop :=
  ∀ slot ∈ slots, ∃ full, assembler.complete? slot = some full

/-- What one slot adds to the entries of its container. -/
def contribution (scope : Scope) (path : Path) (previous : Option (List Entry)) (slot : Slot) :
    Except BuildFault (List Entry × Effort) := do
  let before? := previous.bind fun entries => Entry.named? entries slot.name
  if ← assembler.reached scope slot.touches then
    let (first, effort) ← assembler.entry scope path before? slot
    return ([first], effort)
  else
    match before?, previous with
    | some before, _ => return ([before], .none)
    | none, some _ =>
      let (first, effort) ← assembler.entry .everything path none slot
      return ([first], effort)
    | none, none => return ([], .none)

theorem entries_cons (scope : Scope) (path : Path) (previous : Option (List Entry)) (slot : Slot)
    (rest : List Slot) :
    assembler.entries scope path previous (slot :: rest) = do
      let (first, effort) ← assembler.contribution scope path previous slot
      let (others, more) ← assembler.entries scope path previous rest
      return (first ++ others, effort + more) := by
  simp only [entries, contribution]
  generalize (previous.bind fun entries => Entry.named? entries slot.name) = before?
  cases assembler.reached scope slot.touches with
  | error fault => rfl
  | ok reached =>
    cases reached with
    | true =>
      simp only [bind, Except.bind, if_true]
      cases assembler.entry scope path before? slot <;> rfl
    | false =>
      simp only [bind, Except.bind, Bool.false_eq_true, if_false]
      cases before? with
      | some before => rfl
      | none =>
        cases previous with
        | none => rfl
        | some entries =>
          simp only
          cases assembler.entry .everything path none slot <;> rfl

variable {assembler}

theorem complete?_container {kind : ContainerKind} {name : Name} {touches : List Touch}
    {slots : List Slot} {full : Entry} :
    assembler.complete? (.container kind name touches (.ok slots)) = some full ↔
      ∃ entries, List.Forall₂ (fun slot entry => assembler.complete? slot = some entry)
        slots entries ∧
        assembler.enclose? kind name entries = some full := by
  simp only [complete?, Option.bind_eq_some_iff, completeEach?_eq_some]

theorem buildable_of_complete {kind : ContainerKind} {name : Name} {touches : List Touch}
    {slots : List Slot} {full : Entry}
    (complete : assembler.complete? (.container kind name touches (.ok slots)) = some full) :
    assembler.Buildable slots := by
  obtain ⟨entries, each, _⟩ := complete?_container.mp complete
  intro slot present
  obtain ⟨entry, _, built⟩ := exists_of_mem_left each present
  exact ⟨entry, built⟩

theorem name_enclose? {kind : ContainerKind} {name : Name} {entries : List Entry} {full : Entry}
    (enclosed : assembler.enclose? kind name entries = some full) : full.name = name := by
  unfold enclose? at enclosed
  split at enclosed
  · cases enclosed
    rfl
  · split at enclosed
    · cases enclosed
      rfl
    · cases enclosed

theorem name_complete? {slot : Slot} {full : Entry}
    (complete : assembler.complete? slot = some full) : full.name = slot.name := by
  cases slot with
  | file name source =>
    simp only [complete?] at complete
    split at complete
    · cases complete
      rfl
    · cases complete
  | container kind name touches contents =>
    cases contents with
    | error fault => cases complete
    | ok slots =>
      obtain ⟨entries, _, enclosed⟩ := complete?_container.mp complete
      exact name_enclose? enclosed

theorem resolved_of_complete {slot : Slot} :
    ∀ {full : Entry}, assembler.complete? slot = some full → slot.Resolved := by
  induction slot using Slot.induct with
  | file name source => exact fun _ => .file name source
  | failed kind name touches fault => exact fun complete => by cases complete
  | container kind name touches slots ih =>
    intro full complete
    refine .container fun slot present => ?_
    obtain ⟨entry, built⟩ := buildable_of_complete complete slot present
    exact ih slot present built

theorem Buildable.resolved {slots : List Slot} (buildable : assembler.Buildable slots) :
    ∀ slot ∈ slots, slot.Resolved := by
  intro slot present
  obtain ⟨full, complete⟩ := buildable slot present
  exact resolved_of_complete complete

theorem file_everything {path : Path} {name : Name} {source : Source} {before? : Option Entry}
    {full : Entry} :
    (∃ effort, assembler.entry .everything path before? (.file name source) = .ok (full, effort)) ↔
      assembler.complete? (.file name source) = some full := by
  simp only [entry, file, current?, complete?]
  cases assembler.workspace.read source with
  | ok content => simp
  | error fault => simp

theorem archive_anew {path : Path} {name : Name} {members : List Entry} {full : Entry} :
    (∃ effort, assembler.archive path name none members = .ok (full, effort)) ↔
      assembler.enclose? .archive name members = some full := by
  simp only [archive, enclose?, Option.bind_none]
  cases Archive.encodeWith assembler.codec assembler.compression (Entry.toMembers members) with
  | ok bytes => simp
  | error fault => simp

theorem contribution_everything {path : Path} {previous : Option (List Entry)} {slot : Slot} :
    assembler.contribution .everything path previous slot =
      (assembler.entry .everything path
        (previous.bind fun entries => Entry.named? entries slot.name) slot).map
        fun (first, effort) => ([first], effort) := by
  simp only [contribution, reached, bind, Except.bind, if_true]
  cases assembler.entry .everything path
    (previous.bind fun entries => Entry.named? entries slot.name) slot <;> rfl

/-- The entries of some slots, given that each of them is built as `complete?` says. -/
theorem entries_everything {slots : List Slot} {path : Path} {previous : Option (List Entry)}
    (each : ∀ slot ∈ slots, ∀ before? full,
      (∃ effort, assembler.entry .everything path before? slot = .ok (full, effort)) ↔
        assembler.complete? slot = some full) {fulls : List Entry} :
    (∃ effort, assembler.entries .everything path previous slots = .ok (fulls, effort)) ↔
      List.Forall₂ (fun slot entry => assembler.complete? slot = some entry) slots fulls := by
  induction slots generalizing fulls with
  | nil => simp [entries, eq_comm]
  | cons slot rest ih =>
    have first := each slot List.mem_cons_self
      (previous.bind fun entries => Entry.named? entries slot.name)
    have later := @ih fun slot present => each slot (List.mem_cons_of_mem _ present)
    rw [List.forall₂_cons_left_iff]
    simp only [← first, ← later, entries_cons, contribution_everything, bind_ok_iff, map_ok_iff]
    constructor
    · rintro ⟨effort, _, ⟨⟨entry, work⟩, built, rfl⟩, ⟨others, more⟩, builtLater, result⟩
      cases result
      exact ⟨entry, others, ⟨work, built⟩, ⟨more, builtLater⟩, rfl⟩
    · rintro ⟨entry, others, ⟨work, built⟩, ⟨more, builtLater⟩, rfl⟩
      exact ⟨work + more, _, ⟨_, built, rfl⟩, _, builtLater, rfl⟩

/-- A build of everything gives a slot the entry that `complete?` tells, whatever was there before.
-/
theorem entry_everything (slot : Slot) : ∀ {path : Path} {before? : Option Entry} {full : Entry},
    (∃ effort, assembler.entry .everything path before? slot = .ok (full, effort)) ↔
      assembler.complete? slot = some full := by
  induction slot using Slot.induct with
  | file name source => exact file_everything
  | failed kind name touches fault =>
    intro path before? full
    cases kind <;> simp [entry, container, complete?, bind, Except.bind]
  | container kind name touches slots ih =>
    intro path before? full
    have each := @entries_everything assembler slots (path.push name) none fun slot present _ _ =>
      ih slot present
    have anew := @archive_anew assembler (path.push name) name
    rw [complete?_container]
    cases kind with
    | directory =>
      simp only [entry, remembered, directoryBefore, container, bind_ok_iff, ← each, enclose?]
      constructor
      · rintro ⟨effort, ⟨children, work⟩, built, result⟩
        cases result
        exact ⟨children, ⟨_, built⟩, rfl⟩
      · rintro ⟨children, ⟨work, built⟩, enclosed⟩
        cases enclosed
        exact ⟨_, _, built, rfl⟩
    | archive =>
      simp only [entry, remembered, archiveBefore, container, bind_ok_iff, Option.map_none,
        ← each, ← anew]
      constructor
      · rintro ⟨effort, ⟨members, work⟩, built, ⟨archived, encoding⟩, wrapped, result⟩
        cases result
        exact ⟨members, ⟨_, built⟩, _, wrapped⟩
      · rintro ⟨members, ⟨work, built⟩, encoding, wrapped⟩
        exact ⟨_, _, built, _, wrapped, rfl⟩

/-- The same for the entries of a container. -/
theorem container_everything {slots : List Slot} {path : Path} {previous : Option (List Entry)}
    {fulls : List Entry} :
    (∃ effort, assembler.container .everything path previous (.ok slots) = .ok (fulls, effort)) ↔
      assembler.completeEach? slots = some fulls := by
  rw [completeEach?_eq_some, ← entries_everything fun slot _ _ _ => entry_everything slot]
  rfl

end Depot.Assembler
