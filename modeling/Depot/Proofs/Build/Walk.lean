import Depot.Proofs.Build.Layers
import Depot.Proofs.Build.Settled
import Depot.Proofs.Outline

set_option autoImplicit false

namespace Depot

namespace Slot

/-- At every depth, the slots of a container have distinct names. -/
inductive Separate : Slot → Prop where
  | file (name : Name) (source : Source) : Separate (.file name source)
  | failed (kind : ContainerKind) (name : Name) (touches : List Touch) (fault : BuildFault) :
    Separate (.container kind name touches (.error fault))
  | container {kind : ContainerKind} {name : Name} {touches : List Touch} {slots : List Slot}
    (distinct : (slots.map Slot.name).Nodup) (inner : ∀ slot ∈ slots, Separate slot) :
    Separate (.container kind name touches (.ok slots))

theorem Separate.inside {kind : ContainerKind} {name : Name} {touches : List Touch}
    {slots : List Slot} (separate : Separate (.container kind name touches (.ok slots))) :
    (slots.map Slot.name).Nodup ∧ ∀ slot ∈ slots, Separate slot := by
  cases separate with
  | container distinct inner => exact ⟨distinct, inner⟩

end Slot

namespace Resolver

open Slot (Separate)

variable {resolver : Resolver}

/-- A property that all slots have: files do, and containers if what is put into them has it. Their
names are those of sources, or allowed in plans. -/
structure Grants (resolver : Resolver) (allowed : Name → Prop) (holds : Slot → Prop) : Prop where
  source : ∀ source name, resolver.workspace.name source = .ok name → allowed name
  file : ∀ name source, allowed name → holds (.file name source)
  container : ∀ kind name touches path contents, allowed name →
    (∀ slots, contents = .ok slots → ∀ slot ∈ slots, holds slot) →
    holds (.container kind name touches (resolver.distinct path contents))

variable {allowed : Name → Prop} {holds : Slot → Prop}

/-- Copies, by induction on the depth. -/
theorem copy_grants (grants : Grants resolver allowed holds) {depth : Nat} :
    ∀ {path : Path} {source : Source} {slots : List Slot},
    resolver.copy depth path source = .ok slots → ∀ slot ∈ slots, holds slot := by
  induction depth with
  | zero =>
    intro path source slots copied slot present
    cases copied
    cases present
  | succ depth ih =>
    intro path source slots copied slot present
    obtain ⟨_, _, each⟩ := copy_eq_ok.mp copied
    obtain ⟨child, _, name, named, rfl⟩ := exists_of_mem_right each present
    have text := grants.source child name named
    unfold childSlot
    split
    · exact grants.container _ _ _ _ _ text fun inner copied => ih copied
    · exact grants.file _ _ text

section Expand

variable {touched : String → List Touch}
  {included : Path → String → Except BuildFault (List Slot)}

mutual

/-- The slots of one tree of a plan, given those of the artifacts in it. -/
theorem expand_grants (grants : Grants resolver allowed holds)
    (granted : ∀ path name slots, included path name = .ok slots → ∀ slot ∈ slots, holds slot) :
    (tree : Outline Ingredient) → (∀ name ∈ tree.names, allowed name) →
    ∀ {path : Path} {slots : List Slot},
    resolver.expand touched included path tree = .ok slots → ∀ slot ∈ slots, holds slot
  | .leaf (.file source), _, path, slots, expanded, slot, present => by
    rw [expand] at expanded
    split at expanded
    · cases expanded
    · next name named =>
      cases expanded
      rw [List.mem_singleton.mp present]
      exact grants.file name source (grants.source source name named)
  | .leaf (.artifact name), _, path, slots, expanded, slot, present => by
    rw [expand] at expanded
    exact granted path name slots expanded slot present
  | .leaf (.copy source), _, path, slots, expanded, slot, present => by
    rw [expand] at expanded
    exact copy_grants grants expanded slot present
  | .container kind name children, names, path, slots, expanded, slot, present => by
    rw [expand] at expanded
    cases expanded
    rw [List.mem_singleton.mp present]
    rw [Outline.names] at names
    have inner : ∀ name ∈ Outline.namesEach children, allowed name :=
      fun name present => names name (List.mem_cons_of_mem _ present)
    exact grants.container _ _ _ _ _ (names name List.mem_cons_self)
      fun slots listed => expandList_grants grants granted children inner listed

theorem expandList_grants (grants : Grants resolver allowed holds)
    (granted : ∀ path name slots, included path name = .ok slots → ∀ slot ∈ slots, holds slot) :
    (plan : List (Outline Ingredient)) →
    (∀ name ∈ Outline.namesEach plan, allowed name) → ∀ {path : Path} {slots : List Slot},
    resolver.expandList touched included path plan = .ok slots → ∀ slot ∈ slots, holds slot
  | [], _, path, slots, expanded, slot, present => by
    rw [expandList] at expanded
    cases expanded
    cases present
  | tree :: rest, names, path, slots, expanded, slot, present => by
    simp only [expandList, bind_ok_iff] at expanded
    obtain ⟨first, here, others, there, result⟩ := expanded
    cases result
    rw [Outline.namesEach] at names
    rcases List.mem_append.mp present with present | present
    · have inner : ∀ name ∈ tree.names, allowed name :=
        fun name held => names name (List.mem_append_left _ held)
      exact expand_grants grants granted tree inner here slot present
    · have later : ∀ name ∈ Outline.namesEach rest, allowed name :=
        fun name held => names name (List.mem_append_right _ held)
      exact expandList_grants grants granted rest later there slot present

end

end Expand

/-- Inclusions, by induction on the chain. -/
theorem place_grants (grants : Grants resolver allowed holds)
    (registered : ∀ chain name plan, resolver.registry.enter chain name = .ok plan →
      ∀ name ∈ Outline.namesEach plan, allowed name) {chain : List String} :
    ∀ {path : Path} {plan : Plan} {slots : List Slot},
    (∀ name ∈ Outline.namesEach plan, allowed name) → resolver.place chain path plan = .ok slots →
      ∀ slot ∈ slots, holds slot := by
  induction chain using resolver.registry.inclusion_induct with
  | step chain ih =>
    intro path plan slots names placed
    rw [place] at placed
    refine expandList_grants grants (fun path name slots included => ?_) plan names placed
    split at included
    · cases included
    · next inner entered =>
      exact ih name inner entered (registered chain name inner entered) included

/-- A container is separate if all that is put into it is. -/
theorem separate_container {contents : Except BuildFault (List Slot)}
    (inner : ∀ slots, contents = .ok slots → ∀ slot ∈ slots, Separate slot) (kind : ContainerKind)
    (name : Name) (touches : List Touch) (path : Path) :
    Separate (.container kind name touches (resolver.distinct path contents)) := by
  cases made : resolver.distinct path contents with
  | error fault => exact .failed ..
  | ok slots =>
    obtain ⟨same, distinct⟩ := distinct_eq_ok.mp made
    exact .container distinct (inner slots same)

theorem grants_separate (resolver : Resolver) : Grants resolver (fun _ => True) Separate where
  source _ _ _ := trivial
  file name source _ := .file name source
  container kind name touches path _ _ inner := separate_container inner kind name touches path

theorem slots_separate {plan : Plan} {slots : List Slot}
    (expanded : resolver.slots plan = .ok slots) :
    (slots.map Slot.name).Nodup ∧ ∀ slot ∈ slots, Separate slot := by
  obtain ⟨placed, distinct⟩ := distinct_eq_ok.mp expanded
  exact ⟨distinct, place_grants (grants_separate resolver) (fun _ _ _ _ _ _ => trivial)
    (fun _ _ => trivial) placed⟩

end Resolver

namespace Assembler

variable {assembler : Assembler} {scope : Scope} {path : Path} {previous : Option (List Entry)}

/-- The entry that was there before under the name of a slot. -/
def former (previous : Option (List Entry)) (slot : Slot) : Option Entry :=
  previous.bind fun entries => Entry.named? entries slot.name

/-- How a slot comes by its entry: it is built since the walk reaches it, or the entry from before
is kept, or a missing one is supplied; in a container that was not built before it is skipped. -/
inductive Contributes (assembler : Assembler) (scope : Scope) (path : Path)
    (previous : Option (List Entry)) (slot : Slot) : List Entry → Effort → Prop where
  | built {entry : Entry} {effort : Effort}
    (reached : assembler.reached scope slot.touches = .ok true)
    (made : assembler.entry scope path (former previous slot) slot = .ok (entry, effort)) :
    Contributes assembler scope path previous slot [entry] effort
  | kept {before : Entry} (unreached : assembler.reached scope slot.touches = .ok false)
    (found : former previous slot = some before) :
    Contributes assembler scope path previous slot [before] .none
  | supplied {members : List Entry} {entry : Entry} {effort : Effort}
    (unreached : assembler.reached scope slot.touches = .ok false)
    (held : previous = some members) (absent : former previous slot = none)
    (made : assembler.entry .everything path none slot = .ok (entry, effort)) :
    Contributes assembler scope path previous slot [entry] effort
  | skipped (unreached : assembler.reached scope slot.touches = .ok false) (new : previous = none) :
    Contributes assembler scope path previous slot [] .none

theorem contribution_eq_ok {slot : Slot} {part : List Entry} {effort : Effort} :
    assembler.contribution scope path previous slot = .ok (part, effort) ↔
      Contributes assembler scope path previous slot part effort := by
  have same : (previous.bind fun entries => Entry.named? entries slot.name) =
      former previous slot := rfl
  simp only [contribution, same, bind_ok_iff]
  constructor
  · rintro ⟨reached, known, rest⟩
    cases reached with
    | true =>
      obtain ⟨⟨entry, work⟩, made, result⟩ := bind_ok_iff.mp rest
      cases result
      exact .built known made
    | false =>
      simp only [Bool.false_eq_true, if_false] at rest
      split at rest
      · next before found =>
        cases rest
        exact .kept known found
      · next members absent =>
        obtain ⟨⟨entry, work⟩, made, result⟩ := bind_ok_iff.mp rest
        cases result
        exact .supplied known rfl absent made
      · cases rest
        exact .skipped known rfl
  · rintro (⟨known, made⟩ | ⟨known, found⟩ | ⟨known, rfl, absent, made⟩ | ⟨known, rfl⟩)
    · exact ⟨true, known, by simp [made, bind, Except.bind, pure, Except.pure]⟩
    · exact ⟨false, known, by simp [found, pure, Except.pure]⟩
    · exact ⟨false, known, by simp [absent, made, bind, Except.bind, pure, Except.pure]⟩
    · exact ⟨false, known, by simp [former, pure, Except.pure]⟩

@[simp]
theorem remembered_changed (source : Source) (before? : Option Entry) :
    remembered (.changed source) before? = before? :=
  rfl

theorem mem_remembered {before? : Option Entry} {before : Entry}
    (held : before ∈ remembered scope before?) : before ∈ before? := by
  cases scope with
  | everything => cases held
  | stale => exact held
  | changed source => exact held

/-- Only a build that goes by stamps takes an entry from before to be current. -/
theorem current?_eq_some {source : Source} {before? : Option Entry} {entry : Entry}
    (current : assembler.current? scope source before? = some entry) :
    before? = some entry ∧ assembler.workspace.isLive source = true ∧
      ∃ name content digest,
        entry = .file name content (assembler.workspace.stamp source) digest := by
  unfold current? at current
  split at current
  · next name content stamp digest =>
    split at current
    · next fresh =>
      cases current
      exact ⟨rfl, fresh.1, name, content, digest, by rw [fresh.2]⟩
    · cases current
  · cases current

theorem file_eq_ok {name : Name} {source : Source} {before? : Option Entry} {result : Entry}
    {effort : Effort} :
    assembler.entry scope path before? (.file name source) = .ok (result, effort) ↔
      (assembler.current? scope source (remembered scope before?) = some result ∧
          effort = ⟨0, 1, 0⟩) ∨
        assembler.current? scope source (remembered scope before?) = none ∧
          effort = ⟨1, 0, 0⟩ ∧ ∃ content, assembler.workspace.read source = .ok content ∧
            result = .ofFile assembler.hash name content (assembler.workspace.stamp source) := by
  simp only [entry, file]
  cases assembler.current? scope source (remembered scope before?) with
  | some before => simp [eq_comm]
  | none =>
    cases assembler.workspace.read source with
    | error fault => simp
    | ok content => simp [and_comm, eq_comm]

/-- Groups the entries of a container, given the entry from before. -/
def wrap (assembler : Assembler) (kind : ContainerKind) (path : Path) (name : Name)
    (before? : Option Entry) (members : List Entry) : Except BuildFault (Entry × Effort) :=
  match kind with
  | .directory => .ok (.ofDirectory assembler.hash name members, .none)
  | .archive => assembler.archive path name (archiveBefore before?) members

theorem archive_eq_ok {name : Name} {previous : Option (List Entry × Bytes)} {members : List Entry}
    {result : Entry} {effort : Effort}
    (made : assembler.archive path name previous members = .ok (result, effort)) :
    ∃ bytes, result = .ofArchive assembler.hash name members bytes := by
  simp only [archive] at made
  split at made
  · cases made
    exact ⟨_, rfl⟩
  · split at made
    · cases made
      exact ⟨_, rfl⟩
    · cases made

theorem wrap_eq_ok {kind : ContainerKind} {name : Name} {before? : Option Entry}
    {members : List Entry} {result : Entry} {effort : Effort}
    (made : assembler.wrap kind path name before? members = .ok (result, effort)) :
    result.name = name ∧ result.children = members ∧ inside? kind (some result) = some members := by
  cases kind with
  | directory =>
    cases made
    exact ⟨rfl, rfl, rfl⟩
  | archive =>
    obtain ⟨bytes, rfl⟩ := archive_eq_ok made
    exact ⟨rfl, rfl, rfl⟩

theorem container_eq_ok {kind : ContainerKind} {name : Name} {touches : List Touch}
    {slots : List Slot} {before? : Option Entry} {result : Entry} {effort : Effort} :
    assembler.entry scope path before? (.container kind name touches (.ok slots)) =
        .ok (result, effort) ↔
      ∃ members work wrapping,
        assembler.entries scope (path.push name) (inside? kind (remembered scope before?)) slots =
          .ok (members, work) ∧
        assembler.wrap kind (path.push name) name (remembered scope before?) members =
          .ok (result, wrapping) ∧ effort = work + wrapping := by
  cases kind with
  | directory =>
    simp only [entry, container, inside?, wrap, bind_ok_iff]
    constructor
    · rintro ⟨⟨members, work⟩, built, result⟩
      cases result
      exact ⟨members, work, .none, built, rfl, rfl⟩
    · rintro ⟨members, work, wrapping, built, wrapped, rfl⟩
      cases wrapped
      exact ⟨_, built, rfl⟩
  | archive =>
    simp only [entry, container, inside?, wrap, bind_ok_iff]
    constructor
    · rintro ⟨⟨members, work⟩, built, ⟨archived, wrapping⟩, wrapped, result⟩
      cases result
      exact ⟨members, work, wrapping, built, wrapped, rfl⟩
    · rintro ⟨members, work, wrapping, built, wrapped, rfl⟩
      exact ⟨_, built, _, wrapped, rfl⟩

theorem not_container_error {kind : ContainerKind} {name : Name} {touches : List Touch}
    {fault : BuildFault} {before? : Option Entry} {result : Entry × Effort} :
    assembler.entry scope path before? (.container kind name touches (.error fault)) ≠
      .ok result := by
  cases kind <;> simp [entry, container, bind, Except.bind]

theorem former_name {slot : Slot} {before : Entry} (found : former previous slot = some before) :
    before.name = slot.name := by
  obtain ⟨members, _, found⟩ := Option.bind_eq_some_iff.mp found
  exact (named?_mem found).2

/-- An entry is called what its slot is called, if the one from before was. -/
theorem name_entry {slot : Slot} {before? : Option Entry} {result : Entry} {effort : Effort}
    (named : ∀ before ∈ before?, before.name = slot.name)
    (made : assembler.entry scope path before? slot = .ok (result, effort)) :
    result.name = slot.name := by
  cases slot with
  | file name source =>
    rcases file_eq_ok.mp made with ⟨current, _⟩ | ⟨_, _, content, _, rfl⟩
    · exact named result (mem_remembered (current?_eq_some current).1)
    · rfl
  | container kind name touches contents =>
    cases contents with
    | error fault => exact absurd made not_container_error
    | ok slots =>
      obtain ⟨members, _, _, _, wrapped, _⟩ := container_eq_ok.mp made
      exact (wrap_eq_ok wrapped).1

theorem Contributes.names {slot : Slot} {part : List Entry} {effort : Effort}
    (contributes : Contributes assembler scope path previous slot part effort) :
    (∀ entry ∈ part, entry.name = slot.name) ∧ (part = [] → previous = none) ∧ part.length ≤ 1 := by
  cases contributes with
  | built _ made =>
    have name := name_entry (fun before found => former_name found) made
    simpa using name
  | kept _ found =>
    have name := former_name found
    simpa using name
  | supplied _ _ _ made =>
    have name := name_entry (by simp) made
    simpa using name
  | skipped _ new => simp [new]

/-- The slots of a container contribute one after the other. -/
theorem entries_cons_eq_ok {slot : Slot} {rest : List Slot} {results : List Entry}
    {effort : Effort} :
    assembler.entries scope path previous (slot :: rest) = .ok (results, effort) ↔
      ∃ first work others more, Contributes assembler scope path previous slot first work ∧
        assembler.entries scope path previous rest = .ok (others, more) ∧
        results = first ++ others ∧ effort = work + more := by
  simp only [entries_cons, bind_ok_iff, ← contribution_eq_ok]
  constructor
  · rintro ⟨⟨first, work⟩, here, ⟨others, more⟩, there, result⟩
    cases result
    exact ⟨first, work, others, more, here, there, rfl, rfl⟩
  · rintro ⟨first, work, others, more, here, there, rfl, rfl⟩
    exact ⟨_, here, _, there, rfl⟩

/-- The names of the entries are those of the slots in their order, some of which may be skipped in
a container that was not built before. -/
theorem entries_names {slots : List Slot} : ∀ {results : List Entry} {effort : Effort},
    assembler.entries scope path previous slots = .ok (results, effort) →
      (results.map Entry.name).Sublist (slots.map Slot.name) ∧
        (previous ≠ none → results.map Entry.name = slots.map Slot.name) := by
  induction slots with
  | nil =>
    intro results effort built
    cases built
    exact ⟨.slnil, fun _ => rfl⟩
  | cons slot rest ih =>
    intro results effort built
    obtain ⟨first, work, others, more, here, there, rfl, rfl⟩ := entries_cons_eq_ok.mp built
    obtain ⟨sublist, same⟩ := ih there
    obtain ⟨named, skipped, short⟩ := here.names
    cases first with
    | nil =>
      refine ⟨sublist.cons _, fun old => absurd (skipped rfl) old⟩
    | cons entry more =>
      obtain rfl : more = [] := by simpa using short
      have name : entry.name = slot.name := named entry List.mem_cons_self
      simp only [List.singleton_append, List.map_cons, name]
      exact ⟨sublist.cons_cons _, fun old => by rw [same old]⟩

theorem named?_eq_none {entries : List Entry} {name : Name}
    (absent : name ∉ entries.map Entry.name) : Entry.named? entries name = none := by
  refine List.find?_eq_none.mpr fun entry present => ?_
  simpa using fun same : entry.name = name => absent (same ▸ List.mem_map_of_mem present)

/-- After a walk, what a slot contributed is found under its name. -/
theorem entries_named? {slots : List Slot} {results : List Entry} {effort : Effort}
    (built : assembler.entries scope path previous slots = .ok (results, effort))
    (distinct : (slots.map Slot.name).Nodup) {slot : Slot} (present : slot ∈ slots) :
    ∃ part work, Contributes assembler scope path previous slot part work ∧
      Entry.named? results slot.name = part.head? := by
  induction slots generalizing results effort with
  | nil => cases present
  | cons first rest ih =>
    obtain ⟨part, work, others, more, here, there, rfl, rfl⟩ := entries_cons_eq_ok.mp built
    obtain ⟨fresh, distinct⟩ := List.nodup_cons.mp distinct
    obtain ⟨named, _, short⟩ := here.names
    rcases List.mem_cons.mp present with rfl | later
    · refine ⟨part, work, here, ?_⟩
      have absent : Entry.named? others slot.name = none :=
        named?_eq_none fun held => fresh ((entries_names there).1.subset held)
      cases part with
      | nil => exact absent
      | cons entry more =>
        have name : entry.name = slot.name := named entry List.mem_cons_self
        simp [Entry.named?, name]
    · obtain ⟨part', work', contributes, found⟩ := ih there distinct later
      refine ⟨part', work', contributes, ?_⟩
      have unequal : ¬ first.name = slot.name := fun same =>
        fresh (same ▸ List.mem_map_of_mem later)
      rw [← found, Entry.named?, List.find?_append, List.find?_eq_none.mpr, Option.none_or]
      · rfl
      · intro entry held
        simpa [named entry held] using unequal

theorem output_eq_ok {plan : Plan} {results : List Entry} {effort : Effort} :
    assembler.output scope plan previous = .ok (results, effort) ↔
      ∃ slots, assembler.resolver.slots plan = .ok slots ∧
        assembler.entries scope .root previous slots = .ok (results, effort) := by
  unfold output
  cases assembler.resolver.slots plan with
  | error fault => simp [container]
  | ok slots => simp [container]

end Assembler

end Depot
