import Depot.Proofs.Build.Carried
import Depot.Proofs.Build.Frame

set_option autoImplicit false

namespace Depot

namespace Slot

/-- The slots of an output at every depth, each with its position. -/
inductive At : List Slot → List Name → Slot → Prop where
  | top {slots : List Slot} {slot : Slot} (present : slot ∈ slots) : At slots [slot.name] slot
  | inside {slots inner : List Slot} {kind : ContainerKind} {name : Name} {touches : List Touch}
    {names : List Name} {slot : Slot} (present : .container kind name touches (.ok inner) ∈ slots)
    (deeper : At inner names slot) : At slots (name :: names) slot

theorem At.ne_nil {slots : List Slot} {names : List Name} {slot : Slot}
    (place : At slots names slot) :
    names ≠ [] := by
  cases place <;> simp

/-- No two slots have the same position. -/
theorem At.unique {slots : List Slot} {names : List Name} {slot : Slot}
    (place : At slots names slot) :
    ∀ {other : Slot}, (slots.map Slot.name).Nodup → (∀ slot ∈ slots, Separate slot) →
      At slots names other → slot = other := by
  induction place with
  | @top slots slot present =>
    intro other distinct _ place
    generalize same : [slot.name] = names at place
    cases place with
    | top present' =>
      exact List.inj_on_of_nodup_map distinct present present' (List.head_eq_of_cons_eq same)
    | inside _ deeper =>
      obtain ⟨_, nil⟩ := List.cons.inj same
      exact absurd nil.symm deeper.ne_nil
  | @inside slots inner kind name touches names slot present deeper ih =>
    intro other distinct separate place
    generalize same : name :: names = names' at place
    cases place with
    | top present' =>
      obtain ⟨_, nil⟩ := List.cons.inj same
      exact absurd nil deeper.ne_nil
    | inside present' deeper' =>
      obtain ⟨rfl, rfl⟩ := List.cons.inj same
      cases List.inj_on_of_nodup_map distinct present present' rfl
      obtain ⟨innerDistinct, innerSeparate⟩ := (separate _ present).inside
      exact ih innerDistinct innerSeparate deeper'

end Slot

/-- At a position, a change reaches the slot and all slots around it. -/
def Slot.ReachedThrough (workspace : Workspace) (changed : Source) (slots : List Slot)
    (names : List Name) : Prop :=
  ∀ outer inner slot, names = outer ++ inner → At slots outer slot →
    workspace.reaches changed slot.touches = .ok true

namespace Entry

/-- An entry has the content that a source held in one of some workspaces. -/
def HeldBy (entry : Entry) (source : Source) (workspaces : List Workspace) : Prop :=
  ∃ workspace ∈ workspaces, ∃ content, workspace.read source = .ok content ∧
    entry.bytes? = some content

theorem find?_eq_some_cons {entries : List Entry} {name : Name} {names : List Name}
    {entry : Entry} :
    Hierarchy.find? entries ⟨name :: names⟩ = some entry ↔
      ∃ outer, named? entries name = some outer ∧
        (names = [] ∧ entry = outer ∨ Hierarchy.find? outer.children ⟨names⟩ = some entry) := by
  cases names with
  | nil =>
    have none (outer : Entry) : Hierarchy.find? outer.children ⟨[]⟩ = none := rfl
    simp [find?_single, none, eq_comm]
  | cons next rest => simp [find?_cons, Option.bind_eq_some_iff]

theorem find?_empty (names : List Name) : Hierarchy.find? ([] : List Entry) ⟨names⟩ = none := by
  cases names <;> rfl

end Entry

namespace Assembler

open Slot (At Separate)

variable {assembler : Assembler} {scope : Scope} {path : Path}

/-- An entry is one that a slot is built to: of a file, it has what the source holds; of a
container, it is of the same kind. -/
inductive Suits (assembler : Assembler) : Slot → Entry → Prop where
  | file {name : Name} {source : Source} {content : Bytes}
    (read : assembler.workspace.read source = .ok content) :
    Suits assembler (.file name source)
      (.ofFile assembler.hash name content (assembler.workspace.stamp source))
  | directory {name : Name} {touches : List Touch} {contents : Except BuildFault (List Slot)}
    (children : List Entry) : Suits assembler (.container .directory name touches contents)
      (.ofDirectory assembler.hash name children)
  | archive {name : Name} {touches : List Touch} {contents : Except BuildFault (List Slot)}
    (members : List Entry) (bytes : Bytes) :
      Suits assembler (.container .archive name touches contents)
      (.ofArchive assembler.hash name members bytes)

/-- An entry is taken over from before, at its position: it is, or is in, the entry of a slot that
is not reached, or it is a file that still shows what its source holds. -/
inductive Kept (assembler : Assembler) (scope : Scope) (slots : List Slot) (previous : List Entry) :
    List Name → Entry → Prop where
  | unreached {outer inner : List Name} {slot : Slot} {entry : Entry}
    (place : Position slots previous outer slot)
    (unreached : assembler.reached scope slot.touches = .ok false)
    (had : Hierarchy.find? previous ⟨outer ++ inner⟩ = some entry) :
    Kept assembler scope slots previous (outer ++ inner) entry
  | current {names : List Name} {name : Name} {source : Source} {entry : Entry}
    (place : Position slots previous names (.file name source))
    (current : assembler.current? scope source (some entry) = some entry)
    (had : Hierarchy.find? previous ⟨names⟩ = some entry) :
    Kept assembler scope slots previous names entry

theorem Kept.had {slots : List Slot} {previous : List Entry} {names : List Name} {entry : Entry}
    (kept : Kept assembler scope slots previous names entry) :
    Hierarchy.find? previous ⟨names⟩ = some entry := by
  cases kept with
  | unreached _ _ had => exact had
  | current _ _ had => exact had

/-- A build of everything keeps nothing. -/
theorem Kept.not_everything {slots : List Slot} {previous : List Entry} {names : List Name}
    {entry : Entry} (kept : Kept assembler scope slots previous names entry) :
    scope ≠ .everything := by
  rintro rfl
  cases kept with
  | unreached _ unreached _ => cases unreached
  | current _ current _ => cases current

/-- What is kept in a container is kept in the output around it. -/
theorem Kept.inside {slots inner : List Slot} {previous members : List Entry} {kind : ContainerKind}
    {name : Name} {touches : List Touch} {before : Entry} {names : List Name} {entry : Entry}
    (present : .container kind name touches (.ok inner) ∈ slots)
    (found : Entry.named? previous name = some before)
    (held : inside? kind (some before) = some members)
    (kept : Kept assembler scope inner members names entry) :
    Kept assembler scope slots previous (name :: names) entry := by
  have under {names : List Name} (had : Hierarchy.find? members ⟨names⟩ = some entry) :
      Hierarchy.find? previous ⟨name :: names⟩ = some entry :=
    Entry.find?_eq_some_cons.mpr ⟨before, found, .inr (children_of_inside? held ▸ had)⟩
  cases kept with
  | unreached place unreached had =>
    exact .unreached (place.inside present found held) unreached (under had)
  | current place current had =>
    exact .current (place.inside present found held) current (under had)

/-- Where the entry at a position comes from: it suits the slot that is there now, or it is kept. -/
def Stems (assembler : Assembler) (scope : Scope) (slots : List Slot)
    (previous : Option (List Entry)) (names : List Name) (entry : Entry) : Prop :=
  (∃ slot, At slots names slot ∧ Suits assembler slot entry) ∨
    ∃ olds ∈ previous, Kept assembler scope slots olds names entry

theorem suits_wrap {kind : ContainerKind} {name : Name} {touches : List Touch}
    {contents : Except BuildFault (List Slot)} {before? : Option Entry} {members : List Entry}
    {result : Entry} {effort : Effort}
    (made : assembler.wrap kind path name before? members = .ok (result, effort)) :
    Suits assembler (.container kind name touches contents) result := by
  cases kind with
  | directory =>
    cases made
    exact .directory members
  | archive =>
    obtain ⟨bytes, rfl⟩ := archive_eq_ok made
    exact .archive members bytes

/-- What a slot is built to suits it, unless it is the entry from before. -/
theorem suits_entry {slot : Slot} {before? : Option Entry} {result : Entry} {effort : Effort}
    (made : assembler.entry scope path before? slot = .ok (result, effort)) :
    Suits assembler slot result ∨ before? = some result ∧ ∃ name source, slot = .file name source ∧
      assembler.current? scope source (some result) = some result := by
  cases slot with
  | file name source =>
    rcases file_eq_ok.mp made with ⟨current, _⟩ | ⟨_, _, content, read, rfl⟩
    · have remembered := (current?_eq_some current).1
      rw [remembered] at current
      exact .inr ⟨mem_remembered remembered, name, source, rfl, current⟩
    · exact .inl (.file read)
  | container kind name touches contents =>
    cases contents with
    | error fault => exact absurd made not_container_error
    | ok slots =>
      obtain ⟨_, _, _, _, wrapped, _⟩ := container_eq_ok.mp made
      exact .inl (suits_wrap wrapped)

/-- A container that is built from an entry was there before, as a container of its kind. -/
theorem former_of_inside {kind : ContainerKind} {previous : Option (List Entry)} {slot : Slot}
    {members : List Entry}
    (held : inside? kind (remembered scope (former previous slot)) = some members) :
    ∃ olds before, previous = some olds ∧ Entry.named? olds slot.name = some before ∧
      inside? kind (some before) = some members := by
  cases known : remembered scope (former previous slot) with
  | none =>
    rw [known] at held
    cases kind <;> cases held
  | some before =>
    rw [known] at held
    obtain ⟨olds, there, found⟩ := Option.bind_eq_some_iff.mp (mem_remembered known)
    exact ⟨olds, before, there, found, held⟩

/-- Whatever is in an entry that is built was put there by a walk through the slots of its
container. -/
theorem container_of_found {slot : Slot} {before? : Option Entry} {result entry : Entry}
    {effort : Effort} {names : List Name}
    (made : assembler.entry scope path before? slot = .ok (result, effort))
    (found : Hierarchy.find? result.children ⟨names⟩ = some entry) :
    ∃ kind touches inner work, slot = .container kind slot.name touches (.ok inner) ∧
      assembler.entries scope (path.push slot.name) (inside? kind (remembered scope before?))
        inner =
        .ok (result.children, work) := by
  cases slot with
  | file name source =>
    have empty : result.children = [] := by
      rcases file_eq_ok.mp made with ⟨current, _⟩ | ⟨_, _, _, _, rfl⟩
      · obtain ⟨_, _, _, _, _, rfl⟩ := current?_eq_some current
        rfl
      · rfl
    rw [empty, Entry.find?_empty] at found
    cases found
  | container kind name touches contents =>
    cases contents with
    | error fault => exact absurd made not_container_error
    | ok inner =>
      obtain ⟨members, work, _, walked, wrapped, _⟩ := container_eq_ok.mp made
      rw [(wrap_eq_ok wrapped).2.1]
      exact ⟨kind, touches, inner, work, rfl, walked⟩

/-- What is found in an entry that is built, given what is found in the containers inside. -/
theorem stems_of_made {rest : List Name} {entry : Entry}
    (inner : ∀ {scope : Scope} {path : Path} {previous : Option (List Entry)} {slots : List Slot}
      {results : List Entry} {effort : Effort},
      (slots.map Slot.name).Nodup → (∀ slot ∈ slots, Separate slot) →
      assembler.entries scope path previous slots = .ok (results, effort) →
      Hierarchy.find? results ⟨rest⟩ = some entry → Stems assembler scope slots previous rest entry)
    {slots : List Slot} (separate : ∀ slot ∈ slots, Separate slot) {slot : Slot}
    (present : slot ∈ slots) {previous : Option (List Entry)} {outer : Entry} {effort : Effort}
    (made : assembler.entry scope path (former previous slot) slot = .ok (outer, effort))
    (within : rest = [] ∧ entry = outer ∨ Hierarchy.find? outer.children ⟨rest⟩ = some entry) :
    Stems assembler scope slots previous (slot.name :: rest) entry := by
  rcases within with ⟨rfl, rfl⟩ | within
  · rcases suits_entry made with suits | ⟨had, name, source, rfl, current⟩
    · exact .inl ⟨slot, .top present, suits⟩
    · obtain ⟨olds, before, had⟩ := Option.bind_eq_some_iff.mp had
      exact .inr ⟨olds, before, .current (.top present) current
        ((Entry.find?_single olds _).trans had)⟩
  · obtain ⟨kind, touches, contents, work, same, walked⟩ := container_of_found made within
    have held : .container kind slot.name touches (.ok contents) ∈ slots := same ▸ present
    obtain ⟨distinct, separateInside⟩ := (separate _ held).inside
    rcases inner distinct separateInside walked within
      with ⟨deeper, place, suits⟩ | ⟨members, was, kept⟩
    · exact .inl ⟨deeper, .inside held place, suits⟩
    · obtain ⟨olds, before, there, named, was⟩ := former_of_inside was
      exact .inr ⟨olds, there, .inside held named was kept⟩

/-- Every entry after a walk suits the slot at its position or is kept, by induction on the
position. -/
theorem entries_stem {names : List Name} {entry : Entry} :
    ∀ {scope : Scope} {path : Path} {previous : Option (List Entry)} {slots : List Slot}
      {results : List Entry} {effort : Effort},
      (slots.map Slot.name).Nodup → (∀ slot ∈ slots, Separate slot) →
      assembler.entries scope path previous slots = .ok (results, effort) →
      Hierarchy.find? results ⟨names⟩ = some entry → Stems assembler scope slots previous
        names entry := by
  induction names with
  | nil =>
    intro scope path previous slots results effort _ _ _ found
    cases found
  | cons name rest ih =>
    intro scope path previous slots results effort distinct separate built found
    obtain ⟨outer, there, within⟩ := Entry.find?_eq_some_cons.mp found
    obtain ⟨slot, present, rfl⟩ : ∃ slot ∈ slots, slot.name = name := by
      obtain ⟨held, rfl⟩ := named?_mem there
      exact List.mem_map.mp ((entries_names built).1.subset (List.mem_map_of_mem held))
    obtain ⟨part, work, contributes, only⟩ := entries_named? built distinct present
    rw [there] at only
    cases contributes with
    | built _ made =>
      cases only
      exact stems_of_made ih separate present made within
    | kept unreached had =>
      cases only
      obtain ⟨olds, before, had⟩ := Option.bind_eq_some_iff.mp had
      exact .inr ⟨olds, before, .unreached (.top present) unreached
        (Entry.find?_eq_some_cons.mpr ⟨outer, had, within⟩)⟩
    | supplied _ _ _ made =>
      cases only
      -- It is built as if nothing had been there, so nothing is kept.
      rcases @stems_of_made _ .everything _ _ _ ih _ separate _ present none _ _ made within with
        suits | ⟨_, none, _⟩
      · exact .inl suits
      · cases none
    | skipped _ _ => cases only

/-- Slots that were not built before get no entries exactly if none of them is reached. -/
theorem entries_eq_nil_iff {slots : List Slot} {results : List Entry} {effort : Effort}
    (built : assembler.entries scope path none slots = .ok (results, effort)) :
    results = [] ↔ ∀ slot ∈ slots, assembler.reached scope slot.touches = .ok false := by
  induction slots generalizing results effort with
  | nil =>
    cases built
    simp
  | cons slot rest ih =>
    obtain ⟨first, work, others, more, here, there, rfl, rfl⟩ := entries_cons_eq_ok.mp built
    rw [List.append_eq_nil_iff, ih there, List.forall_mem_cons]
    refine and_congr_left fun _ => ?_
    cases here with
    | built reached _ => simp [reached]
    | kept _ found => cases found
    | supplied _ held _ _ => cases held
    | skipped unreached _ => simp [unreached]

/-- Positions of slots for which a walk leaves no entry: those inside a slot that is not reached,
where the entry from before has nothing at that place, and those of slots that are not reached in a
container that was not built before. -/
inductive Lacks (assembler : Assembler) (scope : Scope) :
    List Slot → Option (List Entry) → List Name → Prop where
  | kept {slots : List Slot} {previous : Option (List Entry)} {slot : Slot} {before : Entry}
    {names : List Name} (present : slot ∈ slots)
    (unreached : assembler.reached scope slot.touches = .ok false)
    (had : former previous slot = some before) (deeper : names ≠ [])
    (missing : Hierarchy.find? before.children ⟨names⟩ = none) :
    Lacks assembler scope slots previous (slot.name :: names)
  | skipped {slots : List Slot} {slot : Slot} {names : List Name} (present : slot ∈ slots)
    (unreached : assembler.reached scope slot.touches = .ok false) :
    Lacks assembler scope slots none (slot.name :: names)
  | inside {slots inner : List Slot} {previous : Option (List Entry)} {kind : ContainerKind}
    {name : Name} {touches : List Touch} {names : List Name}
    (present : .container kind name touches (.ok inner) ∈ slots)
    (reached : assembler.reached scope touches = .ok true)
    (deeper : Lacks assembler scope inner (inside? kind (remembered scope
      (former previous (.container kind name touches (.ok inner))))) names) :
    Lacks assembler scope slots previous (name :: names)

theorem Lacks.ne_nil {slots : List Slot} {previous : Option (List Entry)} {names : List Name}
    (lacks : Lacks assembler scope slots previous names) : names ≠ [] := by
  cases lacks <;> simp

/-- A build of everything leaves no position without an entry. -/
theorem not_lacks_everything {slots : List Slot} {previous : Option (List Entry)}
    {names : List Name} :
    ¬ Lacks assembler .everything slots previous names := by
  intro lacks
  induction lacks with
  | kept _ unreached _ _ _ => cases unreached
  | skipped _ unreached => cases unreached
  | inside _ _ _ ih => exact ih

/-- A walk gives entries to all other slots, by induction on the position. -/
theorem entries_found {slots : List Slot} {names : List Name} {slot : Slot}
    (place : At slots names slot) :
    ∀ {scope : Scope} {path : Path} {previous : Option (List Entry)} {results : List Entry}
      {effort : Effort},
      (slots.map Slot.name).Nodup → (∀ slot ∈ slots, Separate slot) →
      assembler.entries scope path previous slots = .ok (results, effort) →
      (∃ entry, Hierarchy.find? results ⟨names⟩ = some entry) ∨
        Lacks assembler scope slots previous names := by
  induction place with
  | top present =>
    intro scope path previous results effort distinct _ built
    obtain ⟨part, work, contributes, found⟩ := entries_named? built distinct present
    rw [Entry.find?_single, found]
    cases contributes with
    | built _ _ => exact .inl ⟨_, rfl⟩
    | kept _ _ => exact .inl ⟨_, rfl⟩
    | supplied _ _ _ _ => exact .inl ⟨_, rfl⟩
    | skipped unreached new => exact .inr (new ▸ .skipped present unreached)
  | @inside slots inner kind name touches names slot present deeper ih =>
    intro scope path previous results effort distinct separate built
    obtain ⟨innerDistinct, innerSeparate⟩ := (separate _ present).inside
    obtain ⟨part, work, contributes, found⟩ := entries_named? built distinct present
    have there : Entry.named? results name = part.head? := found
    simp only [Entry.find?_eq_some_cons, there]
    cases contributes with
    | built reached made =>
      obtain ⟨members, _, _, walked, wrapped, _⟩ := container_eq_ok.mp made
      rcases ih innerDistinct innerSeparate walked with ⟨entry, held⟩ | lacks
      · rw [← (wrap_eq_ok wrapped).2.1] at held
        exact .inl ⟨entry, _, rfl, .inr held⟩
      · exact .inr (.inside present reached lacks)
    | @kept before unreached had =>
      cases held : Hierarchy.find? before.children ⟨names⟩ with
      | none => exact .inr (.kept present unreached had deeper.ne_nil held)
      | some entry => exact .inl ⟨entry, before, rfl, .inr held⟩
    | supplied _ _ _ made =>
      obtain ⟨members, _, _, walked, wrapped, _⟩ := container_eq_ok.mp made
      rcases ih innerDistinct innerSeparate walked with ⟨entry, held⟩ | lacks
      · rw [← (wrap_eq_ok wrapped).2.1] at held
        exact .inl ⟨entry, _, rfl, .inr held⟩
      · exact absurd lacks not_lacks_everything
    | skipped unreached new => exact .inr (new ▸ .skipped present unreached)

end Assembler

end Depot
