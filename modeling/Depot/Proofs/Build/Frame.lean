import Depot.Proofs.Build.Walk

set_option autoImplicit false

namespace Depot

namespace Entry

theorem find?_single (entries : List Entry) (name : Name) :
    Hierarchy.find? entries ⟨[name]⟩ = named? entries name := by
  simp only [Hierarchy.find?, Hierarchy.follow, named?, Hierarchy.name]
  cases entries.find? fun entry => entry.name = name <;> rfl

theorem find?_cons (entries : List Entry) (name next : Name) (rest : List Name) :
    Hierarchy.find? entries ⟨name :: next :: rest⟩ =
      (named? entries name).bind fun entry => Hierarchy.find? entry.children ⟨next :: rest⟩ := by
  simp only [Hierarchy.find?, Hierarchy.follow, named?, Hierarchy.name]
  cases entries.find? fun entry => entry.name = name <;> rfl

theorem named?_of_mem {entries : List Entry} (distinct : (entries.map name).Nodup) {entry : Entry}
    (present : entry ∈ entries) : named? entries entry.name = some entry := by
  induction entries with
  | nil => cases present
  | cons first rest ih =>
    obtain ⟨fresh, distinct⟩ := List.nodup_cons.mp distinct
    rcases List.mem_cons.mp present with rfl | later
    · simp [named?]
    · have unequal : ¬ first.name = entry.name := fun same =>
        fresh (same ▸ List.mem_map_of_mem later)
      rw [named?, List.find?_cons_of_neg (by simpa using unequal)]
      exact ih distinct later

/-- Lists with the same distinct names are equal if the same is found under each name. -/
theorem eq_of_named? {left right : List Entry} (names : left.map name = right.map name)
    (distinct : (left.map name).Nodup)
    (same : ∀ entry ∈ left, named? right entry.name = some entry) : left = right := by
  induction left generalizing right with
  | nil => exact (List.map_eq_nil_iff.mp names.symm).symm
  | cons entry rest ih =>
    cases right with
    | nil => cases names
    | cons other others =>
      simp only [List.map_cons, List.cons.injEq] at names
      obtain ⟨fresh, apart⟩ := List.nodup_cons.mp distinct
      have equal : other = entry := by
        have found := same entry List.mem_cons_self
        rw [named?, List.find?_cons_of_pos (by simp [names.1])] at found
        exact Option.some.inj found
      subst equal
      congr 1
      refine ih names.2 apart fun later present => ?_
      have found := same later (List.mem_cons_of_mem _ present)
      have unequal : ¬ other.name = later.name := fun same =>
        fresh (same ▸ List.mem_map_of_mem present)
      rwa [named?, List.find?_cons_of_neg (by simpa using unequal)] at found

end Entry

namespace Assembler

open Slot (Separate)

/-- A position in an output: the slot at the end of a path, where every container on the way there
had an entry of its own kind before. -/
inductive Position : List Slot → List Entry → List Name → Slot → Prop where
  | top {slots : List Slot} {previous : List Entry} {slot : Slot} (present : slot ∈ slots) :
    Position slots previous [slot.name] slot
  | inside {slots inner : List Slot} {previous members : List Entry} {kind : ContainerKind}
    {name : Name} {touches : List Touch} {before : Entry} {names : List Name} {slot : Slot}
    (present : .container kind name touches (.ok inner) ∈ slots)
    (found : Entry.named? previous name = some before)
    (held : inside? kind (some before) = some members)
    (deeper : Position inner members names slot) : Position slots previous (name :: names) slot

variable {assembler : Assembler} {changed : Source} {path : Path}

theorem Position.ne_nil {slots : List Slot} {previous : List Entry}
    {names : List Name} {slot : Slot}
    (position : Position slots previous names slot) : names ≠ [] := by
  cases position <;> simp

theorem children_of_inside? {kind : ContainerKind} {before : Entry} {members : List Entry}
    (held : inside? kind (some before) = some members) : before.children = members := by
  cases before <;> cases kind <;> cases held <;> rfl

/-- The slot of a container that has an entry of its kind keeps the entry or builds it from what is
inside. -/
theorem contributes_container {kind : ContainerKind} {name : Name} {touches : List Touch}
    {inner : List Slot} {previous members part : List Entry} {before : Entry} {effort : Effort}
    (found : Entry.named? previous name = some before)
    (held : inside? kind (some before) = some members)
    (contributes : Contributes assembler (.changed changed) path (some previous)
      (.container kind name touches (.ok inner)) part effort) :
    part = [before] ∨ ∃ result results work, part = [result] ∧ result.children = results ∧
      assembler.entries (.changed changed) (path.push name) (some members) inner =
        .ok (results, work) := by
  have formerly : former (some previous) (.container kind name touches (.ok inner)) = some before :=
    found
  cases contributes with
  | built _ made =>
    rw [formerly] at made
    obtain ⟨results, work, wrapping, built, wrapped, _⟩ := container_eq_ok.mp made
    rw [remembered_changed, held] at built
    exact .inr ⟨_, results, work, rfl, (wrap_eq_ok wrapped).2.1, built⟩
  | kept _ there =>
    rw [formerly] at there
    exact .inl (by rw [Option.some.inj there])
  | supplied _ _ absent _ =>
    rw [formerly] at absent
    cases absent
  | skipped _ new => cases new

/-- An update keeps the entry at every position that the change does not reach, by induction on the
position. -/
theorem entries_keep {slots : List Slot} {previous : List Entry} {names : List Name} {slot : Slot}
    (position : Position slots previous names slot)
    (unreached : assembler.workspace.reaches changed slot.touches ≠ .ok true) {before : Entry} :
    ∀ {path : Path} {results : List Entry} {effort : Effort},
      (slots.map Slot.name).Nodup → (∀ slot ∈ slots, Separate slot) →
      assembler.entries (.changed changed) path (some previous) slots = .ok (results, effort) →
      Hierarchy.find? previous ⟨names⟩ = some before →
      Hierarchy.find? results ⟨names⟩ = some before := by
  induction position with
  | top present =>
    intro path results effort distinct _ built had
    obtain ⟨part, work, contributes, found⟩ := entries_named? built distinct present
    rw [Entry.find?_single] at had ⊢
    rw [found]
    cases contributes with
    | built reached _ => exact absurd reached unreached
    | kept _ there => exact there.symm.trans had
    | supplied _ held absent _ =>
      cases held
      exact absurd (had.symm.trans absent) (by simp)
    | skipped _ new => cases new
  | @inside slots inner previous members kind name touches outer names slot present found
    held deeper ih =>
    intro path results effort distinct separate built had
    obtain ⟨next, rest, rfl⟩ := List.exists_cons_of_ne_nil deeper.ne_nil
    obtain ⟨part, work, contributes, now⟩ := entries_named? built distinct present
    obtain ⟨innerDistinct, innerSeparate⟩ := (separate _ present).inside
    rw [Entry.find?_cons, found] at had
    have there : Entry.named? results name = part.head? := now
    rw [Entry.find?_cons, there]
    rcases contributes_container found held contributes with
      rfl | ⟨result, inside, work, rfl, children, builtInside⟩
    · exact had
    · simp only [List.head?_cons, Option.bind_some, children]
      refine ih unreached innerDistinct innerSeparate builtInside ?_
      rw [← children_of_inside? held]
      exact had

/-- An update that reaches nothing at the top of an output whose entries are those of the slots
leaves the output as it is. -/
theorem entries_unchanged {slots : List Slot} {previous results : List Entry} {effort : Effort}
    (built : assembler.entries (.changed changed) path (some previous) slots =
      .ok (results, effort))
    (distinct : (slots.map Slot.name).Nodup)
    (unreached : ∀ slot ∈ slots, assembler.workspace.reaches changed slot.touches ≠ .ok true)
    (names : slots.map Slot.name = previous.map Entry.name) : results = previous := by
  have same := (entries_names built).2 (by simp)
  have previousDistinct : (previous.map Entry.name).Nodup := names ▸ distinct
  refine (Entry.eq_of_named? (names.symm.trans same.symm) previousDistinct
    fun entry present => ?_).symm
  obtain ⟨slot, held, called⟩ : ∃ slot ∈ slots, slot.name = entry.name := by
    have listed := List.mem_map_of_mem (f := Entry.name) present
    rw [← names] at listed
    exact List.mem_map.mp listed
  have there : former (some previous) slot = some entry := by
    rw [former, Option.bind_some, called]
    exact Entry.named?_of_mem previousDistinct present
  obtain ⟨part, work, contributes, found⟩ := entries_named? built distinct held
  rw [← called, found]
  cases contributes with
  | built reached _ => exact absurd reached (unreached slot held)
  | kept _ before => exact before.symm.trans there
  | supplied _ _ absent _ =>
    rw [there] at absent
    cases absent
  | skipped _ new => cases new

end Assembler

end Depot
