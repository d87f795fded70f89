import Depot.Proofs.Build.Carried
import Depot.Proofs.Build.Incremental

set_option autoImplicit false

namespace Depot

open Entry (Sealed Encoded)

/-- What outputs are called where they are seen as directories. It does not matter. -/
def Name.output : Name := ⟨[0x6F], by decide⟩

def Entry.whole (hash : Hash) (entries : List Entry) : Entry :=
  .ofDirectory hash .output entries

theorem Entry.whole_injective {hash : Hash} : Function.Injective (Entry.whole hash) := by
  intro left right same
  simp only [Entry.whole, Entry.ofDirectory, Entry.directory.injEq] at same
  exact same.2.1

namespace Assembler

variable (assembler : Assembler)

def whole (plan : Plan) : Slot :=
  assembler.resolver.rootSlot .output plan

/-- The output of a plan in a build of everything, unless it cannot be built. -/
def full? (plan : Plan) : Option (List Entry) :=
  match assembler.resolver.slots plan with
  | .ok slots => assembler.completeEach? slots
  | .error _ => none

variable {assembler} {plan : Plan}

theorem output_everything {previous : Option (List Entry)} {entries : List Entry} :
    (∃ effort, assembler.output .everything plan previous = .ok (entries, effort)) ↔
      assembler.full? plan = some entries := by
  unfold output full?
  cases assembler.resolver.slots plan with
  | error fault => simp [container]
  | ok slots => exact container_everything

theorem complete?_whole (assembler : Assembler) (plan : Plan) :
    assembler.complete? (assembler.whole plan) =
      (assembler.full? plan).map (Entry.whole assembler.hash) := by
  unfold whole Resolver.rootSlot full?
  cases assembler.resolver.slots plan with
  | error fault => rfl
  | ok slots =>
    simp only [complete?]
    cases assembler.completeEach? slots <;> rfl

/-- An output that could be built before is settled now, up to what was touched since. -/
theorem full_settled {before : Workspace} {pending : List Source} {entries entries' : List Entry}
    (evolves : Workspace.Evolves pending before assembler.workspace)
    (was : (assembler.within before).full? plan = some entries)
    (complete : assembler.full? plan = some entries') :
    Settled assembler pending (assembler.whole plan)
      (some (Entry.whole assembler.hash entries)) := by
  have wholeBefore := complete?_whole (assembler.within before) plan
  have whole := complete?_whole assembler plan
  rw [was] at wholeBefore
  rw [complete] at whole
  exact rootSlot_settled evolves wholeBefore whole

theorem full_sealed (trees : assembler.workspace.Trees) {entries : List Entry}
    (complete : assembler.full? plan = some entries) :
    Sealed assembler.hash (Entry.whole assembler.hash entries) ∧
      Encoded assembler.codec assembler.compression (Entry.whole assembler.hash entries) := by
  have whole := complete?_whole assembler plan
  rw [complete] at whole
  exact sealed_complete (Resolver.rootSlot_layered trees (resolved_of_complete whole)) whole

/-- An output can be updated if a build of everything can build it. -/
theorem output_updated (lengths : ∀ content, (assembler.hash content).bytes.length = 32)
    (trees : assembler.workspace.Trees) {full : List Entry}
    (complete : assembler.full? plan = some full) (changed : Source) {previous : List Entry}
    (closed : Sealed assembler.hash (Entry.whole assembler.hash previous)) :
    ∃ results effort,
      assembler.output (.changed changed) plan (some previous) = .ok (results, effort) ∧
        Sealed assembler.hash (Entry.whole assembler.hash results) ∧
        ∀ strings, assembler.hash.Separates strings →
          (Entry.whole assembler.hash results).hashed ⊆ strings →
          Trusted assembler strings (Entry.whole assembler.hash previous) →
          Advances assembler changed strings (assembler.whole plan)
            (some (Entry.whole assembler.hash previous)) (Entry.whole assembler.hash results) := by
  have whole := complete?_whole assembler plan
  rw [complete] at whole
  have layered := Resolver.rootSlot_layered trees (resolved_of_complete whole)
  obtain ⟨slots, contents, _, distinct, _⟩ := Resolver.rootSlot_cases (resolved_of_complete whole)
  simp only [Assembler.whole, Resolver.rootSlot, contents] at whole layered ⊢
  have buildable := buildable_of_complete whole
  have updatesEach : ∀ slot ∈ slots, Updates assembler changed slot := by
    intro slot present
    obtain ⟨entry, built⟩ := buildable slot present
    exact updates lengths slot (layered.inner slot present) entry built
  have closedEach : ∀ members ∈ some previous, ∀ member ∈ members, Sealed assembler.hash member :=
    @inside?_closed assembler .directory (some (Entry.whole assembler.hash previous))
      fun before found => Option.some.inj found ▸ closed
  obtain ⟨results, effort, built, updated⟩ :=
    entries_updated updatesEach layered.inner buildable .root closedEach
  refine ⟨results, effort, ?_, .directory (updated.names.nodup distinct) updated.closed, ?_⟩
  · simp only [output, contents, container, built]
  · intro strings separates hashed trusted
    simp only [Entry.whole, Entry.ofDirectory, Entry.hashed, List.cons_subset] at hashed
    have trustedEach : ∀ members ∈ inside? .directory (some (Entry.whole assembler.hash previous)),
        ∀ member ∈ members, Trusted assembler strings member :=
      inside?_trusted fun before found => Option.some.inj found ▸ trusted
    have each : AdvancesEach assembler changed strings slots
        (inside? .directory (some (Entry.whole assembler.hash previous))) results :=
      updated.advances strings separates hashed.2 trustedEach
    obtain ⟨covered, settled⟩ := advances_container layered each rfl
    exact ⟨.directory each.encoded, covered, settled⟩

end Assembler

end Depot
