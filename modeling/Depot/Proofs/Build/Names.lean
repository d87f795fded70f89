import Depot.Proofs.Build.Frame
import Depot.Proofs.Build.Inheritance
import Depot.Proofs.FileSystem.Names
import Depot.Proofs.NameMap

set_option autoImplicit false

namespace Depot

def Plan.Textual (plan : Plan) : Prop :=
  ∀ name ∈ Outline.namesEach plan, name.Textual

def Registry.Textual (registry : Registry) : Prop :=
  ∀ artifact ∈ registry.artifacts.values, Plan.Textual artifact.plan

/-- The names in a slot, at every depth, are texts. -/
inductive Slot.Textual : Slot → Prop where
  | file {name : Name} (text : name.Textual) (source : Source) : Textual (.file name source)
  | failed {name : Name} (text : name.Textual) (kind : ContainerKind) (touches : List Touch)
    (fault : BuildFault) : Textual (.container kind name touches (.error fault))
  | container {name : Name} (text : name.Textual) (kind : ContainerKind) (touches : List Touch)
    {slots : List Slot} (inner : ∀ slot ∈ slots, Textual slot) :
    Textual (.container kind name touches (.ok slots))

/-- The names in an entry, at every depth, are texts. -/
inductive Entry.Textual : Entry → Prop where
  | file {name : Name} (text : name.Textual) (content : Bytes) (stamp : Stamp) (digest : Digest) :
    Textual (.file name content stamp digest)
  | directory {name : Name} (text : name.Textual) {children : List Entry}
    (inner : ∀ child ∈ children, Textual child) (digest : Digest) :
    Textual (.directory name children digest)
  | archive {name : Name} (text : name.Textual) {members : List Entry}
    (inner : ∀ member ∈ members, Textual member) (bytes : Bytes) (digest : Digest) :
    Textual (.archive name members bytes digest)

theorem Entry.Textual.name {entry : Entry} (textual : entry.Textual) : entry.name.Textual := by
  cases textual with
  | file text => exact text
  | directory text _ => exact text
  | archive text _ => exact text

theorem Entry.Textual.inside {entry : Entry} (textual : entry.Textual) :
    ∀ child ∈ entry.children, child.Textual := by
  cases textual with
  | file _ _ _ _ => exact fun child present => nomatch present
  | directory _ inner _ => exact inner
  | archive _ inner _ _ => exact inner

namespace Resolver

variable {resolver : Resolver}

theorem grants_textual (texts : resolver.workspace.Textual) :
    Grants resolver Name.Textual Slot.Textual where
  source _ _ named := texts.name named
  file _ source text := .file text source
  container kind name touches path contents text inner := by
    cases made : resolver.distinct path contents with
    | error fault => exact .failed text kind touches fault
    | ok slots => exact .container text kind touches (inner slots (distinct_eq_ok.mp made).1)

theorem slots_textual (texts : resolver.workspace.Textual) (registered : resolver.registry.Textual)
    {plan : Plan} (textual : plan.Textual) {slots : List Slot}
    (resolved : resolver.slots plan = .ok slots) : ∀ slot ∈ slots, slot.Textual := by
  refine place_grants (grants_textual texts) (fun chain name plan entered => ?_) textual
    (distinct_eq_ok.mp resolved).1
  obtain ⟨artifact, found, _, rfl⟩ := Registry.enter_eq_ok.mp entered
  exact registered artifact (NameMap.mem_values found)

end Resolver

namespace Assembler

variable {assembler : Assembler}

theorem textual_wrap {kind : ContainerKind} {path : Path} {name : Name} {before? : Option Entry}
    {members : List Entry} {result : Entry} {effort : Effort} (text : name.Textual)
    (inner : ∀ member ∈ members, member.Textual)
    (wrapped : assembler.wrap kind path name before? members = .ok (result, effort)) :
    result.Textual := by
  cases kind with
  | directory =>
    cases wrapped
    exact .directory text inner _
  | archive =>
    obtain ⟨bytes, rfl⟩ := archive_eq_ok wrapped
    exact .archive text inner _ _

/-- The entry of a slot has textual names if the slot and the entry from before have, by induction
on the slot. -/
theorem hands_textual (slot : Slot) (textual : slot.Textual) :
    Hands assembler Entry.Textual Entry.Textual slot := by
  induction textual with
  | file text source =>
    intro scope path before? result effort olds made
    rcases file_eq_ok.mp made with ⟨current, _⟩ | ⟨_, _, content, _, rfl⟩
    · exact olds result (mem_remembered (current?_eq_some current).1)
    · exact .file text _ _ _
  | failed text kind touches fault =>
    intro scope path before? result effort _ made
    exact absurd made not_container_error
  | container text kind touches _ ih =>
    intro scope path before? result effort olds made
    obtain ⟨members, work, wrapping, built, wrapped, _⟩ := container_eq_ok.mp made
    refine textual_wrap text
      (entries_inherit ih (fun _ => id) (fun inner held member present => ?_) built)
      wrapped
    cases known : remembered scope before? with
    | none =>
      rw [known] at held
      cases kind <;> cases held
    | some before =>
      rw [known] at held
      have old : before.Textual := olds before (mem_remembered known)
      have same : before.children = inner := children_of_inside? held
      exact old.inside member (same ▸ present)

/-- The names in an output are texts. -/
theorem output_textual (texts : assembler.workspace.Textual)
    (registered : assembler.registry.Textual)
    {plan : Plan} (textual : plan.Textual) {scope : Scope} {previous : Option (List Entry)}
    (olds : ∀ members ∈ previous, ∀ member ∈ members, member.Textual) {results : List Entry}
    {effort : Effort} (built : assembler.output scope plan previous = .ok (results, effort)) :
    ∀ result ∈ results, result.Textual := by
  obtain ⟨slots, resolved, walked⟩ := output_eq_ok.mp built
  have slotsTextual := Resolver.slots_textual texts registered textual resolved
  exact entries_inherit (fun slot present => hands_textual slot (slotsTextual slot present))
    (fun _ => id) olds walked

end Assembler

end Depot
