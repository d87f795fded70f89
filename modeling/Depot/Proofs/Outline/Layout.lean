import Depot.Proofs.Expectation.Description
import Depot.Proofs.Outline.Growth
import Depot.Proofs.Outline.Stack
import Depot.Registry

set_option autoImplicit false

namespace Depot

/-- A call on a builder of plans. -/
inductive PlanBuilder.Call where
  | file (source : Source)
  | artifact (name : String)
  | copy (source : Source)
  | enter (kind : ContainerKind) (text : String)
  | leave

namespace PlanBuilder

def call (builder : PlanBuilder) : Call → PlanBuilder
  | .file source => builder.add (.file source)
  | .artifact name => builder.add (.artifact name)
  | .copy source => builder.add (.copy source)
  | .enter kind text => builder.enter kind text
  | .leave => builder.leave

def calls (builder : PlanBuilder) (made : List Call) : PlanBuilder :=
  made.foldl call builder

def Call.plain : Call → Outline.Call Ingredient
  | .file source => .leaf (.ok (.file source))
  | .artifact name => .leaf (.ok (.artifact name))
  | .copy source => .leaf (.ok (.copy source))
  | .enter kind text => .enter kind text
  | .leave => .leave

theorem calls_plain (builder : PlanBuilder) (made : List Call) :
    calls builder made = Outline.Builder.calls builder (made.map Call.plain) := by
  have each : call = fun builder made => Outline.Builder.call builder (Call.plain made) := by
    funext builder made
    cases made <;> rfl
  rw [calls, Outline.Builder.calls, List.foldl_map, each]

end PlanBuilder

namespace ExpectationBuilder

/-- What a call adds, or what is wrong with it, or where it goes. -/
def Call.plain : Call → Outline.Call ExpectedFile
  | .file text content =>
    match Name.ofString text with
    | .ok name => .leaf (.ok { name, content })
    | .error error => .leaf (.error (.invalidName text error))
  | .enter kind text => .enter kind text
  | .leave => .leave

theorem calls_plain (builder : ExpectationBuilder) (made : List Call) :
    calls builder made = Outline.Builder.calls builder (made.map Call.plain) := by
  have each : call = fun builder made => Outline.Builder.call builder (Call.plain made) := by
    funext builder made
    cases made with
    | file text content =>
      rw [call, file, Call.plain]
      cases Name.ofString text <;> rfl
    | enter kind text => rfl
    | leave => rfl
  rw [calls, Outline.Builder.calls, List.foldl_map, each]

end ExpectationBuilder

namespace Outline

variable {α : Type}

/-- What was built is what comes of making the calls on the whole tree. -/
structure Placed (made : List (Call α)) (built : Except Fault (List (Outline α))) : Prop where
  /-- The tree is the one that the calls describe at their places, one after the other. -/
  whole : built = (Site.follow made).map Site.trees
  /-- On a stack with remembered indices nothing stops the program, and the same is built. -/
  stacked : Stack.build? made = some built
  /-- What is reported is the first call that is wrong at its place, whatever comes after it. -/
  faulty (fault : Fault) : built = .error fault ↔
    ∃ before wrong after site, made = before ++ wrong :: after ∧ Site.follow before = .ok site ∧
      site.obey wrong = .error fault
  /-- No container holds two containers of one kind and name. -/
  distinct {trees : List (Outline α)} : built = .ok trees → DistinctEach trees
  /-- What was there after some of the calls is still there, in the same positions. -/
  grown {earlier later : List (Call α)} {trees : List (Outline α)} : made = earlier ++ later →
    built = .ok trees → ∃ site, Site.follow earlier = .ok site ∧ GrownEach site.trees trees

theorem Builder.placed (made : List (Call α)) : Placed made (start.calls made).finish where
  whole := finish_calls made
  stacked := Stack.build?_eq made
  faulty fault := by
    rw [finish_calls, map_error_iff]
    exact foldlM_error_iff
  distinct built := by
    rw [finish_calls] at built
    obtain ⟨site, followed, rfl⟩ := map_ok_iff.mp built
    exact Site.follow_distinct followed
  grown same built := by
    rw [finish_calls, same] at built
    obtain ⟨site, followed, rfl⟩ := map_ok_iff.mp built
    exact Site.follow_append followed

/-- A plan, like an expectation, is what its calls describe on the whole tree. -/
theorem layouts_placed :
    (∀ made : List PlanBuilder.Call,
      Placed (made.map PlanBuilder.Call.plain) (PlanBuilder.calls Plan.root made).finish) ∧
    ∀ made : List ExpectationBuilder.Call,
      Placed (made.map ExpectationBuilder.Call.plain)
        (ExpectationBuilder.calls .start made).finish := by
  refine ⟨fun made => ?_, fun made => ?_⟩
  · rw [PlanBuilder.calls_plain]
    exact Builder.placed _
  · rw [ExpectationBuilder.calls_plain]
    exact Builder.placed _

/-- A directory that is entered again is still before what came after it, and an archive of its name
is another container. -/
example :
    let d : Name := ⟨[0x64], by decide⟩
    let made : List PlanBuilder.Call := [.enter .directory "d", .artifact "first", .leave,
      .enter .archive "d", .leave, .enter .directory "d", .artifact "second"]
    (PlanBuilder.calls Plan.root made).finish =
      .ok [.container .directory d [.leaf (.artifact "first"), .leaf (.artifact "second")],
        .container .archive d []] := by
  intro d made
  rfl

end Outline

end Depot
