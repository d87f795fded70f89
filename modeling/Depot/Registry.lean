import Depot.NameMap
import Depot.Outline
import Depot.Workspace

set_option autoImplicit false

namespace Depot

/-- What a plan puts into a container. -/
inductive Ingredient where
  /-- A source file under its own name. -/
  | file (source : Source)
  /-- All that the plan of another artifact puts at its top. -/
  | artifact (name : String)
  /-- All that a source directory holds, at every depth. -/
  | copy (source : Source)
deriving DecidableEq

/-- A plan: what the output of an artifact holds at its top. -/
abbrev Plan := List (Outline Ingredient)

abbrev PlanBuilder := Outline.Builder Ingredient

namespace Plan

def root : PlanBuilder :=
  .start

/-- Starts a plan inside an archive that is all of the output. -/
def archiveRoot (name : String) : PlanBuilder :=
  root.enter .archive name

end Plan

/-- A plan under a name. -/
structure Artifact where
  name : String
  plan : Plan
  revision : Nat

/-- Why an artifact is not added. -/
inductive RegistryFault where
  | nameTaken (name : String)
deriving DecidableEq

def RegistryFault.code : RegistryFault → String
  | nameTaken _ => "DuplicateArtifact"

def RegistryFault.message : RegistryFault → String
  | nameTaken name => "artifact '" ++ name ++ "' already exists"

/-- All artifacts of a project by their own names, and the last revision that was handed out. -/
structure Registry where
  artifacts : NameMap Artifact
  lastRevision : Nat
  named : ∀ entry ∈ artifacts.entries, entry.2.name = entry.1

namespace Registry

def empty : Registry := ⟨.empty, 0, fun _ present => nomatch present⟩

def find? (registry : Registry) (name : String) : Option Artifact :=
  registry.artifacts.find? name

def names (registry : Registry) : List String :=
  registry.artifacts.keys

/-- Sets the plan of an artifact and returns the plan that it had. -/
def replace (registry : Registry) (name : String) (plan : Plan) : Option Plan × Registry :=
  let revision := registry.lastRevision + 1
  ((registry.find? name).map Artifact.plan,
    { artifacts := registry.artifacts.insert name { name, plan, revision }
      lastRevision := revision
      named := fun entry present => by
        rcases NameMap.mem_insertEntry present with rfl | kept
        · rfl
        · exact registry.named entry kept })

def add (registry : Registry) (name : String) (plan : Plan) : Except RegistryFault Registry :=
  match registry.find? name with
  | some _ => .error (.nameTaken name)
  | none => .ok (registry.replace name plan).2

/-- Removes an artifact and returns the plan that it had. -/
def remove (registry : Registry) (name : String) : Option Plan × Registry :=
  ((registry.find? name).map Artifact.plan,
    { artifacts := registry.artifacts.erase name
      lastRevision := registry.lastRevision
      named := fun entry present => registry.named entry (List.mem_filter.mp present).1 })

end Registry

end Depot
