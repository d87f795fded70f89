import Depot.Build.Slot

set_option autoImplicit false

namespace Depot

namespace Outline

variable (included : String → List Touch)

mutual

/-- The dependencies of a tree, given those of the artifacts it includes. -/
def touches : Outline Ingredient → List Touch
  | leaf (.file source) => [.file source]
  | leaf (.artifact name) => included name
  | leaf (.copy source) => [.copy source]
  | container _ _ children => touchesList children

def touchesList : List (Outline Ingredient) → List Touch
  | [] => []
  | tree :: rest => touches tree ++ touchesList rest

end

end Outline

namespace Registry

variable (registry : Registry)

/-- The plan of an artifact that is included in the last one of a chain. -/
def enter (chain : List String) (name : String) : Except BuildFault Plan :=
  match registry.find? name with
  | none => .error (.unknownArtifact name)
  | some artifact =>
    if name ∈ chain then .error (.cycle (chain ++ [name])) else .ok artifact.plan

/-- The artifacts that a chain does not mention yet. -/
def unvisited (chain : List String) : Nat :=
  (registry.names.filter (· ∉ chain)).length

theorem unvisited_lt {chain : List String} {name : String} {plan : Plan}
    (entered : registry.enter chain name = .ok plan) :
    registry.unvisited (chain ++ [name]) < registry.unvisited chain := by
  have fresh : name ∉ chain := by
    unfold enter at entered
    grind
  have known : name ∈ registry.names := by
    unfold enter at entered
    split at entered
    · cases entered
    · next artifact found =>
      simp only [find?, NameMap.find?, Option.map_eq_some_iff] at found
      obtain ⟨entry, found, _⟩ := found
      have same := List.find?_some found
      have held := List.mem_of_find?_eq_some found
      simp only [decide_eq_true_eq] at same
      exact same ▸ List.mem_map_of_mem held
  unfold unvisited
  generalize registry.names = names at known
  induction names with
  | nil => cases known
  | cons first rest ih =>
    by_cases same : first = name
    · subst same
      have shorter : (rest.filter (· ∉ chain ++ [first])).length ≤
          (rest.filter (· ∉ chain)).length := by
        rw [← List.countP_eq_length_filter, ← List.countP_eq_length_filter]
        exact List.countP_mono_left fun other _ absent => by simp_all
      simp [fresh]
      simp at shorter
      omega
    · have later : name ∈ rest := by
        rcases List.mem_cons.mp known with equal | later
        · exact absurd equal.symm same
        · exact later
      have := ih later
      by_cases visited : first ∈ chain <;> simp_all

/-- The dependencies of a plan, whose artifact is the last one of a chain. -/
def touches (chain : List String) (plan : Plan) : List Touch :=
  Outline.touchesList (fun name =>
    match _entered : registry.enter chain name with
    | .error fault => [.fault fault]
    | .ok inner => touches (chain ++ [name]) inner) plan
termination_by registry.unvisited chain
decreasing_by exact registry.unvisited_lt _entered

end Registry

/-- What the slots of one artifact are resolved against. -/
structure Resolver where
  workspace : Workspace
  registry : Registry
  artifact : String

namespace Resolver

variable (resolver : Resolver)

/-- The first name that two slots share, as a path below the container. -/
def repeated? (path : Path) (seen : List Name) : List Slot → Option Path
  | [] => none
  | slot :: rest =>
    if slot.name ∈ seen then some (path.push slot.name)
    else repeated? path (slot.name :: seen) rest

/-- The slots of a container, whose names must be distinct. -/
def distinct (path : Path) (slots : Except BuildFault (List Slot)) :
    Except BuildFault (List Slot) := do
  let slots ← slots
  match repeated? path [] slots with
  | some path => throw (.duplicateEntry resolver.artifact path)
  | none => return slots

/-- The slots for what a source directory holds, down to the given depth. -/
def copy : (depth : Nat) → (path : Path) → Source → Except BuildFault (List Slot)
  | 0, _, _ => .ok []
  | depth + 1, path, source => do
    let workspace := resolver.workspace
    if !workspace.isLive source then
      throw (.unreadable (workspace.path source) .deletedDirectory)
    if !workspace.isDirectory source then
      throw (.unreadable (workspace.path source) .notADirectory)
    (workspace.children source).mapM fun child =>
      match workspace.name child with
      | .error fault => .error (.unreadable (workspace.path child) (.refused fault))
      | .ok name =>
        if workspace.isDirectory child then
          let inner := path.push name
          .ok (.container .directory name [.copy child]
            (resolver.distinct inner (copy depth inner child)))
        else .ok (.file name child)

/-- The slots for all that a source directory holds. No directory is deeper than the number of nodes
in its file system. -/
def copyAll (path : Path) (source : Source) : Except BuildFault (List Slot) :=
  resolver.copy ((resolver.workspace.home source).nodes.length + 1) path source

section

variable (touched : String → List Touch)
  (included : Path → String → Except BuildFault (List Slot))

mutual

/-- The slots that a tree puts into the container at a path. -/
def expand (path : Path) : Outline Ingredient → Except BuildFault (List Slot)
  | .leaf (.file source) =>
    match resolver.workspace.name source with
    | .error fault => .error (.unreadable (resolver.workspace.path source) (.refused fault))
    | .ok name => .ok [.file name source]
  | .leaf (.artifact name) => included path name
  | .leaf (.copy source) => resolver.copyAll path source
  | .container kind name children =>
    let inner := path.push name
    .ok [.container kind name (Outline.touchesList touched children)
      (resolver.distinct inner (expandList inner children))]

/-- The slots that a list of trees puts into the container at a path. -/
def expandList (path : Path) : List (Outline Ingredient) → Except BuildFault (List Slot)
  | [] => .ok []
  | tree :: rest => do
    let slots ← expand path tree
    return slots ++ (← expandList path rest)

end

end

/-- The dependencies of an artifact that is included in the last one of a chain. -/
def touched (chain : List String) (name : String) : List Touch :=
  match resolver.registry.enter chain name with
  | .error fault => [.fault fault]
  | .ok inner => resolver.registry.touches (chain ++ [name]) inner

/-- The slots that a plan puts into the container at a path, where its artifact is the last one of a
chain. -/
def place (chain : List String) (path : Path) (plan : Plan) : Except BuildFault (List Slot) :=
  resolver.expandList (resolver.touched chain) (fun path name =>
    match _entered : resolver.registry.enter chain name with
    | .error fault => .error fault
    | .ok inner => place (chain ++ [name]) path inner) path plan
termination_by resolver.registry.unvisited chain
decreasing_by exact resolver.registry.unvisited_lt _entered

def slots (plan : Plan) : Except BuildFault (List Slot) :=
  resolver.distinct .root (resolver.place [resolver.artifact] .root plan)

end Resolver

end Depot
