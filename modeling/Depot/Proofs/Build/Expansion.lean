import Depot.Proofs.Build.Layers

set_option autoImplicit false

namespace Depot

/-- What a slot is before it is expanded: a file, a container with a plan whose artifact is the last
one of a chain, or the copy of a directory. -/
inductive Recipe where
  | file (name : Name) (source : Source)
  | plan (kind : ContainerKind) (name : Name) (chain : List String) (children : Plan)
  | copy (name : Name) (source : Source)

namespace Resolver

section Slots

variable (resolver : Resolver)

def slot (path : Path) : Recipe → Slot
  | .file name source => .file name source
  | .plan kind name chain children =>
    .container kind name (resolver.registry.touches chain children)
      (resolver.distinct (path.push name) (resolver.place chain (path.push name) children))
  | .copy name source =>
    .container .directory name [.copy source]
      (resolver.distinct (path.push name) (resolver.copyAll (path.push name) source))

/-- The slot for a source file under its own name. -/
def sourceSlots (source : Source) : Except BuildFault (List Slot) :=
  match resolver.workspace.name source with
  | .error fault => .error (.unreadable (resolver.workspace.path source) (.refused fault))
  | .ok name => .ok [.file name source]

/-- The slots of an artifact that is included in the last one of a chain. -/
def included (chain : List String) (path : Path) (name : String) : Except BuildFault (List Slot) :=
  match resolver.registry.enter chain name with
  | .error fault => .error fault
  | .ok inner => resolver.place (chain ++ [name]) path inner

theorem place_eq (chain : List String) (path : Path) (plan : Plan) :
    resolver.place chain path plan =
      resolver.expandList (resolver.touched chain) (resolver.included chain) path plan := by
  rw [place]
  congr 1
  funext path name
  unfold included
  split <;> simp_all

end Slots

/-- A relation between dependencies and the slots that come of them in two places, as it is made
when a plan is expanded. -/
structure Joint (left right : Resolver)
    (relates : List Touch → Path → Except BuildFault (List Slot) → Except BuildFault (List Slot) →
      Prop) :
    Prop where
  nothing : ∀ path, relates [] path (.ok []) (.ok [])
  both : ∀ {touches more path first first' rest rest'}, relates touches path first first' →
    relates more path rest rest' →
    relates (touches ++ more) path (do return (← first) ++ (← rest))
      (do return (← first') ++ (← rest'))
  file : ∀ path source, relates [.file source] path (left.sourceSlots source)
    (right.sourceSlots source)
  copy : ∀ path source,
    relates [.copy source] path (left.copyAll path source) (right.copyAll path source)
  container : ∀ path kind name chain children,
    relates (left.registry.touches chain children) (path.push name)
      (left.place chain (path.push name) children) (right.place chain (path.push name) children) →
    relates (left.registry.touches chain children) path
      (.ok [left.slot path (.plan kind name chain children)])
      (.ok [right.slot path (.plan kind name chain children)])
  unknown : ∀ path fault, relates [.fault fault] path (.error fault) (.error fault)

namespace Joint

variable {left right : Resolver}
  {relates : List Touch → Path → Except BuildFault (List Slot) → Except BuildFault (List Slot) →
    Prop}
  {chain : List String}

mutual

/-- The slots of one tree of a plan, given those of the artifacts in it. -/
theorem expand (joint : Joint left right relates) (same : right.registry = left.registry)
    (inner : ∀ path name,
      relates (left.touched chain name) path (left.included chain path name)
        (right.included chain path name)) :
    (tree : Outline Ingredient) → ∀ path,
    relates (Outline.touches (left.touched chain) tree) path
      (left.expand (left.touched chain) (left.included chain) path tree)
      (right.expand (right.touched chain) (right.included chain) path tree)
  | .leaf (.file source), path => joint.file path source
  | .leaf (.artifact name), path => inner path name
  | .leaf (.copy source), path => joint.copy path source
  | .container kind name children, path => by
    have within := expandList joint same inner children (path.push name)
    rw [← place_eq, ← place_eq, ← touches_eq] at within
    rw [Outline.touches, Resolver.expand,
      Resolver.expand, ← touches_eq, ← touches_eq, ← place_eq, ← place_eq]
    exact joint.container path kind name chain children within

theorem expandList (joint : Joint left right relates) (same : right.registry = left.registry)
    (inner : ∀ path name,
      relates (left.touched chain name) path (left.included chain path name)
        (right.included chain path name)) :
    (plan : Plan) → ∀ path,
    relates (Outline.touchesList (left.touched chain) plan) path
      (left.expandList (left.touched chain) (left.included chain) path plan)
      (right.expandList (right.touched chain) (right.included chain) path plan)
  | [], path => joint.nothing path
  | tree :: rest, path =>
    joint.both (expand joint same inner tree path) (expandList joint same inner rest path)

end

/-- Inclusions, by induction on the chain. -/
theorem place (joint : Joint left right relates) (same : right.registry = left.registry)
    (chain : List String) : ∀ path plan,
    relates (left.registry.touches chain plan) path (left.place chain path plan)
      (right.place chain path plan) := by
  induction chain using left.registry.inclusion_induct with
  | step chain ih =>
    intro path plan
    rw [touches_eq, place_eq, place_eq]
    refine joint.expandList same (fun path name => ?_) plan path
    unfold touched included
    rw [same]
    cases entered : left.registry.enter chain name with
    | error fault => exact joint.unknown path fault
    | ok inner => exact ih name inner entered path inner

end Joint

section Copies

variable {resolver : Resolver}

/-- The slot for a node in a copied directory under its own name, down to the given depth. -/
def copied (resolver : Resolver) (depth : Nat) (path : Path) (child : Source) :
    Except BuildFault Slot :=
  match resolver.workspace.name child with
  | .error fault => .error (.unreadable (resolver.workspace.path child) (.refused fault))
  | .ok name => .ok (resolver.childSlot depth path child name)

theorem copy_succ (depth : Nat) (path : Path) (source : Source) :
    resolver.copy (depth + 1) path source =
      if resolver.workspace.isLive source = false then
        .error (.unreadable (resolver.workspace.path source) .deletedDirectory)
      else if resolver.workspace.isDirectory source = false then
        .error (.unreadable (resolver.workspace.path source) .notADirectory)
      else (resolver.workspace.children source).mapM (resolver.copied depth path) := by
  rw [copy]
  cases resolver.workspace.isLive source with
  | false => rfl
  | true =>
    cases resolver.workspace.isDirectory source with
    | false => rfl
    | true =>
      refine mapM_congr fun child _ => ?_
      unfold copied childSlot
      cases resolver.workspace.name child with
      | error fault => rfl
      | ok name => simp only; split <;> rfl

/-- Once a copy is allowed as many levels as there are nodes that may be below, more of them do not
matter. -/
theorem copy_deep (trees : resolver.workspace.Trees) {depth : Nat} (extra : Nat) (path : Path)
    {source : Source} (deep : (resolver.workspace.home source).nodes.length ≤ depth + source.node) :
    resolver.copy (depth + extra + 1) path source = resolver.copy (depth + 1) path source := by
  induction depth generalizing path source with
  | zero =>
    have dead : resolver.workspace.isLive source = false := FileSystem.isLive_eq_false (by omega)
    rw [copy_succ, copy_succ, if_pos dead, if_pos dead]
  | succ depth ih =>
    have same : ∀ child ∈ resolver.workspace.children source,
        resolver.copied (depth + 1 + extra) path child =
          resolver.copied (depth + 1) path child := by
      intro child listed
      have more := Workspace.node_lt_child trees listed
      have home := Workspace.home_child listed
      have inner (path : Path) := @ih path child (by rw [home]; lia)
      have levels : depth + 1 + extra = depth + extra + 1 := by omega
      unfold copied childSlot
      simp only [levels, inner]
    rw [copy_succ, copy_succ, mapM_congr same]

/-- The slot for a node in a copied directory is that of a file or of another copy. -/
theorem childSlot_eq (trees : resolver.workspace.Trees) {source child : Source}
    (listed : child ∈ resolver.workspace.children source) (path : Path) (name : Name) :
    ∃ recipe, resolver.childSlot (resolver.workspace.home source).nodes.length path child name =
      resolver.slot path recipe := by
  have more := Workspace.node_lt_child trees listed
  have home := Workspace.home_child listed
  unfold childSlot
  split
  · refine ⟨.copy name child, ?_⟩
    have tree : FileSystem.Tree (resolver.workspace.home source) := trees source.volume
    obtain ⟨levels, count⟩ := Nat.exists_eq_succ_of_ne_zero
      (Nat.ne_zero_of_lt (FileSystem.lt_length_of_isLive tree.rootLive))
    have deep := @copy_deep resolver trees levels 1 (path.push name) child (by rw [home]; lia)
    rw [slot, copyAll, home, count, Nat.succ_eq_add_one, deep]
  · exact ⟨.file name child, rfl⟩

/-- Whatever a plan puts into a container is the slot of a recipe. -/
theorem joint_recipes (trees : resolver.workspace.Trees) :
    Joint resolver resolver fun _ path slots _ =>
      ∀ all, slots = .ok all → ∀ slot ∈ all, ∃ recipe, slot = resolver.slot path recipe where
  nothing path all same slot present := by
    cases same
    cases present
  both {touches more path first first' rest rest'} here there all same slot present := by
    obtain ⟨ahead, made, same⟩ := bind_ok_iff.mp same
    obtain ⟨behind, made', same⟩ := bind_ok_iff.mp same
    cases same
    rcases List.mem_append.mp present with present | present
    · exact here ahead made slot present
    · exact there behind made' slot present
  file path source all same slot present := by
    unfold sourceSlots at same
    split at same
    · cases same
    · next name named =>
      cases same
      exact ⟨.file name source, List.mem_singleton.mp present⟩
  copy path source all same slot present := by
    obtain ⟨_, _, each⟩ := copy_eq_ok.mp same
    obtain ⟨child, listed, name, _, rfl⟩ := exists_of_mem_right each present
    exact childSlot_eq trees listed path name
  container path kind name chain children _ all same slot present := by
    cases same
    exact ⟨_, List.mem_singleton.mp present⟩
  unknown path fault all same := nomatch same

theorem place_recipes (trees : resolver.workspace.Trees) {chain : List String}
    {path : Path} {plan : Plan}
    {slots : List Slot} (placed : resolver.place chain path plan = .ok slots) :
    ∀ slot ∈ slots, ∃ recipe, slot = resolver.slot path recipe :=
  (joint_recipes trees).place rfl chain path plan slots placed

end Copies

end Resolver

end Depot
