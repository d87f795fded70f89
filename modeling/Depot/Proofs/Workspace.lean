import Depot.Proofs.FileSystem.Comparison
import Depot.Proofs.FileSystem.History
import Depot.Build.Slot

set_option autoImplicit false

namespace Depot.Workspace

open FileSystem (Tree Follows)

/-- Every file system of a workspace is a tree. -/
def Trees (workspace : Workspace) : Prop :=
  ∀ index, Tree (workspace.volume index)

/-- One workspace comes after another, and between them at most the given nodes were touched. -/
def Follows (touched : List Source) (before after : Workspace) : Prop :=
  ∀ index, FileSystem.Follows ((touched.filter (·.volume = index)).map Source.node)
    (before.volume index) (after.volume index)

section Ancestors

variable {workspace : Workspace} {ancestor source child : Source}

theorem isAncestor_iff :
    workspace.isAncestor ancestor source = true ↔
      ancestor.volume = source.volume ∧
        (workspace.home source).isAncestor ancestor.node source.node = true := by
  simp [isAncestor]

@[simp]
theorem isAncestor_self (source : Source) : workspace.isAncestor source source = true := by
  simp [isAncestor]

theorem isAncestor_trans {third : Source} (upper : workspace.isAncestor ancestor source = true)
    (lower : workspace.isAncestor source third = true) :
    workspace.isAncestor ancestor third = true := by
  obtain ⟨upperVolume, upper⟩ := isAncestor_iff.mp upper
  obtain ⟨lowerVolume, lower⟩ := isAncestor_iff.mp lower
  refine isAncestor_iff.mpr ⟨upperVolume.trans lowerVolume, ?_⟩
  rw [home, lowerVolume] at upper
  exact FileSystem.isAncestor_trans upper lower

theorem mem_children :
    child ∈ workspace.children source ↔
      child.volume = source.volume ∧ child.node ∈ (workspace.home source).children source.node := by
  simp only [children, List.mem_map]
  constructor
  · rintro ⟨node, listed, rfl⟩
    exact ⟨rfl, listed⟩
  · rintro ⟨volume, listed⟩
    refine ⟨child.node, listed, ?_⟩
    cases child
    cases volume
    rfl

theorem home_child (listed : child ∈ workspace.children source) :
    workspace.home child = workspace.home source := by
  rw [home, home, (mem_children.mp listed).1]

theorem isAncestor_of_child (trees : workspace.Trees) (listed : child ∈ workspace.children source) :
    workspace.isAncestor ancestor child = true ↔
      ancestor = child ∨ workspace.isAncestor ancestor source = true := by
  have same := home_child listed
  obtain ⟨volume, present⟩ := mem_children.mp listed
  have tree : Tree (workspace.home source) := trees source.volume
  have held := (tree.listed source.node child.node present).1
  rw [isAncestor_iff, isAncestor_iff, same, volume, tree.isAncestor_child held]
  constructor
  · rintro ⟨sameVolume, equal | above⟩
    · left
      cases ancestor
      cases child
      cases equal
      cases volume
      cases sameVolume
      rfl
    · exact .inr ⟨sameVolume, above⟩
  · rintro (rfl | ⟨sameVolume, above⟩)
    · exact ⟨volume, .inl rfl⟩
    · exact ⟨sameVolume, .inr above⟩

theorem isLive_child (trees : workspace.Trees) (listed : child ∈ workspace.children source) :
    workspace.isLive child = workspace.isLive source := by
  have same := home_child listed
  have tree : Tree (workspace.home source) := trees source.volume
  rw [isLive, isLive, same]
  exact (tree.listed source.node child.node (mem_children.mp listed).2).2

/-- A directory has a smaller number than what it lists. -/
theorem node_lt_child (trees : workspace.Trees) (listed : child ∈ workspace.children source) :
    source.node < child.node := by
  have tree : Tree (workspace.home source) := trees source.volume
  exact tree.lt_of_parent (tree.listed source.node child.node (mem_children.mp listed).2).1

theorem isAncestor_parent (trees : workspace.Trees) (listed : child ∈ workspace.children source) :
    workspace.isAncestor source child = true :=
  (isAncestor_of_child trees listed).mpr (.inr (isAncestor_self source))

end Ancestors

def file? (workspace : Workspace) (source : Source) : Option (Bytes × Stamp) :=
  (workspace.home source).file? source.node

theorem read_eq_ok {workspace : Workspace} {source : Source} {content : Bytes} :
    workspace.read source = .ok content ↔
      workspace.isLive source = true ∧ workspace.file? source =
        some (content, workspace.stamp source) :=
  FileSystem.read_eq_ok

theorem mem_touched {pending : List Source} {index : Nat} {node : NodeId} :
    node ∈ (pending.filter (·.volume = index)).map Source.node ↔ ⟨index, node⟩ ∈ pending := by
  simp only [List.mem_map, List.mem_filter, decide_eq_true_eq]
  constructor
  · rintro ⟨source, ⟨present, rfl⟩, rfl⟩
    exact present
  · intro present
    exact ⟨_, ⟨present, rfl⟩, rfl⟩

theorem not_mem_touched {pending : List Source} {source : Source} (absent : source ∉ pending) :
    source.node ∉ (pending.filter (·.volume = source.volume)).map Source.node :=
  fun present => absent (mem_touched.mp present)

/-- A workspace of trees comes after another one, and between them at most the given nodes were
touched. -/
structure Evolves (pending : List Source) (before after : Workspace) : Prop where
  earlier : before.Trees
  later : after.Trees
  follows : Follows pending before after

namespace Evolves

variable {pending : List Source} {before after : Workspace} (evolves : Evolves pending before after)
  {source child : Source}

include evolves

theorem name_eq {name : Name} (named : before.name source = .ok name) (absent : source ∉ pending) :
    after.name source = .ok name := by
  simp only [Workspace.name, FileSystem.name] at named ⊢
  split at named
  · next place placed =>
    have inside := FileSystem.lt_length_of_place placed
    have same := (evolves.follows source.volume).place source.node inside (not_mem_touched absent)
    rw [home, same, ← home, placed]
    exact named
  · cases named

theorem isDirectory_eq (alive : before.isLive source = true) :
    after.isDirectory source = before.isDirectory source :=
  (evolves.follows source.volume).kind source.node (FileSystem.lt_length_of_isLive alive)

theorem file?_eq (alive : before.isLive source = true) (absent : source ∉ pending) :
    after.file? source = before.file? source :=
  (evolves.follows source.volume).file source.node (FileSystem.lt_length_of_isLive alive)
    (not_mem_touched absent)

theorem was_child (alive : after.isLive source = true) (listed : child ∈ after.children source)
    (absent : child ∉ pending) : child ∈ before.children source := by
  obtain ⟨volume, listed⟩ := mem_children.mp listed
  refine mem_children.mpr ⟨volume, ?_⟩
  have untouched := not_mem_touched absent
  rw [volume] at untouched
  exact (evolves.follows source.volume).was_child (evolves.earlier _) (evolves.later _) alive listed
    untouched

theorem children_eq (wasLive : before.isLive source = true) (alive : after.isLive source = true)
    (apart : ∀ changed ∈ pending, after.touchesCopy changed source = false) :
    after.children source = before.children source := by
  have same := (evolves.follows source.volume).children_eq (evolves.earlier _) (evolves.later _)
    wasLive alive fun node present => by
      have untouched := apart _ (mem_touched.mp present)
      simpa [touchesCopy, isAncestor, home, Bool.or_eq_false_iff] using untouched
  simp only [children, home, same]

end Evolves

end Depot.Workspace
