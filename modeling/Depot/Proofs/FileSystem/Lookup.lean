import Depot.Proofs.FileSystem.Creation
import Mathlib.Data.List.Sort

set_option autoImplicit false

namespace Depot.FileSystem

variable {fs : FileSystem}

/-- The nodes that are reached from the root through the lists of directories. -/
inductive Reached (fs : FileSystem) : NodeId → Prop where
  | root : Reached fs rootId
  | child {id child : NodeId} (above : Reached fs id) (listed : child ∈ fs.children id) :
    Reached fs child

/-- The nodes that have not been deleted and are directly in a directory, in the order in which they
were created. -/
def residents (fs : FileSystem) (id : NodeId) : List NodeId :=
  (List.range fs.nodes.length).filter fun child => fs.isLive child && fs.parent? child == some id

theorem mem_residents {id child : NodeId} :
    child ∈ fs.residents id ↔ fs.isLive child = true ∧ fs.parent? child = some id := by
  simp only [residents, List.mem_filter, List.mem_range, Bool.and_eq_true, beq_iff_eq]
  constructor
  · exact And.right
  · intro held
    exact ⟨lt_length_of_isLive held.1, held⟩

theorem child?_of_file {id : NodeId} (file : fs.isDirectory id = false) (name : Name) :
    fs.child? id name = none := by
  cases found : fs.child? id name with
  | none => rfl
  | some child =>
    have directory := isDirectory_of_children (child?_eq_some found).1
    rw [file] at directory
    cases directory

theorem descend?_append (id : NodeId) (first second : List Name) :
    fs.descend? id (first ++ second) =
      (fs.descend? id first).bind fun middle => fs.descend? middle second := by
  induction first generalizing id with
  | nil => rfl
  | cons name rest ih =>
    simp only [List.cons_append, descend?, Option.bind_assoc]
    congr 1
    funext child
    exact ih child

namespace Tree

variable (tree : Tree fs)

include tree

theorem reached_iff (id : NodeId) : Reached fs id ↔ fs.isLive id = true := by
  constructor
  · intro reached
    induction reached with
    | root => exact tree.rootLive
    | child _ listed ih => exact (tree.listed _ _ listed).2.trans ih
  · induction id using Nat.strongRecOn with
    | ind id ih =>
      intro alive
      by_cases rooted : id = rootId
      · exact rooted ▸ .root
      · obtain ⟨parent, held⟩ := tree.exists_parent (lt_length_of_isLive alive) rooted
        obtain ⟨parentLive, listed⟩ := tree.held id parent alive held
        exact .child (ih parent (tree.lt_of_parent held) parentLive) listed

theorem names_root : fs.names rootId = [] := by
  rw [names, tree.rootUnplaced]

theorem path_root : fs.path rootId = .root :=
  congrArg Path.mk tree.names_root

theorem names_child {id parent : NodeId} {name : Name}
    (placed : fs.place? id = some ⟨parent, name⟩) :
    fs.names id = fs.names parent ++ [name] := by
  have less := tree.lt_of_parent (parent?_eq_some.mpr ⟨name, placed⟩)
  rw [names, placed]
  simp [less]

/-- A node that a live directory lists is found there by its name. -/
theorem child?_eq {id child : NodeId} {name : Name} (alive : fs.isLive id = true)
    (listed : child ∈ fs.children id) (placed : fs.place? child = some ⟨id, name⟩) :
    fs.child? id name = some child := by
  cases found : fs.child? id name with
  | none => exact absurd placed (child?_eq_none found listed)
  | some other =>
    obtain ⟨otherListed, parent, otherPlaced⟩ := child?_eq_some found
    obtain ⟨otherName, otherHeld⟩ := parent?_eq_some.mp (tree.listed id other otherListed).1
    rw [otherPlaced] at otherHeld
    cases otherHeld
    rw [tree.distinct id child other name alive listed otherListed placed otherPlaced]

theorem path_child? {id child : NodeId} {name : Name} (alive : fs.isLive id = true)
    (found : fs.child? id name = some child) :
    fs.isLive child = true ∧ fs.path child = (fs.path id).push name := by
  obtain ⟨listed, parent, placed⟩ := child?_eq_some found
  obtain ⟨held, same⟩ := tree.listed id child listed
  obtain ⟨shared, placed'⟩ := parent?_eq_some.mp held
  rw [placed] at placed'
  cases placed'
  exact ⟨same.trans alive, congrArg Path.mk (tree.names_child placed)⟩

theorem descend?_eq_some {start id : NodeId} {names : List Name} (alive : fs.isLive start = true)
    (found : fs.descend? start names = some id) :
    fs.isLive id = true ∧ fs.names id = fs.names start ++ names := by
  induction names generalizing start with
  | nil =>
    cases found
    exact ⟨alive, by simp⟩
  | cons name rest ih =>
    simp only [descend?, Option.bind_eq_some_iff] at found
    obtain ⟨child, named, found⟩ := found
    obtain ⟨childLive, below⟩ := tree.path_child? alive named
    obtain ⟨idLive, spelled⟩ := ih childLive found
    refine ⟨idLive, ?_⟩
    have names : fs.names child = fs.names start ++ [name] := congrArg Path.names below
    rw [spelled, names, List.append_assoc]
    rfl

/-- What is found below a node is held by it. -/
theorem isAncestor_of_descend? {start id : NodeId} {names : List Name}
    (found : fs.descend? start names = some id) : fs.isAncestor start id = true := by
  induction names generalizing start with
  | nil =>
    cases found
    exact isAncestor_self id
  | cons name rest ih =>
    obtain ⟨child, named, found⟩ := Option.bind_eq_some_iff.mp found
    have held := (tree.listed start child (child?_eq_some named).1).1
    exact isAncestor_trans ((tree.isAncestor_child held).mpr (.inr (isAncestor_self start)))
      (ih found)

theorem find?_eq_some {path : Path} {id : NodeId} (found : fs.find? path = some id) :
    fs.isLive id = true ∧ fs.path id = path := by
  obtain ⟨alive, spelled⟩ := tree.descend?_eq_some tree.rootLive found
  refine ⟨alive, ?_⟩
  rw [tree.names_root, List.nil_append] at spelled
  rw [FileSystem.path, spelled]

theorem find?_path {id : NodeId} (alive : fs.isLive id = true) :
    fs.find? (fs.path id) = some id := by
  unfold find? path
  induction id using Nat.strongRecOn with
  | ind id ih =>
    by_cases rooted : id = rootId
    · rw [rooted, tree.names_root]
      rfl
    · obtain ⟨parent, held⟩ := tree.exists_parent (lt_length_of_isLive alive) rooted
      obtain ⟨name, placed⟩ := parent?_eq_some.mp held
      obtain ⟨parentLive, listed⟩ := tree.held id parent alive held
      rw [tree.names_child placed, descend?_append, ih parent (tree.lt_of_parent held) parentLive]
      simp [descend?, tree.child?_eq parentLive listed placed]

/-- A live node apart from the root is listed once, and nowhere but in its parent. -/
theorem listed_once {id : NodeId} (alive : fs.isLive id = true) (unequal : id ≠ rootId) :
    ∃ parent, fs.parent? id = some parent ∧ fs.isLive parent = true ∧
      fs.isDirectory parent = true ∧ (fs.children parent).count id = 1 ∧
      ∀ other, id ∈ fs.children other → other = parent := by
  obtain ⟨parent, held⟩ := tree.exists_parent (lt_length_of_isLive alive) unequal
  obtain ⟨parentLive, listed⟩ := tree.held id parent alive held
  have nodup : (fs.children parent).Nodup :=
    (tree.ascending parent).imp fun less => Nat.ne_of_lt less
  refine ⟨parent, held, parentLive, isDirectory_of_children listed, ?_, fun other present => ?_⟩
  · rw [nodup.count, if_pos listed]
  · have otherHeld := (tree.listed other id present).1
    rw [held] at otherHeld
    exact (Option.some.inj otherHeld).symm

theorem names_distinct {id : NodeId} (alive : fs.isLive id = true) :
    (fs.children id).Pairwise fun left right => fs.name left ≠ fs.name right := by
  refine (tree.ascending id).imp_of_mem fun {left right} leftListed rightListed less same => ?_
  obtain ⟨leftName, leftPlaced⟩ := parent?_eq_some.mp (tree.listed id left leftListed).1
  obtain ⟨rightName, rightPlaced⟩ := parent?_eq_some.mp (tree.listed id right rightListed).1
  simp only [name, leftPlaced, rightPlaced, Except.ok.injEq] at same
  subst same
  have equal := tree.distinct id left right leftName alive leftListed rightListed
    leftPlaced rightPlaced
  exact Nat.ne_of_lt less equal

theorem children_eq_residents {id : NodeId} (alive : fs.isLive id = true) :
    fs.children id = fs.residents id := by
  have ordered : (fs.residents id).Pairwise (· < ·) := List.pairwise_lt_range.filter _
  refine (tree.ascending id).eq_of_mem_iff ordered fun child => ?_
  rw [mem_residents]
  constructor
  · intro listed
    obtain ⟨held, same⟩ := tree.listed id child listed
    exact ⟨same.trans alive, held⟩
  · intro ⟨childLive, held⟩
    exact (tree.held child id childLive held).2

/-- What is found at the end of a chain of names is the node with these names below the start. -/
theorem descend?_iff {start id : NodeId} {names : List Name}
    (alive : fs.isLive start = true) :
    fs.descend? start names = some id ↔
      fs.isLive id = true ∧ fs.names id = fs.names start ++ names := by
  constructor
  · exact tree.descend?_eq_some alive
  · intro ⟨idLive, spelled⟩
    have fromRoot : fs.descend? rootId (fs.names id) = some id := tree.find?_path idLive
    have toStart : fs.descend? rootId (fs.names start) = some start := tree.find?_path alive
    rwa [spelled, descend?_append, toStart] at fromRoot

end Tree

end Depot.FileSystem
