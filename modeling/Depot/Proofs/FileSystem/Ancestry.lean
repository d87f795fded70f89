import Depot.Proofs.FileSystem.Index
import Mathlib.Order.Defs.Unbundled

set_option autoImplicit false

namespace Depot.FileSystem

variable {fs before after : FileSystem}

theorem isAncestor_antisymm {left right : NodeId} (down : fs.isAncestor left right = true)
    (up : fs.isAncestor right left = true) : left = right :=
  Nat.le_antisymm (le_of_isAncestor down) (le_of_isAncestor up)

/-- The nodes are partially ordered by what they hold. -/
theorem isAncestor_partialOrder (fs : FileSystem) :
    IsPartialOrder { id // fs.isLive id = true } fun ancestor id =>
      fs.isAncestor ancestor.1 id.1 = true where
  refl id := isAncestor_self id.1
  trans _ _ _ := isAncestor_trans
  antisymm _ _ down up := Subtype.ext (isAncestor_antisymm down up)

theorem Tree.isAncestor_root (tree : Tree fs) {id : NodeId} (alive : fs.isLive id = true) :
    fs.isAncestor rootId id = true := by
  apply (tree.isAncestor_iff_prefix tree.rootLive alive).mpr
  rw [tree.names_root]
  exact List.nil_prefix

/-- A renaming leaves every node in the directory that holds it. -/
theorem rename_parent? {id : NodeId} {requestor text : String}
    (renamed : before.rename id requestor text = .ok after) (other : NodeId) :
    after.parent? other = before.parent? other := by
  rcases rename_eq_ok renamed with rfl | ⟨parent, old, name, _, placed, _, _, change⟩
  · rfl
  · exact change.parent? placed other

theorem rename_isLive {id : NodeId} {requestor text : String}
    (renamed : before.rename id requestor text = .ok after) (other : NodeId) :
    after.isLive other = before.isLive other := by
  rcases rename_eq_ok renamed with rfl | ⟨_, _, _, _, _, _, _, change⟩
  · rfl
  · exact change.live other

namespace Session

/-- Whether a renaming is refused or not, the same nodes hold the same nodes after it. -/
theorem step_rename (session : Session) (id : NodeId) (requestor text : String)
    (ancestor node : NodeId) :
    let after := (session.step (.rename id requestor text)).files
    after.isLive node = session.files.isLive node ∧
      after.isAncestor ancestor node = session.files.isAncestor ancestor node := by
  intro after
  rcases session.step_cases (.rename id requestor text) with ⟨_, same⟩ | ⟨_, made⟩
  · have still : after = session.files := same
    rw [still]
    exact ⟨rfl, rfl⟩
  · cases made with
    | rename renamed =>
      exact ⟨rename_isLive renamed node,
        isAncestor_congr fun other _ => rename_parent? renamed other⟩

/-- After every history, a live node holds another one if its path is a beginning of the other path.
So the live nodes are partially ordered, with the root below all others, the nodes that hold one
node are in a row, and this stays as it is when nodes are renamed. -/
theorem run_ancestry (commands : List Command) :
    let fs := (start.run commands).files
    (∀ ancestor id, fs.isLive ancestor = true → fs.isLive id = true →
      (fs.isAncestor ancestor id = true ↔ (fs.path ancestor).names <+: (fs.path id).names)) ∧
    (IsPartialOrder { id // fs.isLive id = true } fun ancestor id =>
      fs.isAncestor ancestor.1 id.1 = true) ∧
    (fs.isLive rootId = true ∧ ∀ id, fs.isLive id = true → fs.isAncestor rootId id = true) ∧
    (∀ left right id, fs.isAncestor left id = true → fs.isAncestor right id = true →
      fs.isAncestor left right = true ∨ fs.isAncestor right left = true) ∧
    ∀ id requestor text ancestor node,
      let after := ((start.run commands).step (.rename id requestor text)).files
      after.isLive node = fs.isLive node ∧
        after.isAncestor ancestor node = fs.isAncestor ancestor node := by
  intro fs
  have tree : Tree fs := tree_run commands
  refine ⟨fun ancestor id above alive => tree.isAncestor_iff_prefix above alive,
    isAncestor_partialOrder fs, ⟨tree.rootLive, fun id alive => tree.isAncestor_root alive⟩,
    fun left right id => isAncestor_total, fun id requestor text ancestor node => ?_⟩
  exact step_rename (start.run commands) id requestor text ancestor node

end Session

end Depot.FileSystem
