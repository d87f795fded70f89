import Depot.Proofs.FileSystem.Deletion
import Depot.Proofs.FileSystem.Editing
import Depot.Proofs.FileSystem.Lookup
import Depot.Proofs.FileSystem.Session
import Depot.Proofs.Outcome

set_option autoImplicit false

namespace Depot.FileSystem

theorem Tree.empty : Tree .empty := by
  have only : ∀ id, id ≠ rootId → FileSystem.empty.node? id = none := by
    intro id unequal
    exact List.getElem?_eq_none (Nat.pos_of_ne_zero unequal)
  have childless : ∀ id, FileSystem.empty.children id = [] := by
    intro id
    by_cases rooted : id = rootId
    · rw [rooted]
      rfl
    · simp [children_eq, only id rooted]
  have unplaced : ∀ id, FileSystem.empty.place? id = none := by
    intro id
    by_cases rooted : id = rootId
    · rw [rooted]
      rfl
    · simp [place?, only id rooted]
  refine ⟨rfl, rfl, rfl, fun id inside unequal => ?_, fun id child listed => ?_,
    fun id parent _ held => ?_, fun id => ?_, fun id left right name _ listed => ?_, rfl⟩
  · exact absurd (Nat.lt_one_iff.mp inside) unequal
  · simp [childless] at listed
  · simp [parent?, unplaced] at held
  · simp [childless]
  · simp [childless] at listed

/-- One file system comes after another as a tree after a tree. -/
structure Continues (touched : List NodeId) (before after : FileSystem) : Prop where
  tree : Tree after
  follows : Follows touched before after

namespace Session

variable {session : Session}

theorem adopt_continues {result : Except Fault FileSystem} {touched : FileSystem → List NodeId}
    (tree : Tree session.files)
    (continues : ∀ after, result = .ok after → Continues (touched after) session.files after) :
    Continues (match (session.adopt result touched).1
      with | .ok touched => touched | .error _ => [])
      session.files (session.adopt result touched).2.files := by
  cases result with
  | ok after => exact continues after rfl
  | error fault => exact ⟨tree, .refl _⟩

/-- One step of a history. -/
theorem step_continues (tree : Tree session.files) (command : Command) :
    Continues (session.touches command) session.files (session.step command).files := by
  have still : Continues [] session.files session.files := ⟨tree, .refl _⟩
  cases command with
  | createFile path content =>
    refine adopt_continues tree fun after created => ?_
    obtain ⟨⟨id, _⟩, made, rfl⟩ := map_ok_iff.mp created
    have extended := Extends.createFile tree made
    exact ⟨extended.tree, extended.follows⟩
  | createDirectory path =>
    refine adopt_continues tree fun after created => ?_
    obtain ⟨⟨id, _⟩, made, rfl⟩ := map_ok_iff.mp created
    have extended := Extends.createDirectory tree made
    exact ⟨extended.tree, extended.follows⟩
  | rename id requestor name =>
    refine adopt_continues tree fun after renamed => ?_
    rcases rename_eq_ok renamed with rfl | ⟨parent, old, name, _, placed, other, absent, change⟩
    · simpa using still
    · have touched : after.place? id ≠ session.files.place? id := by
        rw [change.place, if_pos rfl, placed]
        intro same
        cases same
        exact other rfl
      rw [if_neg touched]
      exact ⟨change.tree placed tree absent, change.follows placed⟩
  | setContent id requestor content announce =>
    refine adopt_continues tree fun after changed => ?_
    obtain ⟨alike, file⟩ := setContent_alike changed
    exact ⟨tree.congr alike,
      .of_alike alike fun other untouched => file other (by simpa using untouched)⟩
  | setWritable id writable =>
    obtain ⟨alike, file⟩ := @setWritable_alike session.files id writable
    exact ⟨tree.congr alike, .of_alike alike fun other _ => file other⟩
  | delete id requestor =>
    refine adopt_continues tree fun after deleted => ?_
    obtain ⟨parent, held, _, change⟩ := tree.delete_eq_ok deleted
    exact ⟨change.tree tree held, change.follows⟩
  | nextStamp =>
    have alike : Alike session.files session.files.nextStamp.2 :=
      ⟨rfl, fun _ => rfl, fun _ => rfl, fun _ => rfl, fun _ => rfl, rfl⟩
    exact ⟨tree.congr alike, .of_alike alike fun _ _ => rfl⟩
  | openStream id requestor stamp =>
    simp only [touches, step, perform]
    cases session.files.openStream id requestor stamp with
    | ok stream => exact still
    | error fault => exact still
  | write stream data => exact still
  | closeStream index =>
    simp only [touches, step, perform]
    cases session.stream? index with
    | none => exact still
    | some stream =>
      have closes : ∀ after, session.files.closeStream stream = .ok after →
          Continues [stream.node] (session.withoutStream index).files after := by
        intro after closed
        obtain ⟨alike, file⟩ := closeStream_alike closed
        exact ⟨tree.congr alike,
          .of_alike alike fun other untouched => file other (by simpa using untouched)⟩
      exact adopt_continues tree closes
  | dropStream stream => exact still

/-- All steps of a history, by induction on the commands. -/
theorem run_continues (tree : Tree session.files) (commands : List Command) :
    Continues (session.touched commands) session.files (session.run commands).files := by
  induction commands generalizing session with
  | nil => exact ⟨tree, .refl _⟩
  | cons command rest ih =>
    have first := step_continues tree command
    have others := ih first.tree
    exact ⟨others.tree, first.follows.trans others.follows⟩

theorem tree_run (commands : List Command) : Tree (start.run commands).files := by
  have continues : Continues (start.touched commands) start.files (start.run commands).files :=
    run_continues Tree.empty commands
  exact continues.tree

/-- After every history, and in every later state, the file system is one tree with two records of
it that agree. -/
theorem run_keeps_tree (first second : List Command) :
    let earlier := (start.run first).files
    let fs := (start.run (first ++ second)).files
    -- each number was given to one node, in ascending order, and stays with it
    (fs.createdNodes = List.range' 1 (fs.nodes.length - 1) ∧
      earlier.nodes.length ≤ fs.nodes.length ∧
      ∀ id, id < earlier.nodes.length →
        fs.parent? id = earlier.parent? id ∧ fs.isDirectory id = earlier.isDirectory id) ∧
    (∀ id, id < fs.nodes.length → id ≠ rootId → ∃ parent, fs.parent? id = some parent ∧
      parent < id) ∧
    -- the live nodes are those that the root reaches, and what is dead stays dead
    (∀ id, Reached fs id ↔ fs.isLive id = true) ∧
    (∀ id, id < earlier.nodes.length → earlier.isLive id = false → fs.isLive id = false) ∧
    -- a live node apart from the root is listed once, by its parent
    (∀ id, fs.isLive id = true → id ≠ rootId →
      ∃ parent, fs.parent? id = some parent ∧ fs.isLive parent = true ∧
        fs.isDirectory parent = true ∧ (fs.children parent).count id = 1 ∧
        ∀ other, id ∈ fs.children other → other = parent) ∧
    (∀ id, fs.isLive id = true →
      (fs.children id).Pairwise fun left right => fs.name left ≠ fs.name right) ∧
    -- paths and lookups are inverse to each other
    (∀ id, fs.isLive id = true → fs.find? (fs.path id) = some id) ∧
    (∀ path id, fs.find? path = some id → fs.isLive id = true ∧ fs.path id = path) := by
  intro earlier fs
  have tree : Tree fs := tree_run (first ++ second)
  have continues : Continues ((start.run first).touched second) earlier fs := by
    have later := run_continues (tree_run first) second
    rwa [← run_append] at later
  have follows := continues.follows
  refine ⟨⟨tree.numbered, follows.grows, fun id inside => ?_⟩, fun id inside unequal => ?_,
    tree.reached_iff, fun id inside dead => ?_, fun id alive unequal =>
      tree.listed_once alive unequal,
    fun id alive => tree.names_distinct alive, fun id alive => tree.find?_path alive,
    fun path id found => tree.find?_eq_some found⟩
  · exact ⟨follows.parent id inside, follows.kind id inside⟩
  · obtain ⟨parent, held⟩ := tree.exists_parent inside unequal
    exact ⟨parent, held, tree.lt_of_parent held⟩
  · cases alive : fs.isLive id with
    | false => rfl
    | true => simp [follows.live id inside alive] at dead

end Session

end Depot.FileSystem
