import Depot.Proofs.FileSystem.Index
import Depot.Proofs.Path.Flat

set_option autoImplicit false

namespace Depot.FileSystem

variable {fs after : FileSystem}

section Insert

variable {parent : NodeId} {name : Name} {content : Content}

theorem names_insert_of_lt {id : NodeId} (inside : id < fs.nodes.length) :
    (fs.insert parent name content).2.names id = fs.names id := by
  refine names_congr fun other below => ?_
  have old : other ≠ fs.nodes.length := by lia
  rw [place?_insert, if_neg old]

theorem path_insert_new (later : Tree (fs.insert parent name content).2)
    (alive : fs.isLive parent = true) :
    (fs.insert parent name content).2.path fs.nodes.length = (fs.path parent).push name := by
  have placed : (fs.insert parent name content).2.place? fs.nodes.length = some ⟨parent, name⟩ := by
    rw [place?_insert, if_pos rfl]
  rw [path, later.names_child placed, names_insert_of_lt (lt_length_of_isLive alive)]
  rfl

/-- A new node is put where there was nothing. -/
theorem Tree.index_insert (tree : Tree fs) (alive : fs.isLive parent = true)
    (directory : fs.isDirectory parent = true) (absent : fs.child? parent name = none)
    (childless : content.listing = []) :
    (fs.insert parent name content).2.index = fs.index.put ((fs.path parent).push name)
      ⟨fs.nodes.length, content.bytes?, fs.lastStamp + 1, true⟩ := by
  have later := tree.insert alive directory absent childless
  have vacant := (tree.index_push_eq_none alive).mpr absent
  have place := path_insert_new later alive
  refine later.index_eq fun path occupant => ?_
  rw [isLive_insert, occupant?_insert, Index.put]
  by_cases new : occupant.node = fs.nodes.length
  · -- an occupant of this number can only be the new one
    simp only [new, if_true, place, true_and]
    constructor
    · intro shown
      split at shown
      · next same => exact ⟨same.symm, shown⟩
      · have known := lt_length_of_isLive (tree.index_eq_some.mp shown).1
        lia
    · rintro ⟨same, shown⟩
      rw [if_pos same.symm, shown]
  · simp only [new, if_false]
    have old : fs.isLive occupant.node = true →
        (fs.insert parent name content).2.path occupant.node = fs.path occupant.node := by
      intro live
      rw [FileSystem.path, names_insert_of_lt (lt_length_of_isLive live), FileSystem.path]
    constructor
    · intro shown
      split at shown
      · cases shown
        exact absurd rfl new
      · obtain ⟨live, spelled, held⟩ := tree.index_eq_some.mp shown
        exact ⟨live, (old live).trans spelled, held⟩
    · rintro ⟨live, spelled, held⟩
      have shown := tree.index_eq_some.mpr ⟨live, (old live).symm.trans spelled, held⟩
      have elsewhere : path ≠ (fs.path parent).push name := by
        rintro rfl
        rw [vacant] at shown
        cases shown
      rw [if_neg elsewhere, shown]

/-- A new node comes last. -/
theorem Tree.census_insert (tree : Tree fs) (alive : fs.isLive parent = true)
    (directory : fs.isDirectory parent = true) (absent : fs.child? parent name = none)
    (childless : content.listing = []) :
    (fs.insert parent name content).2.census =
      fs.census ++ [((fs.path parent).push name,
        ⟨fs.nodes.length, content.bytes?, fs.lastStamp + 1, true⟩)] := by
  have place := path_insert_new (tree.insert alive directory absent childless) alive
  have live : ∀ id ∈ List.range fs.nodes.length,
      (fs.insert parent name content).2.isLive id = fs.isLive id := by
    intro id inside
    rw [isLive_insert, if_neg (Nat.ne_of_lt (List.mem_range.mp inside))]
  have shown : ∀ id ∈ (List.range fs.nodes.length).filter fs.isLive,
      ((fs.insert parent name content).2.occupant? id).map
          (fun occupant => ((fs.insert parent name content).2.path id, occupant)) =
        (fs.occupant? id).map fun occupant => (fs.path id, occupant) := by
    intro id present
    have inside := List.mem_range.mp (List.mem_filter.mp present).1
    rw [occupant?_insert, if_neg (Nat.ne_of_lt inside), path, names_insert_of_lt inside, path]
  have new : [fs.nodes.length].filter (fs.insert parent name content).2.isLive =
      [fs.nodes.length] := by
    simp [isLive_insert]
  rw [census, length_insert, List.range_succ, List.filter_append, List.filterMap_append,
    List.filter_congr live, List.filterMap_congr shown, new, census]
  simp [occupant?_insert, place]

end Insert

/-- The directories that are there are passed, by induction on their names. -/
theorem makeDirectories_append {id last : NodeId} {names : List Name} (more : List Name)
    (found : fs.descend? id names = some last) (directory : fs.isDirectory last = true) :
    fs.makeDirectories id (names ++ more) = fs.makeDirectories last more := by
  induction names generalizing id with
  | nil =>
    cases found
    rfl
  | cons name rest ih =>
    obtain ⟨child, named, found⟩ := Option.bind_eq_some_iff.mp found
    have kind : fs.isDirectory child = true := by
      cases rest with
      | nil =>
        cases found
        exact directory
      | cons next rest =>
        obtain ⟨inner, named', _⟩ := Option.bind_eq_some_iff.mp found
        exact isDirectory_of_children (child?_eq_some named').1
    rw [List.cons_append, makeDirectories, named]
    simp only [kind, if_true]
    exact ih found

section Missing

variable {path : Path} {name : Name} {id : NodeId}
  (textual : ∀ other ∈ (path.push name).names, other.Textual)
  (found : fs.find? path = some id) (directory : fs.isDirectory id = true)
  (absent : fs.child? id name = none)

include textual found directory absent

/-- A directory that is missing in a directory that is there. -/
theorem createDirectory_missing :
    fs.createDirectory (path.push name).display = .ok (fs.insert id name (.directory [])) := by
  have made : fs.makeDirectories rootId (path.push name).names =
      .ok (fs.insert id name (.directory [])) := by
    rw [Path.push, makeDirectories_append [name] found directory, makeDirectories, absent]
    rfl
  exact createDirectory_eq_ok.mpr ⟨path.push name, Path.ofString_display textual, made⟩

/-- A file that is missing in a directory that is there. -/
theorem createFile_missing (content : Bytes) :
    fs.createFile (path.push name).display content = .ok (fs.insert id name (.file content)) := by
  have passed : fs.makeDirectories rootId path.names = .ok (id, fs) := by
    have passed := makeDirectories_append [] found directory
    rwa [List.append_nil] at passed
  exact createFile_eq_ok.mpr
    ⟨path.push name, path.names, name, id, fs, Path.ofString_display textual, rfl,
      passed, absent, rfl⟩

end Missing

/-- What following names from a directory does: the last node is at the end of the names, and the
directories that were missing on the way are new. -/
structure Paves (fs : FileSystem) (path : Path) (names : List Name) (last : NodeId)
    (after : FileSystem) : Prop where
  index : after.index = fs.index.grow fs.nodes.length (fs.lastStamp + 1)
    ((fs.index.missing path names).map fun other => (other, none))
  length : after.nodes.length = fs.nodes.length + (fs.index.missing path names).length
  lastStamp : after.lastStamp = fs.lastStamp.after (fs.index.missing path names).length
  path : after.path last = ⟨path.names ++ names⟩

/-- Each step leads to a directory that is there or to a new one, by induction on the names. -/
theorem Tree.makeDirectories_paves (tree : Tree fs) {id last : NodeId} {names : List Name}
    (alive : fs.isLive id = true) (directory : fs.isDirectory id = true)
    (made : fs.makeDirectories id names = .ok (last, after)) :
    Paves fs (fs.path id) names last after := by
  induction names generalizing fs id with
  | nil =>
    cases made
    exact ⟨rfl, rfl, (Stamp.after_zero _).symm, by simp⟩
  | cons name rest ih =>
    unfold makeDirectories at made
    split at made
    · next child found =>
      split at made
      · next kind =>
        obtain ⟨live, below⟩ := tree.path_child? alive found
        have present : (fs.index ((fs.path id).push name)).isSome := by
          have shown := tree.index_push alive name
          rw [found] at shown
          obtain ⟨occupant, shown, _⟩ := Option.map_eq_some_iff.mp shown
          simp [shown]
        have paves := ih tree live kind made
        rw [below] at paves
        have whole := fs.index.missing_of_present rest present
        exact ⟨whole ▸ paves.index, whole ▸ paves.length, whole ▸ paves.lastStamp, by
          simp [paves.path, Path.push]⟩
      · cases made
    · next absent =>
      let middle := (fs.insert id name (.directory [])).2
      have later : Tree middle := tree.insert alive directory absent rfl
      have grown : middle.index = fs.index.put ((fs.path id).push name) _ :=
        tree.index_insert alive directory absent rfl
      have paves : Paves middle (middle.path fs.nodes.length) rest last after :=
        ih later (by simp [middle, isLive_insert]) (by simp [middle, isDirectory_insert]) made
      rw [path_insert_new later alive] at paves
      have whole : fs.index.missing (fs.path id) (name :: rest) =
          (fs.path id).push name :: middle.index.missing ((fs.path id).push name) rest := by
        rw [grown, Index.missing_put]
        exact Index.missing_of_absent rest ((tree.index_push_eq_none alive).mpr absent)
      have length : middle.nodes.length = fs.nodes.length + 1 := length_insert ..
      have stamp : middle.lastStamp = fs.lastStamp + 1 := rfl
      refine ⟨?_, ?_, ?_, by simp [paves.path, Path.push]⟩
      · rw [paves.index, whole, List.map_cons, Index.grow, ← Content.bytes?, ← grown, length, stamp]
      · rw [paves.length, whole, length, List.length_cons]
        omega
      · rw [paves.lastStamp, whole, stamp, List.length_cons, Stamp.next_after]

theorem index_createDirectory (tree : Tree fs) {id : NodeId} {text : String}
    (made : fs.createDirectory text = .ok (id, after)) :
    ∃ path, Path.ofString text = .ok path ∧
      after.index = fs.index.grow fs.nodes.length (fs.lastStamp + 1)
        ((fs.index.missing .root path.names).map fun other => (other, none)) := by
  obtain ⟨path, read, made⟩ := createDirectory_eq_ok.mp made
  have paves := tree.makeDirectories_paves tree.rootLive tree.rootDirectory made
  exact ⟨path, read, tree.path_root ▸ paves.index⟩

/-- The file comes last, as there was nothing at its path. -/
theorem index_createFile (tree : Tree fs) {id : NodeId} {text : String} {content : Bytes}
    (made : fs.createFile text content = .ok (id, after)) :
    ∃ path, Path.ofString text = .ok path ∧
      after.index = fs.index.grow fs.nodes.length (fs.lastStamp + 1)
        ((fs.index.missing .root path.names).map fun other =>
          (other, if other = path then some content else none)) := by
  obtain ⟨path, around, name, directory, middle, read, names, placed, absent, inserted⟩ :=
    createFile_eq_ok.mp made
  have paves := tree.makeDirectories_paves tree.rootLive tree.rootDirectory placed
  obtain ⟨extended, alive, kind⟩ :=
    Extends.makeDirectories tree tree.rootLive tree.rootDirectory placed
  rw [tree.path_root] at paves
  have whole : (middle.path directory).push name = path := by
    rw [paves.path, Path.push, Path.root, List.nil_append, ← names]
  -- the file is deeper than the directories around it
  have apart : ∀ other ∈ fs.index.missing .root around, other ≠ path := by
    rintro other passed rfl
    have bounds := (Path.length_of_mem_along (List.mem_filter.mp passed).1).2
    rw [names, List.length_append] at bounds
    simp only [Path.root, List.length_nil, List.length_singleton] at bounds
    omega
  have vacant : fs.index path = none := by
    have nothing := (extended.tree.index_push_eq_none alive).mpr absent
    rw [whole, paves.index, Index.grow_of_not_mem] at nothing
    · exact nothing
    · intro present
      obtain ⟨⟨_, _⟩, passed, rfl⟩ := List.mem_map.mp present
      obtain ⟨other, missing, same⟩ := List.mem_map.mp passed
      cases same
      exact apart _ missing rfl
  have missing : fs.index.missing .root path.names = fs.index.missing .root around ++ [path] := by
    rw [names, Index.missing, Path.along_append, List.filter_append]
    have last : (Path.mk (Path.root.names ++ around)).along [name] = [path] := by
      rw [← whole, paves.path]
      rfl
    rw [last]
    simp [vacant, Index.missing]
  refine ⟨path, read, ?_⟩
  have childless : (Content.file content).listing = [] := rfl
  have grown := extended.tree.index_insert alive kind absent childless
  rw [inserted, whole, paves.length, paves.lastStamp, Stamp.after_next] at grown
  have directories : ((fs.index.missing .root around).map fun other =>
      (other, if other = path then some content else none)) =
      (fs.index.missing .root around).map fun other => (other, none) :=
    List.map_congr_left fun other passed => by rw [if_neg (apart other passed)]
  rw [missing, List.map_append, directories, Index.grow_append, ← paves.index, List.length_map]
  simpa [Index.grow, Content.bytes?] using grown

namespace Session

def Remaps (session : Session) (after : Index) : Command → Prop
  -- what is missing on the way to the path is new, with the file at the end
  | .createFile text content => ∃ path, Path.ofString text = .ok path ∧
      after = session.files.index.grow session.files.nodes.length (session.files.lastStamp + 1)
        ((session.files.index.missing .root path.names).map fun other =>
          (other, if other = path then some content else none))
  | .createDirectory text => ∃ path, Path.ofString text = .ok path ∧
      after = session.files.index.grow session.files.nodes.length (session.files.lastStamp + 1)
        ((session.files.index.missing .root path.names).map fun other => (other, none))
  -- the paths of the node and of all below it change
  | .rename id _ text => ∃ name, Name.ofString text = .ok name ∧
      ∀ path occupant, after path = some occupant ↔
        ∃ former, former.renamed (session.files.path id) name = path ∧
          session.files.index former = some occupant
  -- only what is known of one node changes
  | .setContent id _ content announce => after = session.files.index.revise id fun occupant =>
      { occupant with
        bytes? := some content
        stamp := if announce then session.files.lastStamp + 1 else occupant.stamp }
  | .setWritable id writable => after = session.files.index.revise id fun occupant =>
      { occupant with writable }
  | .closeStream index =>
    match session.stream? index with
    | some stream => after = session.files.index.revise stream.node fun occupant =>
        { occupant with bytes? := some stream.buffer, stamp := stream.stamp }
    | none => after = session.files.index
  | .delete id _ => after = session.files.index.without (session.files.path id)
  | .nextStamp | .openStream .. | .write .. | .dropStream _ => after = session.files.index

variable {session : Session}

/-- One step of a history. -/
theorem step_remaps (tree : Tree session.files) {command : Command}
    (accepted : session.accepts command = true) :
    session.Remaps (session.step command).files.index command := by
  have later := (step_continues tree command).tree
  obtain ⟨refused, _⟩ | ⟨_, made⟩ := session.step_cases command
  · rw [accepted] at refused
    cases refused
  generalize (session.step command).files = after at made later ⊢
  cases made with
  | createFile made => exact index_createFile tree made
  | createDirectory made => exact index_createDirectory tree made
  | rename renamed => exact index_rename tree later renamed
  | setContent changed =>
    exact index_revised tree later (setContent_alike changed).1 (fun _ => rfl)
      (occupant?_setContent changed)
  | setWritable =>
    exact index_revised tree later setWritable_alike.1 (fun _ => rfl) occupant?_setWritable
  | delete deleted =>
    obtain ⟨parent, _, alive, change⟩ := tree.delete_eq_ok deleted
    exact change.index tree later alive (occupant?_delete deleted)
  | nextStamp => exact index_congr tree later (fun _ => rfl) (fun _ => rfl) fun _ => rfl
  | openStream opened => exact rfl
  | write => exact rfl
  | closeStream opened closed =>
    simp only [Remaps, opened]
    exact index_revised tree later (closeStream_alike closed).1 (fun _ => rfl)
      (occupant?_closeStream closed)
  | closeNothing absent => simp only [Remaps, absent]
  | dropStream => exact rfl

/-- What is dated while a command runs, as long as the counter stays below the last stamp. -/
structure Dates (before : FileSystem) (after : Index) : Prop where
  newer : ∀ path occupant, after path = some occupant → before.nodes.length ≤ occupant.node →
    before.lastStamp < occupant.stamp
  ascending : ∀ path occupant other further, after path = some occupant →
    after other = some further → before.nodes.length ≤ occupant.node →
    occupant.node < further.node → occupant.stamp < further.stamp

theorem step_dates (tree : Tree session.files) {command : Command}
    (affords : session.files.Affords (session.draws command)) :
    Dates session.files (session.step command).files.index := by
  have ages := step_ages tree command
  have known : ∀ path occupant, (session.step command).files.index path = some occupant →
      occupant.node < (session.step command).files.nodes.length ∧
        (session.step command).files.stamp occupant.node = occupant.stamp := by
    intro path occupant shown
    obtain ⟨alive, _, held⟩ := (step_continues tree command).tree.index_eq_some.mp shown
    refine ⟨lt_length_of_isLive alive, ?_⟩
    rw [stamp_eq, held]
    rfl
  refine ⟨fun path occupant shown new => ?_,
    fun path occupant other further shown found new lt => ?_⟩
  · obtain ⟨inside, dated⟩ := known path occupant shown
    exact dated ▸ ages.lt_fresh affords new inside
  · obtain ⟨inside, later⟩ := known other further found
    rw [← (known path occupant shown).2, ← later]
    exact ages.fresh_lt_fresh affords new lt inside

/-- After every history, the file system is a map from paths to what is there. It holds the live
nodes, each at its path; finding a node is looking its path up; what is new has a greater number
than all that are there; and each command changes the map as it says, and nowhere else. As long as
the counter stays below the last stamp, what is new also has a greater stamp than all that are
there, and new stamps ascend. -/
theorem run_refines (commands : List Command) (command : Command) :
    let session := start.run commands
    let fs := session.files
    let after := (session.step command).files
    (∀ path occupant, fs.index path = some occupant ↔
      fs.isLive occupant.node = true ∧ fs.path occupant.node = path ∧
        fs.occupant? occupant.node = some occupant) ∧
    (∀ path, fs.find? path = (fs.index path).map Occupant.node) ∧
    (∀ text, fs.findText? text =
      (Path.ofString text).toOption.bind fun path => (fs.index path).map Occupant.node) ∧
    (∀ path occupant, fs.index path = some occupant → occupant.node < fs.nodes.length) ∧
    (session.accepts command = true → session.Remaps after.index command) ∧
    (start.Below commands →
      ∀ path occupant, fs.index path = some occupant → occupant.stamp ≤ fs.lastStamp) ∧
    (start.Below (commands ++ [command]) → Dates fs after.index) := by
  intro session fs after
  have tree : Tree fs := tree_run commands
  refine ⟨fun path occupant => tree.index_eq_some, tree.find?_eq_index, fun text => ?_,
    fun path occupant shown => ?_, step_remaps tree, fun below path occupant shown => ?_,
    fun below => step_dates tree (below_append below).2.draws⟩
  · unfold findText?
    cases Path.ofString text with
    | error fault => rfl
    | ok path => exact tree.find?_eq_index path
  · exact lt_length_of_isLive (tree.index_eq_some.mp shown).1
  · obtain ⟨_, _, held⟩ := tree.index_eq_some.mp shown
    have known := run_timely below occupant.node
    rwa [stamp_eq, held] at known

theorem run_refines_created :
    let session := start.run writing
    let after := (session.step (.createFile "b" [4])).files.index
    Dates session.files after ∧ after ⟨[⟨[98], by decide⟩]⟩ = some ⟨2, some [4], 4, true⟩ := by
  obtain ⟨_, _, _, _, _, _, dates⟩ := run_refines writing (.createFile "b" [4])
  exact ⟨dates (by decide +kernel), by decide +kernel⟩

/-- After the last stamp, the counter starts again from 0. -/
theorem created_with_older_stamp :
    let session := start.run exhausting
    session.files.index ⟨[⟨[97], by decide⟩]⟩ = some ⟨1, some [1], 18446744073709551615, true⟩ ∧
      session.accepts (.createFile "b" []) = true ∧
      (session.step (.createFile "b" [])).files.index ⟨[⟨[98], by decide⟩]⟩ =
        some ⟨2, some [], 0, true⟩ := by
  decide +kernel

end Session

end Depot.FileSystem
