import Depot.FileSystem.Stream
import Depot.Proofs.FileSystem.Creation
import Depot.Proofs.Outcome

set_option autoImplicit false

namespace Depot.FileSystem

variable {fs before after : FileSystem}

/-- Two file systems have the same nodes at the same places. -/
structure Alike (before after : FileSystem) : Prop where
  length : after.nodes.length = before.nodes.length
  place : ∀ id, after.place? id = before.place? id
  children : ∀ id, after.children id = before.children id
  live : ∀ id, after.isLive id = before.isLive id
  kind : ∀ id, after.isDirectory id = before.isDirectory id
  created : after.createdNodes = before.createdNodes

theorem Tree.congr (tree : Tree before) (alike : Alike before after) : Tree after where
  rootLive := by rw [alike.live, tree.rootLive]
  rootDirectory := by rw [alike.kind, tree.rootDirectory]
  rootUnplaced := by rw [alike.place, tree.rootUnplaced]
  placed id inside unequal := by
    rw [alike.place]
    exact tree.placed id (alike.length ▸ inside) unequal
  listed id child listed := by
    rw [alike.children] at listed
    rw [parent?_congr (alike.place child), alike.live, alike.live]
    exact tree.listed id child listed
  held id parent alive held := by
    rw [alike.live] at alive
    rw [parent?_congr (alike.place id)] at held
    rw [alike.live, alike.children]
    exact tree.held id parent alive held
  ascending id := by
    rw [alike.children]
    exact tree.ascending id
  distinct id left right name alive := by
    rw [alike.live] at alive
    simp only [alike.children, alike.place]
    exact tree.distinct id left right name alive
  numbered := by rw [alike.created, alike.length, tree.numbered]

theorem Follows.of_alike {touched : List NodeId} (alike : Alike before after)
    (file : ∀ id, id ∉ touched → after.file? id = before.file? id) :
    Follows touched before after where
  grows := Nat.le_of_eq alike.length.symm
  created id beyond inside := by
    have same := alike.length
    omega
  parent id _ := parent?_congr (alike.place id)
  kind id _ := alike.kind id
  place id _ _ := alike.place id
  file id _ := file id
  live id _ alive := by rwa [alike.live] at alive
  killed id alive dead := by simp [alike.live, alive] at dead

/-- A file may get other content and another stamp. -/
theorem alike_update {id : NodeId} {change : Node → Node} {bytes : Bytes} {node : Node}
    (found : fs.node? id = some node) (plain : node.content = .file bytes)
    (place : ∀ node, (change node).place? = node.place?)
    (live : ∀ node, (change node).live = node.live)
    (file : ∃ bytes, (change node).content = .file bytes) : Alike fs (fs.update id change) := by
  obtain ⟨bytes', plain'⟩ := file
  refine ⟨length_update .., fun other => place?_update other place, fun other => ?_,
    fun other => isLive_update other live, fun other => ?_, rfl⟩
  · by_cases same : other = id
    · subst same
      simp [children_eq, node?_update, found, Node.listing, plain, plain']
    · exact children_update_of_ne same
  · by_cases same : other = id
    · subst same
      simp [isDirectory, node?_update, found, plain, plain']
    · simp [isDirectory, node?_update, same]

/-- Stamps, and events that tell of no new node, do not matter. -/
theorem Alike.congr {other : FileSystem} (alike : Alike before after)
    (nodes : other.nodes = after.nodes) (created : other.createdNodes = after.createdNodes) :
    Alike before other := by
  have node : ∀ id, other.node? id = after.node? id := fun id => by simp only [node?, nodes]
  refine ⟨nodes ▸ alike.length, fun id => ?_, fun id => ?_, fun id => ?_, fun id => ?_,
    created.trans alike.created⟩
  · rw [← alike.place, place?, node, ← place?]
  · rw [← alike.children, children_eq, node, ← children_eq]
  · rw [← alike.live, isLive, node, ← isLive]
  · rw [← alike.kind, isDirectory, node, ← isDirectory]

/-- What replacing a content that is not refused does. Only if it is announced does the file get a
new stamp. -/
theorem setContent_eq_ok {id : NodeId} {requestor : String} {content : Bytes} {announce : Bool} :
    fs.setContent id requestor content announce = .ok after ↔
      ∃ node bytes, fs.node? id = some node ∧ node.live = true ∧ node.content = .file bytes ∧
        after = if announce then
            (fs.nextStamp.2.update id fun node =>
              { node with content := .file content, stamp := fs.lastStamp + 1 }).note
                (.contentChanged requestor id (fs.path id) node.stamp (fs.lastStamp + 1))
          else fs.update id fun node => { node with content := .file content } := by
  have path : ((fs.nextStamp.2.update id fun node =>
      { node with content := .file content, stamp := fs.lastStamp + 1 })).path id = fs.path id :=
    path_congr fun other => place?_update other fun _ => rfl
  unfold setContent
  constructor
  · intro changed
    obtain ⟨node, found, changed⟩ := bind_ok_iff.mp changed
    obtain ⟨there, alive⟩ := liveNode_eq_ok.mp found
    split at changed
    · cases changed
    · next bytes plain =>
      refine ⟨node, bytes, there, alive, plain, ?_⟩
      cases announce with
      | true =>
        cases changed
        simp only [if_true, ← path]
        rfl
      | false =>
        cases changed
        rfl
  · rintro ⟨node, bytes, there, alive, plain, rfl⟩
    refine bind_ok_iff.mpr ⟨node, liveNode_eq_ok.mpr ⟨there, alive⟩, ?_⟩
    rw [plain]
    cases announce with
    | true =>
      simp only [if_true, ← path]
      rfl
    | false => rfl

theorem setContent_alike {id : NodeId} {requestor : String} {content : Bytes} {announce : Bool}
    (changed : fs.setContent id requestor content announce = .ok after) :
    Alike fs after ∧ ∀ other, other ≠ id → after.file? other = fs.file? other := by
  obtain ⟨node, bytes, there, _, plain, rfl⟩ := setContent_eq_ok.mp changed
  cases announce with
  | true =>
    let change : Node → Node :=
      fun node => { node with content := .file content, stamp := fs.lastStamp + 1 }
    have alike : Alike fs (fs.update id change) :=
      alike_update there plain (fun _ => rfl) (fun _ => rfl) ⟨content, rfl⟩
    refine ⟨alike.congr rfl (createdNodes_note_other _ rfl), fun other unequal => ?_⟩
    exact file?_update_of_ne unequal
  | false =>
    refine ⟨?_, fun other unequal => file?_update_of_ne unequal⟩
    exact alike_update there plain (fun _ => rfl) (fun _ => rfl) ⟨content, rfl⟩

/-- A stream can be closed exactly if its file is live and may be written and has an older stamp,
and then the file gets what was written and the stamp of the stream. -/
theorem closeStream_eq_ok {stream : Stream} :
    fs.closeStream stream = .ok after ↔
      ∃ node bytes, fs.node? stream.node = some node ∧ node.live = true ∧ node.writable = true ∧
        node.stamp < stream.stamp ∧ node.content = .file bytes ∧
        after = { fs.update stream.node fun node =>
            { node with content := .file stream.buffer, stamp := stream.stamp } with
          lastStamp := max fs.lastStamp stream.stamp
          log := fs.log ++ [.contentChanged stream.requestor stream.node (fs.path stream.node)
            node.stamp stream.stamp] } := by
  let changed := { fs.update stream.node fun node =>
      { node with content := .file stream.buffer, stamp := stream.stamp } with
    lastStamp := max fs.lastStamp stream.stamp }
  have path : changed.path stream.node = fs.path stream.node :=
    path_congr fun other => place?_update other fun _ => rfl
  unfold closeStream
  constructor
  · intro closed
    obtain ⟨node, found, closed⟩ := bind_ok_iff.mp closed
    obtain ⟨there, alive⟩ := liveNode_eq_ok.mp found
    cases plain : node.content with
    | directory children =>
      simp only [plain] at closed
      split at closed
      · cases closed
      · split at closed <;> cases closed
    | file bytes =>
      simp only [plain] at closed
      split at closed
      · cases closed
      · next writable =>
        split at closed
        · cases closed
        · next newer =>
          refine ⟨node, bytes, there, alive, by simpa using writable, by lia, plain, ?_⟩
          cases closed
          rw [← path]
          rfl
  · rintro ⟨node, bytes, there, alive, writable, newer, plain, rfl⟩
    have older : ¬ stream.stamp ≤ node.stamp := by lia
    refine bind_ok_iff.mpr ⟨node, liveNode_eq_ok.mpr ⟨there, alive⟩, ?_⟩
    simp only [writable, older, plain, ← path]
    rfl

theorem closeStream_alike {stream : Stream} (closed : fs.closeStream stream = .ok after) :
    Alike fs after ∧ ∀ other, other ≠ stream.node → after.file? other = fs.file? other := by
  obtain ⟨node, bytes, there, _, _, _, plain, rfl⟩ := closeStream_eq_ok.mp closed
  let change : Node → Node :=
    fun node => { node with content := .file stream.buffer, stamp := stream.stamp }
  have alike : Alike fs (fs.update stream.node change) :=
    alike_update there plain (fun _ => rfl) (fun _ => rfl) ⟨stream.buffer, rfl⟩
  refine ⟨alike.congr rfl (createdNodes_note_other _ rfl), fun other unequal => ?_⟩
  exact file?_update_of_ne unequal

theorem setWritable_alike {id : NodeId} {writable : Bool} :
    Alike fs (fs.setWritable id writable) ∧
      ∀ other, (fs.setWritable id writable).file? other = fs.file? other := by
  unfold setWritable
  split
  · exact ⟨⟨rfl, fun _ => rfl, fun _ => rfl, fun _ => rfl, fun _ => rfl, rfl⟩, fun _ => rfl⟩
  · have alike : Alike fs (fs.update id fun node => { node with writable }) :=
      ⟨length_update .., fun other => place?_update other fun _ => rfl,
        fun other => children_update other fun _ => rfl,
        fun other => isLive_update other fun _ => rfl,
        fun other => isDirectory_update other fun _ => Iff.rfl, rfl⟩
    refine ⟨alike.congr rfl (createdNodes_note_other _ rfl), fun other => ?_⟩
    exact file?_update other fun node => ⟨rfl, rfl⟩

/-- Two file systems differ only in the name of one node. -/
structure Renamed (id parent : NodeId) (name : Name) (before after : FileSystem) : Prop where
  length : after.nodes.length = before.nodes.length
  place : ∀ other, after.place? other =
    if other = id then some ⟨parent, name⟩ else before.place? other
  children : ∀ other, after.children other = before.children other
  live : ∀ other, after.isLive other = before.isLive other
  kind : ∀ other, after.isDirectory other = before.isDirectory other
  file : ∀ other, after.file? other = before.file? other
  created : after.createdNodes = before.createdNodes

namespace Renamed

variable {id parent : NodeId} {old name : Name} (renamed : Renamed id parent name before after)
  (placed : before.place? id = some ⟨parent, old⟩)

include renamed placed

theorem parent? (other : NodeId) : after.parent? other = before.parent? other := by
  simp only [FileSystem.parent?, renamed.place]
  split
  · next same => simp [same, placed]
  · rfl

/-- A node can be given a name that none of its siblings has. -/
theorem tree (tree : Tree before) (absent : before.child? parent name = none) : Tree after where
  rootLive := by rw [renamed.live, tree.rootLive]
  rootDirectory := by rw [renamed.kind, tree.rootDirectory]
  rootUnplaced := by
    have unequal : rootId ≠ id := by
      rintro rfl
      rw [tree.rootUnplaced] at placed
      cases placed
    rw [renamed.place, if_neg unequal, tree.rootUnplaced]
  placed other inside unequal := by
    rw [renamed.length] at inside
    obtain ⟨place, there, less⟩ := tree.placed other inside unequal
    rw [renamed.place]
    split
    · next same =>
      subst same
      rw [placed] at there
      cases there
      exact ⟨_, rfl, less⟩
    · exact ⟨place, there, less⟩
  listed other child listed := by
    rw [renamed.children] at listed
    rw [renamed.parent? placed, renamed.live, renamed.live]
    exact tree.listed other child listed
  held other holder alive held := by
    rw [renamed.live] at alive
    rw [renamed.parent? placed] at held
    rw [renamed.live, renamed.children]
    exact tree.held other holder alive held
  ascending other := by
    rw [renamed.children]
    exact tree.ascending other
  distinct other left right shared alive leftListed rightListed leftPlaced rightPlaced := by
    rw [renamed.live] at alive
    rw [renamed.children] at leftListed rightListed
    rw [renamed.place] at leftPlaced rightPlaced
    have fresh : ∀ child, child ∈ before.children parent →
        before.place? child ≠ some ⟨parent, name⟩ :=
      fun child listed => child?_eq_none absent listed
    have distinct := tree.distinct other left right shared alive leftListed rightListed
    grind
  numbered := by rw [renamed.created, renamed.length, tree.numbered]

theorem follows : Follows [id] before after where
  grows := Nat.le_of_eq renamed.length.symm
  created other beyond inside := by
    have same := renamed.length
    omega
  parent other _ := renamed.parent? placed other
  kind other _ := renamed.kind other
  place other _ untouched := by
    have unequal : other ≠ id := by simpa using untouched
    rw [renamed.place, if_neg unequal]
  file other _ _ := renamed.file other
  live other _ alive := by rwa [renamed.live] at alive
  killed other alive dead := by simp [renamed.live, alive] at dead

end Renamed

/-- What a renaming that is not refused does. -/
theorem rename_cases {id : NodeId} {requestor text : String}
    (renamed : fs.rename id requestor text = .ok after) :
    ∃ node place name, Name.ofString text = .ok name ∧ fs.node? id = some node ∧
      node.live = true ∧ node.place? = some place ∧
      (place.name = name ∧ after = fs ∨
        place.name ≠ name ∧ fs.child? place.parent name = none ∧
          after = (fs.update id fun node =>
            { node with place? := some ⟨place.parent, name⟩ }).note
              (.renamed requestor id place.name name)) := by
  unfold rename at renamed
  split at renamed
  · cases renamed
  · next name read =>
    obtain ⟨node, found, renamed⟩ := bind_ok_iff.mp renamed
    obtain ⟨there, alive⟩ := liveNode_eq_ok.mp found
    split at renamed
    · cases renamed
    · next place placed =>
      refine ⟨node, place, name, read, there, alive, placed, ?_⟩
      split at renamed
      · next same =>
        cases renamed
        exact .inl ⟨same, rfl⟩
      · next other =>
        split at renamed
        · cases renamed
        · next absent =>
          cases renamed
          exact .inr ⟨other, absent, rfl⟩

/-- A node that is renamed keeps all but its name. -/
theorem Renamed.update {id parent : NodeId} {name : Name} {node : Node}
    (there : fs.node? id = some node) (event : Event) (silent : event.created? = none) :
    Renamed id parent name fs
      ((fs.update id fun node => { node with place? := some ⟨parent, name⟩ }).note event) := by
  refine ⟨length_update .., fun other => ?_, fun other => children_update other fun _ => rfl,
    fun other => isLive_update other fun _ => rfl,
    fun other => isDirectory_update other fun _ => Iff.rfl,
    fun other => file?_update other fun _ => ⟨rfl, rfl⟩, createdNodes_note_other _ silent⟩
  by_cases same : other = id
  · subst same
    rw [place?_note]
    simp [place?, node?_update, there]
  · simp [place?_update_of_ne same, same]

theorem rename_eq_ok {id : NodeId} {requestor text : String}
    (renamed : fs.rename id requestor text = .ok after) :
    after = fs ∨ ∃ parent old name, Name.ofString text = .ok name ∧
      fs.place? id = some ⟨parent, old⟩ ∧ old ≠ name ∧ fs.child? parent name = none ∧
      Renamed id parent name fs after := by
  obtain ⟨node, place, name, read, there, _, placed, ⟨_, same⟩ | ⟨other, absent, rfl⟩⟩ :=
    rename_cases renamed
  · exact .inl same
  · exact .inr ⟨place.parent, place.name, name, read, by simp [place?, there, placed],
      other, absent, .update there _ rfl⟩

end Depot.FileSystem
