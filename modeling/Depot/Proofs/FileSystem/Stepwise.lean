import Depot.Proofs.FileSystem.Editing

set_option autoImplicit false

/-
Changes made in place, one small change after another, as they are made to a file system that is
shared. What is changed before a fault stays changed, so that it depends on the order of the small
changes whether a change that is refused leaves something behind. Here are the changes step by step,
and that those of one node are made as a whole or not at all.
-/

namespace Depot.FileSystem

/-- Changes made in place. What was changed before a fault stays changed. -/
abbrev Edit := EStateM Fault FileSystem

def told (fs : FileSystem) (events : List Event) : FileSystem :=
  { fs with log := fs.log ++ events }

namespace Edit

def inspect {α : Type} (look : FileSystem → Except Fault α) : Edit α := fun fs =>
  match look fs with
  | .ok value => .ok value fs
  | .error fault => .error fault fs

def takeStamp : Edit Stamp :=
  modifyGet nextStamp

def attach (parent : NodeId) (name : Name) (content : Content) (stamp : Stamp) : Edit NodeId := do
  let id := (← get).nodes.length
  let node : Node :=
    { place? := some { parent, name }, content, stamp, writable := true, live := true }
  modify fun fs => { fs with nodes := fs.nodes ++ [node] }
  modify (·.update parent (Node.relist (· ++ [id])))
  return id

/-- Tells of what was done. -/
def tell (events : List Event) : Edit Unit :=
  modify (·.told events)

/-- Follows a chain of names from a directory and creates the directories that are missing. The
events are to be told later. -/
def makeDirectories (id : NodeId) (above : Path) (events : List Event) :
    List Name → Edit (NodeId × List Event)
  | [] => return (id, events)
  | name :: rest => do
    let fs ← get
    let path := above.push name
    match fs.child? id name with
    | some child =>
      if fs.isDirectory child then makeDirectories child path events rest
      else throw (.notADirectory path)
    | none =>
      let stamp ← takeStamp
      let child ← attach id name (.directory []) stamp
      makeDirectories child path (events ++ [.created child path]) rest

/-- Creates a file in a directory, which may have been made for it. -/
def attachFile (directory : NodeId) (name : Name) (content : Bytes) (path : Path)
    (events : List Event) : Edit NodeId := do
  match (← get).child? directory name with
  | some _ => throw (.alreadyExists path)
  | none =>
    let stamp ← takeStamp
    let id ← attach directory name (.file content) stamp
    tell (events ++ [.created id path])
    return id

def createFile (text : String) (content : Bytes) : Edit NodeId := do
  let path ← inspect fun _ => newPath text
  match path.parent?, path.name? with
  | some parent, some name =>
    let (directory, events) ← makeDirectories rootId .root [] parent.names
    attachFile directory name content path events
  | _, _ => throw (.root .created)

def createDirectory (text : String) : Edit NodeId := do
  let path ← inspect fun _ => newPath text
  let (directory, events) ← makeDirectories rootId .root [] path.names
  tell events
  return directory

def setContent (id : NodeId) (requestor : String) (content : Bytes) (announce : Bool) :
    Edit Unit := do
  let path := (← get).path id
  let node ← inspect (·.liveNode id)
  match node.content with
  | .directory _ => throw (.isADirectory path)
  | .file _ => modify (·.update id fun node => { node with content := .file content })
  if announce then
    let stamp ← takeStamp
    modify (·.update id fun node => { node with stamp })
    tell [.contentChanged requestor id path node.stamp stamp]

def rename (id : NodeId) (requestor text : String) : Edit Unit := do
  match Name.ofString text with
  | .error error => throw (.invalidName error)
  | .ok name =>
    let node ← inspect (·.liveNode id)
    match node.place? with
    | none => throw (.root .renamed)
    | some place =>
      if place.name = name then return
      match (← get).child? place.parent name with
      | some _ => throw (.alreadyExists (((← get).path place.parent).push name))
      | none =>
        modify (·.update id fun node => { node with place? := some { place with name } })
        tell [.renamed requestor id place.name name]

def setWritable (id : NodeId) (writable : Bool) : Edit Unit := do
  let path := (← get).path id
  if (← get).isWritable id = writable then return
  modify (·.update id fun node => { node with writable })
  tell [.writableChanged id path writable]

def delete (id : NodeId) (requestor : String) : Edit Unit := do
  if id = rootId then throw (.root .deleted)
  let path := (← get).path id
  let _ ← inspect (·.liveNode id)
  modify (·.detach id)
  modify (·.bury [id])
  tell [.deleted requestor id path]

/-- What is written to a stream is checked once more when it takes effect. -/
def closeStream (stream : Stream) : Edit Unit := do
  let path := (← get).path stream.node
  let node ← inspect (·.liveNode stream.node)
  if !node.writable then throw (.readOnly path)
  if stream.stamp ≤ node.stamp then throw (.staleStamp path node.stamp stream.stamp)
  match node.content with
  | .directory _ => throw (.isADirectory path)
  | .file _ =>
    modify (·.update stream.node fun node => { node with content := .file stream.buffer })
  modify (·.update stream.node fun node => { node with stamp := stream.stamp })
  modify fun fs => { fs with lastStamp := max fs.lastStamp stream.stamp }
  tell [.contentChanged stream.requestor stream.node path node.stamp stream.stamp]

end Edit

/-- What comes of a change that is made as a whole, or refused and not made at all. -/
def settle {α : Type} (before : FileSystem) :
    Except Fault (α × FileSystem) → EStateM.Result Fault FileSystem α
  | .ok (value, after) => .ok value after
  | .error fault => .error fault before

namespace Edit

variable {fs after : FileSystem}

theorem get_bind {α : Type} {next : FileSystem → Edit α} : (get >>= next) fs = next fs fs := rfl

/-- Looking first does no harm. -/
theorem inspect_bind {α β : Type} {look : FileSystem → Except Fault α} {next : α → Edit β}
    {whole : α → Except Fault (β × FileSystem)}
    (same : ∀ value, look fs = .ok value → next value fs = settle fs (whole value)) :
    (inspect look >>= next) fs = settle fs (look fs >>= whole) := by
  unfold inspect
  cases seen : look fs with
  | error fault => simp only [bind, EStateM.bind, Except.bind, seen, settle]
  | ok value => simpa only [bind, EStateM.bind, Except.bind, seen] using same value seen

theorem delete_eq {id : NodeId} {requestor : String} :
    delete id requestor fs = settle fs (((), ·) <$> fs.delete id requestor) := by
  by_cases rooted : id = rootId
  · subst rooted
    rfl
  · simp only [delete, FileSystem.delete, rooted, if_false]
    rw [get_bind, map_bind]
    exact inspect_bind fun node alive => rfl

theorem rename_eq {id : NodeId} {requestor text : String} :
    rename id requestor text fs = settle fs (((), ·) <$> fs.rename id requestor text) := by
  unfold rename FileSystem.rename
  cases Name.ofString text with
  | error error => rfl
  | ok name =>
    dsimp only
    rw [map_bind]
    refine inspect_bind fun node alive => ?_
    cases node.place? with
    | none => rfl
    | some place =>
      by_cases same : place.name = name
      · simp only [same, if_true]
        rfl
      · simp only [same, if_false]
        rw [get_bind]
        cases fs.child? place.parent name with
        | some other => rfl
        | none => rfl

/-- Paths are made of names only. -/
theorem path_kept {id : NodeId} {change : Node → Node}
    (nodes : after.nodes = fs.nodes.modify id change)
    (keeps : ∀ node, (change node).place? = node.place?) (other : NodeId) :
    fs.path other = after.path other := by
  refine (path_congr fun below => ?_).symm
  have same : after.place? below = (fs.update id change).place? below := by
    rw [place?, node?, nodes]
    rfl
  rw [same, place?_update below keeps]

theorem setWritable_eq {id : NodeId} {writable : Bool} :
    setWritable id writable fs = .ok () (fs.setWritable id writable) := by
  unfold setWritable FileSystem.setWritable
  rw [get_bind, get_bind]
  by_cases same : fs.isWritable id = writable
  · simp only [same, if_true]
    rfl
  · simp only [same, if_false]
    let done (path : Path) : EStateM.Result Fault FileSystem Unit :=
      .ok () ((fs.update id fun node => { node with writable }).note
        (.writableChanged id path writable))
    refine congrArg done (path_kept rfl ?_ id)
    exact fun _ => rfl

/-- A file whose content is replaced first and whose stamp comes afterwards gets both at once. -/
theorem renewed_eq (fs : FileSystem) (id : NodeId) (requestor : String) (content : Bytes)
    (old stamp last : Stamp) :
    let first (node : Node) : Node := { node with content := .file content }
    let second (node : Node) : Node := { node with stamp }
    let whole : FileSystem := ⟨fs.nodes.modify id (second ∘ first), last, fs.log⟩
    (⟨(fs.nodes.modify id first).modify id second, last, fs.log⟩ : FileSystem).told
        [.contentChanged requestor id (fs.path id) old stamp] =
      whole.note (.contentChanged requestor id (whole.path id) old stamp) := by
  intro first second whole
  have path : fs.path id = whole.path id := by
    refine path_kept rfl ?_ id
    exact fun _ => rfl
  rw [List.modify_modify_eq, path]
  rfl

theorem setContent_eq {id : NodeId} {requestor : String} {content : Bytes} {announce : Bool} :
    setContent id requestor content announce fs =
      settle fs (((), ·) <$> fs.setContent id requestor content announce) := by
  unfold setContent FileSystem.setContent
  rw [get_bind, map_bind]
  refine inspect_bind fun node alive => ?_
  cases node.content with
  | directory children => rfl
  | file bytes =>
    cases announce with
    | false => rfl
    | true =>
      exact congrArg (EStateM.Result.ok ())
        (renewed_eq fs id requestor content node.stamp (fs.lastStamp + 1) (fs.lastStamp + 1))

theorem closeStream_eq {stream : Stream} :
    closeStream stream fs = settle fs (((), ·) <$> fs.closeStream stream) := by
  unfold closeStream FileSystem.closeStream
  rw [get_bind, map_bind]
  refine inspect_bind fun node alive => ?_
  cases node.writable with
  | false => rfl
  | true =>
    simp only [Bool.not_true]
    by_cases stale : stream.stamp ≤ node.stamp
    · simp only [stale, if_true]
      rfl
    · simp only [stale, if_false]
      cases node.content with
      | directory children => rfl
      | file bytes =>
        exact congrArg (EStateM.Result.ok ())
          (renewed_eq fs stream.node stream.requestor stream.buffer node.stamp stream.stamp
            (max fs.lastStamp stream.stamp))

end Edit

end Depot.FileSystem
