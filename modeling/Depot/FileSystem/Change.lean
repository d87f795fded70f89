import Depot.FileSystem.Basic

set_option autoImplicit false

namespace Depot.FileSystem

def nextStamp (fs : FileSystem) : Stamp × FileSystem :=
  (fs.lastStamp + 1, { fs with lastStamp := fs.lastStamp + 1 })

/-- Notes an event. -/
def note (fs : FileSystem) (event : Event) : FileSystem :=
  { fs with log := fs.log ++ [event] }

def update (fs : FileSystem) (id : NodeId) (change : Node → Node) : FileSystem :=
  { fs with nodes := fs.nodes.modify id change }

def Node.relist (change : List NodeId → List NodeId) (node : Node) : Node :=
  match node.content with
  | .directory children => { node with content := .directory (change children) }
  | .file _ => node

/-- Adds a node to a directory, with a new stamp. -/
def insert (fs : FileSystem) (parent : NodeId) (name : Name) (content : Content) :
    NodeId × FileSystem :=
  let id := fs.nodes.length
  let stamp := fs.lastStamp + 1
  let node : Node :=
    { place? := some { parent, name }, content, stamp, writable := true, live := true }
  let listed := fs.update parent (Node.relist (· ++ [id]))
  let added := { listed with nodes := listed.nodes ++ [node], lastStamp := stamp }
  (id, added.note (.created id (added.path id)))

/-- Follows a chain of names from a directory and creates the directories that are missing. -/
def makeDirectories (fs : FileSystem) (id : NodeId) : List Name → Except Fault (NodeId × FileSystem)
  | [] => .ok (id, fs)
  | name :: rest =>
    match fs.child? id name with
    | some child =>
      if fs.isDirectory child then fs.makeDirectories child rest
      else .error (.notADirectory (fs.path child))
    | none =>
      let (child, fs) := fs.insert id name (.directory [])
      fs.makeDirectories child rest

def newPath (text : String) : Except Fault Path :=
  match Path.ofString text with
  | .ok path => .ok path
  | .error _ => .error (.invalidPath text)

/-- Creates a file, and the directories around it that are missing. -/
def createFile (fs : FileSystem) (text : String) (content : Bytes) :
    Except Fault (NodeId × FileSystem) := do
  let path ← newPath text
  match path.parent?, path.name? with
  | some parent, some name =>
    let (directory, fs) ← fs.makeDirectories rootId parent.names
    match fs.child? directory name with
    | some _ => throw (.alreadyExists path)
    | none => return fs.insert directory name (.file content)
  | _, _ => throw (.root .created)

/-- Creates a directory, and the directories around it that are missing. One that is there already
is returned. -/
def createDirectory (fs : FileSystem) (text : String) : Except Fault (NodeId × FileSystem) := do
  let path ← newPath text
  fs.makeDirectories rootId path.names

/-- Replaces the content of a file. Unless this is announced, the file keeps its stamp. -/
def setContent (fs : FileSystem) (id : NodeId) (requestor : String) (content : Bytes)
    (announce : Bool) : Except Fault FileSystem := do
  let node ← fs.liveNode id
  match node.content with
  | .directory _ => throw (.isADirectory (fs.path id))
  | .file _ =>
    if announce then
      let (stamp, fs) := fs.nextStamp
      let fs := fs.update id fun node => { node with content := .file content, stamp }
      return fs.note (.contentChanged requestor id (fs.path id) node.stamp stamp)
    else return fs.update id fun node => { node with content := .file content }

/-- Gives a node another name in its directory. -/
def rename (fs : FileSystem) (id : NodeId) (requestor : String) (text : String) :
    Except Fault FileSystem :=
  match Name.ofString text with
  | .error error => .error (.invalidName error)
  | .ok name => do
    let node ← fs.liveNode id
    match node.place? with
    | none => throw (.root .renamed)
    | some place =>
      if place.name = name then return fs
      match fs.child? place.parent name with
      | some _ => throw (.alreadyExists ((fs.path place.parent).push name))
      | none =>
        let moved := some (Place.mk place.parent name)
        let fs := fs.update id fun node => { node with place? := moved }
        return fs.note (.renamed requestor id place.name name)

def setWritable (fs : FileSystem) (id : NodeId) (writable : Bool) : FileSystem :=
  if fs.isWritable id = writable then fs
  else
    let fs := fs.update id fun node => { node with writable }
    fs.note (.writableChanged id (fs.path id) writable)

/-- Takes a node out of the directory that lists it. -/
def detach (fs : FileSystem) (id : NodeId) : FileSystem :=
  match fs.place? id with
  | some place => fs.update place.parent (Node.relist (·.filter (· ≠ id)))
  | none => fs

/-- The number of nodes that have not been deleted. -/
def liveCount (fs : FileSystem) : Nat :=
  fs.nodes.countP Node.live

/-- Marks a node as deleted. -/
def kill (fs : FileSystem) (id : NodeId) : FileSystem :=
  fs.update id fun node => { node with live := false }

theorem countP_modify_lt (nodes : List Node) (id : Nat) (alive : nodes[id]?.any Node.live = true) :
    (nodes.modify id fun node => { node with live := false }).countP Node.live <
      nodes.countP Node.live := by
  induction nodes generalizing id with
  | nil => simp at alive
  | cons node rest ih =>
    cases id with
    | zero =>
      have marked : node.live = true := by simpa using alive
      simp [marked]
    | succ id =>
      have fewer := ih id (by simpa using alive)
      simp only [List.modify_succ_cons, List.countP_cons]
      omega

theorem liveCount_kill_lt {fs : FileSystem} {id : NodeId} (alive : fs.isLive id = true) :
    (fs.kill id).liveCount < fs.liveCount :=
  countP_modify_lt fs.nodes id alive

/-- Marks the nodes on a stack as deleted, with all that they hold. A node that is taken from the
stack puts those that it lists there, the last one on top. -/
def bury (fs : FileSystem) : (stack : List NodeId) → FileSystem
  | [] => fs
  | id :: stack =>
    if fs.isLive id then (fs.kill id).bury ((fs.children id).reverse ++ stack)
    else fs.bury stack
termination_by stack => (fs.liveCount, stack.length)
decreasing_by
  · exact Prod.Lex.left _ _ (liveCount_kill_lt ‹_›)
  · exact Prod.Lex.right _ (by simp)

def delete (fs : FileSystem) (id : NodeId) (requestor : String) : Except Fault FileSystem := do
  if id = rootId then throw (.root .deleted)
  let _ ← fs.liveNode id
  return ((fs.detach id).bury [id]).note (.deleted requestor id (fs.path id))

end Depot.FileSystem
