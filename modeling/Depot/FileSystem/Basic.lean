import Depot.FileSystem.Fault

set_option autoImplicit false

/-
A file system in memory. Nodes are numbered in the order in which they are created and are never
forgotten: a deleted node keeps its place, but no directory lists it any more. Every change takes a
stamp from a counter and is noted in a log.
-/

namespace Depot

abbrev NodeId := Nat

namespace FileSystem

/-- Where a node is: its name in the directory that holds it. -/
structure Place where
  parent : NodeId
  name : Name
deriving DecidableEq

/-- What a node holds. Children are listed in the order in which they were created. -/
inductive Content where
  | file (bytes : Bytes)
  | directory (children : List NodeId)
deriving Repr, DecidableEq

/-- A node. Only the root is without a place. -/
structure Node where
  place? : Option Place
  content : Content
  stamp : Stamp
  writable : Bool
  live : Bool
deriving DecidableEq

/-- A change that was made. -/
inductive Event where
  | created (node : NodeId) (path : Path)
  | contentChanged (requestor : String) (node : NodeId) (path : Path) (old new : Stamp)
  | renamed (requestor : String) (node : NodeId) (old new : Name)
  | writableChanged (node : NodeId) (path : Path) (writable : Bool)
  | deleted (requestor : String) (node : NodeId) (path : Path)
deriving DecidableEq

def Event.node : Event → NodeId
  | created node _ => node
  | contentChanged _ node .. => node
  | renamed _ node .. => node
  | writableChanged node .. => node
  | deleted _ node _ => node

end FileSystem

/-- A file system: its nodes by number, the last stamp that was handed out, and the events so far.
-/
structure FileSystem where
  nodes : List FileSystem.Node
  lastStamp : Stamp
  log : List FileSystem.Event
deriving DecidableEq

namespace FileSystem

def rootId : NodeId := 0

/-- A file system with nothing but a root directory. -/
def empty : FileSystem where
  nodes :=
    [{ place? := none, content := .directory [], stamp := 1, writable := true, live := true }]
  lastStamp := 1
  log := []

def node? (fs : FileSystem) (id : NodeId) : Option Node :=
  fs.nodes[id]?

def place? (fs : FileSystem) (id : NodeId) : Option Place :=
  (fs.node? id).bind Node.place?

/-- The numbers of the nodes that a directory lists; a file lists none. -/
def children (fs : FileSystem) (id : NodeId) : List NodeId :=
  match fs.node? id with
  | some { content := .directory children, .. } => children
  | _ => []

/-- The names on the way from the root to a node. A deleted node is where it was. -/
def names (fs : FileSystem) (id : NodeId) : List Name :=
  match fs.place? id with
  | none => []
  | some place =>
    if place.parent < id then fs.names place.parent ++ [place.name] else [place.name]
termination_by id

def path (fs : FileSystem) (id : NodeId) : Path :=
  ⟨fs.names id⟩

def parent? (fs : FileSystem) (id : NodeId) : Option NodeId :=
  (fs.place? id).map Place.parent

def name (fs : FileSystem) (id : NodeId) : Except Fault Name :=
  match fs.place? id with
  | some place => .ok place.name
  | none => .error (.root .named)

/-- The node of a given name that a directory lists. -/
def child? (fs : FileSystem) (id : NodeId) (name : Name) : Option NodeId :=
  (fs.children id).find? fun child => (fs.place? child).any fun place => place.name = name

def descend? (fs : FileSystem) (id : NodeId) : List Name → Option NodeId
  | [] => some id
  | name :: rest => (fs.child? id name).bind fun child => fs.descend? child rest

def find? (fs : FileSystem) (path : Path) : Option NodeId :=
  fs.descend? rootId path.names

/-- The node at a path that is given as text; there is none at a text that is no path. -/
def findText? (fs : FileSystem) (text : String) : Option NodeId :=
  match Path.ofString text with
  | .ok path => fs.find? path
  | .error _ => none

/-- Whether a node is another one or holds it, at any depth. -/
def isAncestor (fs : FileSystem) (ancestor id : NodeId) : Bool :=
  if ancestor = id then true
  else
    match fs.parent? id with
    | none => false
    | some parent => if parent < id then fs.isAncestor ancestor parent else false
termination_by id

def isLive (fs : FileSystem) (id : NodeId) : Bool :=
  (fs.node? id).any Node.live

def isDirectory (fs : FileSystem) (id : NodeId) : Bool :=
  (fs.node? id).any fun node => node.content matches .directory _

def isWritable (fs : FileSystem) (id : NodeId) : Bool :=
  (fs.node? id).any Node.writable

/-- The stamp of the last change to a node's content. -/
def stamp (fs : FileSystem) (id : NodeId) : Stamp :=
  ((fs.node? id).map Node.stamp).getD 0

def liveNode (fs : FileSystem) (id : NodeId) : Except Fault Node :=
  match fs.node? id with
  | some node => if node.live then .ok node else .error (.deleted (fs.path id))
  | none => .error (.deleted (fs.path id))

def read (fs : FileSystem) (id : NodeId) : Except Fault Bytes := do
  match (← fs.liveNode id).content with
  | .file bytes => return bytes
  | .directory _ => throw (.isADirectory (fs.path id))

end FileSystem

end Depot

namespace Depot.FileSystem

def idText (id : NodeId) : String :=
  "#" ++ toString id

def address (fs : FileSystem) (id : NodeId) : String :=
  "mock://" ++ (fs.path id).display

def describe (fs : FileSystem) (id : NodeId) : String :=
  "SourceNode(" ++ idText id ++ ", " ++ (fs.path id).quoted ++ ")"

/-- A file system with the number of nodes that it ever had. -/
def summary (fs : FileSystem) : String :=
  "VirtualFileSystem \x7b nodes: " ++ toString fs.nodes.length ++ " \x7d"

/-- A node and all below it down to the given depth, parents before their children. -/
def below (fs : FileSystem) : (depth : Nat) → NodeId → List NodeId
  | 0, id => [id]
  | depth + 1, id => id :: (fs.children id).flatMap (fs.below depth)

/-- All nodes that the root reaches. No chain of directories is longer than the number of nodes. -/
def reachable (fs : FileSystem) : List NodeId :=
  fs.below fs.nodes.length rootId

end Depot.FileSystem
