import Depot.FileSystem.Basic

set_option autoImplicit false

namespace Depot

/-- A node of one of several file systems. -/
structure Source where
  volume : Nat
  node : NodeId
deriving Repr, DecidableEq

abbrev Workspace := List FileSystem

namespace Workspace

def volume (workspace : Workspace) (index : Nat) : FileSystem :=
  workspace.getD index .empty

def home (workspace : Workspace) (source : Source) : FileSystem :=
  workspace.volume source.volume

def path (workspace : Workspace) (source : Source) : Path :=
  (workspace.home source).path source.node

def name (workspace : Workspace) (source : Source) : Except FileSystem.Fault Name :=
  (workspace.home source).name source.node

def isLive (workspace : Workspace) (source : Source) : Bool :=
  (workspace.home source).isLive source.node

def isDirectory (workspace : Workspace) (source : Source) : Bool :=
  (workspace.home source).isDirectory source.node

def stamp (workspace : Workspace) (source : Source) : Stamp :=
  (workspace.home source).stamp source.node

def read (workspace : Workspace) (source : Source) : Except FileSystem.Fault Bytes :=
  (workspace.home source).read source.node

def children (workspace : Workspace) (source : Source) : List Source :=
  ((workspace.home source).children source.node).map fun node => { source with node }

/-- Whether a source is another one or holds it. Sources of different file systems never do. -/
def isAncestor (workspace : Workspace) (ancestor source : Source) : Bool :=
  ancestor.volume = source.volume &&
    (workspace.home source).isAncestor ancestor.node source.node

end Workspace

end Depot
