import Depot.Manifest.Basic
import Depot.Registry

set_option autoImplicit false

namespace Depot

/-- What is wrong with a manifest. -/
inductive ManifestFault where
  | malformed
  | missingSource (path : String)
  | directorySource (path : String)
  | invalidEntryName (name : String) (error : NameError)
deriving DecidableEq

/-- The text of a fault. A text that is no manifest in JSON gets no further explanation. -/
def ManifestFault.message : ManifestFault → String
  | malformed => "invalid manifest"
  | missingSource path => "invalid manifest: source " ++ Text.quoted path ++ " does not exist"
  | directorySource path => "invalid manifest: " ++ path ++ " is a directory, use dir_copy"
  | invalidEntryName name error =>
    "invalid manifest: invalid entry name " ++ Text.quoted name ++ ": " ++ error.message

namespace ManifestNode

variable (fs : FileSystem) (volume : Nat)

def source (path : String) : Except ManifestFault Source :=
  match fs.findText? path with
  | some node => .ok { volume, node }
  | none => .error (.missingSource path)

def entryName (text : String) : Except ManifestFault Name :=
  match Name.ofString text with
  | .ok name => .ok name
  | .error error => .error (.invalidEntryName text error)

mutual

def resolve : ManifestNode → Except ManifestFault (Outline Ingredient)
  | file path => do
    let source ← source fs volume path
    if fs.isDirectory source.node then throw (.directorySource path)
    return .leaf (.file source)
  | directory name children => do
    return .container .directory (← entryName name) (← resolveEach children)
  | archive name children => do
    return .container .archive (← entryName name) (← resolveEach children)
  | artifact name => return .leaf (.artifact name)
  | copy path => return .leaf (.copy (← source fs volume path))

def resolveEach : List ManifestNode → Except ManifestFault Plan
  | [] => return []
  | node :: rest => do
    let tree ← resolve node
    return tree :: (← resolveEach rest)

end

end ManifestNode

namespace Manifest

def register (fs : FileSystem) (volume : Nat) (registry : Registry) :
    List (String × List ManifestNode) → Except ManifestFault Registry
  | [] => .ok registry
  | (name, nodes) :: rest => do
    let plan ← ManifestNode.resolveEach fs volume nodes
    register fs volume (registry.replace name plan).2 rest

/-- The registry that a manifest describes, with sources of the file system of the given number. -/
def registry (manifest : Manifest) (fs : FileSystem) (volume : Nat) :
    Except ManifestFault Registry :=
  register fs volume .empty manifest.artifacts.entries

end Manifest

end Depot
