import Depot.Build.Fault
import Depot.Registry

set_option autoImplicit false

/-
Slots: the places of an output, each with its name and with where its content comes from. All
inclusions of other artifacts are resolved, and copied directories are spelled out. What is wrong
inside a container is kept there, because an update may never look into it.
-/

namespace Depot

/-- A dependency of a container on a source, or what keeps it from being known. -/
inductive Touch where
  | file (source : Source)
  | copy (source : Source)
  | fault (fault : BuildFault)
deriving DecidableEq

/-- A place of an output. -/
inductive Slot where
  | file (name : Name) (source : Source)
  | container (kind : ContainerKind) (name : Name) (touches : List Touch)
    (contents : Except BuildFault (List Slot))

namespace Slot

def name : Slot → Name
  | file name _ => name
  | container _ name _ _ => name

/-- The sources that a slot depends on, in the order in which the plan mentions them. -/
def touches : Slot → List Touch
  | file _ source => [.file source]
  | container _ _ touches _ => touches

end Slot

/-- Whether a change to `changed` concerns a file: it is the file, or it holds the file. -/
def Workspace.touchesFile (workspace : Workspace) (changed source : Source) : Bool :=
  workspace.isAncestor changed source

/-- Whether a change to `changed` concerns the copy of a directory: either holds the other. -/
def Workspace.touchesCopy (workspace : Workspace) (changed source : Source) : Bool :=
  workspace.isAncestor source changed || workspace.isAncestor changed source

/-- Whether a change concerns one of the given dependencies. They are looked at in order up to the
first that is concerned or that is not known. -/
def Workspace.reaches (workspace : Workspace) (changed : Source) :
    List Touch → Except BuildFault Bool
  | [] => .ok false
  | .fault fault :: _ => .error fault
  | .file source :: rest =>
    if workspace.touchesFile changed source then .ok true else workspace.reaches changed rest
  | .copy source :: rest =>
    if workspace.touchesCopy changed source then .ok true else workspace.reaches changed rest

end Depot
