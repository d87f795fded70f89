import Depot.Disk.Basic

set_option autoImplicit false

namespace Depot.Disk

def makeParents (location : Location) : DiskM Unit :=
  match location.parents with
  | [] => pure ()
  | parent :: _ => makeDirectories parent

/-- Puts a file at a location, and makes the directories around it. -/
def putFile (location : Location) (content : Bytes) : DiskM Unit := do
  makeParents location
  writeFile location content

/-- Puts a symbolic link at a location, and makes the directories around it. -/
def putLink (location target : Location) : DiskM Unit := do
  makeParents location
  makeLink location target

/-- Removes a directory that is empty. Where the location no longer leads to one, there is nothing
to do; a directory can only be removed under its own name. -/
def removeEmpty (location : Location) : DiskM Unit := do
  match (← get).find false location.trim with
  | .ok (.directory position) =>
    let ending := (Path.parts location.trim).getLast?
    if ending = some [Name.dot] then throw .invalidArgument
    else if ending = some [Name.dot, Name.dot] then throw .notEmpty
    else
      match position.getLast? with
      | some name => make (.remove position.dropLast name)
      | none => throw .notEmpty
  | .ok (.vacant ..) | .error .notFound => pure ()
  | .ok _ => throw .notDirectory
  | .error refusal => throw refusal

/-- Takes away whatever is at a location. A link is not followed. -/
def discard (location : Location) : DiskM Unit := do
  match ← lookUp false location with
  | .directory position =>
    clearEach position ((Item.inside? (← get).items position).getD [])
    removeEmpty location
  | _ => removeFile location

/-- Makes some steps; those before one that is refused stay done. -/
def perform (disk : Disk) (steps : DiskM Unit) : Bool × Disk :=
  match steps disk with
  | .ok () disk => (true, disk)
  | .error _ disk => (false, disk)

/-- Everything below the directory at a location, with its path, in the order of the paths as text.
Links below the location are not followed. -/
def contents (disk : Disk) (location : Location) : List (Path × Item) :=
  match disk.list location with
  | .ok items => (Hierarchy.walk items).mergeSort fun left right => !right.1.precedes left.1
  | .error _ => []

end Depot.Disk
