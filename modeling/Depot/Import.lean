import Depot.Disk.Publish
import Depot.FileSystem.Change

set_option autoImplicit false

namespace Depot.Import

/-- Why a directory cannot be imported. A walk says itself why it does not go on. -/
inductive Fault where
  | walk (reason : String)
  | unreadable (fault : Disk.Fault)
  | refused (location : Disk.Location) (fault : FileSystem.Fault)
deriving DecidableEq

def Fault.message : Fault → String
  | walk reason => "unable to walk source directory: " ++ reason
  | unreadable fault => fault.message
  | refused location fault => "unable to import " ++ location.display ++ ": " ++ fault.message

/-- The path for a location below the directory that is imported. Such a location does not start at
the root and does not lead upwards, and its names are text. -/
def pathFor (location : Disk.Location) : Except FileSystem.Fault Path := do
  let invalid := FileSystem.Fault.invalidPath location.display
  if Disk.Location.isAbsolute location then throw invalid
  let names ← location.steps.mapM fun step =>
    if step = [Name.dot, Name.dot] ∨ (Text.Utf8.decode? step).isNone then .error invalid
    else
      match Name.ofBytes step with
      | .ok name => .ok name
      | .error error => .error (.invalidName error)
  return ⟨names⟩

/-- What has been imported, and how many files. -/
structure Progress where
  fs : FileSystem
  files : Nat

/-- What a walk comes to: a file or a directory, at a path below the directory where it starts. -/
structure Encounter where
  path : Path
  isDirectory : Bool
deriving DecidableEq

/-- A way to walk through the directory at a location: what it comes to, in order, and why it does
not go on. -/
abbrev Walker := Disk → Disk.Location → List (Except String Encounter)

def locationOf (location : Disk.Location) (path : Path) : Disk.Location :=
  path.names.foldl (fun around name => around.join name.bytes) location

def addDirectory (location relative : Disk.Location) (progress : Progress) :
    Except Fault Progress :=
  match pathFor relative with
  | .error fault => .error (.refused location fault)
  | .ok path =>
    match progress.fs.createDirectory path.display with
    | .error fault => .error (.refused location fault)
    | .ok (_, fs) => .ok { progress with fs }

def addFile (disk : Disk) (location relative : Disk.Location) (progress : Progress) :
    Except Fault Progress :=
  match pathFor relative with
  | .error fault => .error (.refused location fault)
  | .ok path =>
    match disk.read location with
    | .error refusal => .error (.unreadable { location, refusal })
    | .ok content =>
      match progress.fs.createFile path.display content with
      | .error fault => .error (.refused location fault)
      | .ok (_, fs) => .ok { fs, files := progress.files + 1 }

def add (disk : Disk) (location : Disk.Location) (progress : Progress) :
    Except String Encounter → Except Fault Progress
  | .error reason => .error (.walk reason)
  | .ok found =>
    let there := locationOf location found.path
    if found.isDirectory then addDirectory there found.path.bytes progress
    else addFile disk there found.path.bytes progress

def importDirectory (walker : Walker) (disk : Disk) (location : Disk.Location) (fs : FileSystem) :
    Except Fault Progress :=
  (walker disk location).foldlM (add disk location) { fs, files := 0 }

namespace Walker

/-- A directory on the way to where a walk is: what it really is, and how it was reached. -/
structure Stop where
  position : List Name
  location : Disk.Location

def unreachable (location : Disk.Location) (refusal : Disk.Refusal) : String :=
  "IO error for operation on " ++ location.display ++ ": " ++ refusal.message

def loop (child ancestor : Disk.Location) : String :=
  "File system loop found: " ++ child.display ++ " points to an ancestor " ++ ancestor.display

/-- What an item is, once it is followed if it is a link. -/
inductive Kind where
  | file
  | directory (position : List Name)

/-- Finds out what an item is. A link may not lead to one of the directories around it, which are
given from the inside out. -/
def classify (disk : Disk) (around : List Stop) (position : List Name) (location : Disk.Location) :
    Disk.Item → Except String Kind
  | .file .. => .ok .file
  | .directory name _ => .ok (.directory (position ++ [name]))
  | .link .. =>
    match disk.find true location with
    | .error refusal => .error (unreachable location refusal)
    | .ok (.file ..) => .ok .file
    | .ok (.link ..) | .ok (.vacant ..) => .error (unreachable location .notFound)
    | .ok (.directory target) =>
      match around.find? fun stop => stop.position = target with
      | some stop => .error (loop location stop.location)
      | none => .ok (.directory target)

/-- Walks through the directory at a path, down to the given depth. A directory comes before what it
holds, which is sorted by name. -/
def visit (disk : Disk) : (depth : Nat) → (here : Stop) → (around : List Stop) → Path →
    List (Except String Encounter)
  | 0, _, _, _ => []
  | depth + 1, here, around, path =>
    match disk.list here.location with
    | .error refusal => [.error (unreachable here.location refusal)]
    | .ok items =>
      (items.foldr Disk.Item.put []).flatMap fun item =>
        let location := here.location.join item.name.bytes
        let path := path.push item.name
        match classify disk (here :: around) here.position location item with
        | .error reason => [.error reason]
        | .ok .file => [.ok { path, isDirectory := false }]
        | .ok (.directory position) =>
          .ok { path, isDirectory := true } ::
            visit disk depth { position, location } (here :: around) path

/-- A depth that no walk reaches: on the way down no two links lead to the same directory, and
between two of them there are no more directories than the disk has. -/
def maxDepth (disk : Disk) : Nat :=
  (Disk.Item.sizeList disk.items + 2) * (Disk.Item.sizeList disk.items + 2)

/-- Walks through a directory with all that it holds. Links are followed, unless one leads back to a
directory around it. In a file there is nothing to come to. -/
def following : Walker := fun disk location =>
  match disk.find true location with
  | .error refusal => [.error (unreachable location refusal)]
  | .ok (.link ..) | .ok (.vacant ..) => [.error (unreachable location .notFound)]
  | .ok (.file ..) => []
  | .ok (.directory position) => visit disk (maxDepth disk) { position, location } [] .root

end Walker

end Depot.Import
