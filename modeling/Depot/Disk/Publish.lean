import Depot.Disk.Basic
import Depot.Entry

set_option autoImplicit false

namespace Depot.Disk

/-- A step that was refused, and where. -/
structure Fault where
  location : Location
  refusal : Refusal
deriving Repr, DecidableEq

def Fault.message (fault : Fault) : String :=
  "i/o error at " ++ fault.location.display ++ ": " ++ fault.refusal.message

end Disk

/-- A sequence of steps that tells where one is refused. -/
abbrev PublishM := EStateM Disk.Fault Disk

namespace Disk

def noting (location : Location) {α : Type} (steps : DiskM α) : PublishM α :=
  fun disk =>
    match steps disk with
    | .ok value disk => .ok value disk
    | .error refusal disk => .error { location, refusal } disk

/-- The bytes under which a name is published: those of its text, damaged parts replaced. -/
def publishedName (name : Name) : Bytes :=
  Bytes.ofString name.display

def removeUnwanted (directory : Location) (wanted : List String) : List Item → PublishM Unit
  | [] => pure ()
  | item :: rest => do
    unless wanted.contains item.name.display do
      let location := directory.join item.name.bytes
      if item.isDirectory then noting location (removeTree location)
      else noting location (removeFile location)
    removeUnwanted directory wanted rest

/-- Removes what is in a directory, apart from items with the names of the given entries. -/
def removeOthers (directory : Location) (entries : List Entry) : PublishM Unit := do
  let items ← noting directory (listDirectory directory)
  removeUnwanted directory (entries.map fun entry => entry.name.display) items

/-- Makes a directory, fills it with entries and removes all else from it. The answer is that of
the filling, the number of files written. -/
def withDirectory (directory : Location) (entries : List Entry) (fill : PublishM Nat) :
    PublishM Nat := do
  noting directory (makeDirectories directory)
  let written ← fill
  removeOthers directory entries
  return written

/-- Whether the file for an entry need not be written: an entry with the same digest was published
before, and a file is still there. -/
def isCurrent (disk : Disk) (location : Location) (previous? : Option Entry)
    (entry : Entry) : Bool :=
  (previous?.any fun previous => previous.bytes?.isSome && previous.digest = entry.digest) &&
    disk.isFile location

/-- Writes the file for an entry, in place of whatever is there. -/
def publishBytes (location : Location) (previous? : Option Entry) (entry : Entry)
    (content : Bytes) :
    PublishM Nat := do
  if isCurrent (← get) location previous? entry then return 0
  if (← get).isDirectory location then noting location (removeTree location)
  noting location (writeFile location content)
  return 1

def published : Option Entry → List Entry
  | some (.directory _ children _) => children
  | _ => []

mutual

/-- Publishes an entry in a directory, given the entries that were published there before. Of
several with one name the last one counts. -/
def publishEntry (directory : Location) (previous : List Entry) : Entry → PublishM Nat
  | .directory name children _ => do
    let location := directory.join (publishedName name)
    let previous := published (Entry.lastNamed? previous name)
    if (← get).isFile location then noting location (removeFile location)
    withDirectory location children (publishEach location previous children)
  | .file name content stamp digest =>
    let location := directory.join (publishedName name)
    publishBytes location (Entry.lastNamed? previous name) (.file name content stamp digest) content
  | .archive name members bytes digest =>
    let location := directory.join (publishedName name)
    publishBytes location (Entry.lastNamed? previous name) (.archive name members bytes digest)
      bytes

def publishEach (directory : Location) (previous : List Entry) : List Entry → PublishM Nat
  | [] => return 0
  | entry :: rest => do
    let written ← publishEntry directory previous entry
    return written + (← publishEach directory previous rest)

end

/-- Makes a directory hold exactly the given entries, and counts the files that are written.
`previous` is what was published there before. -/
def publish (directory : Location) (previous entries : List Entry) : PublishM Nat :=
  withDirectory directory entries (publishEach directory previous entries)

end Disk

end Depot
