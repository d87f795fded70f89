import Depot.Disk.Item
import Depot.Disk.Location

set_option autoImplicit false

/-
A disk with its single steps. The system may refuse a step for reasons of its own; which steps these
are is part of the state. A step is refused or done as a whole: a listing that breaks off after some
items, and a write that leaves a part of the content, have no counterpart. A listing ascends by
name, since the tree does.
-/

namespace Depot.Disk

/-- Why the system refuses a step. -/
inductive Refusal where
  | notFound
  | device
  | alreadyExists
  | notDirectory
  | isDirectory
  | invalidArgument
  | nameTooLong
  | notEmpty
  | tooManyLinks
  | nulByte
  | notText
deriving Repr, DecidableEq

def Refusal.message : Refusal → String
  | notFound => "No such file or directory (os error 2)"
  | device => "Input/output error (os error 5)"
  | alreadyExists => "File exists (os error 17)"
  | notDirectory => "Not a directory (os error 20)"
  | isDirectory => "Is a directory (os error 21)"
  | invalidArgument => "Invalid argument (os error 22)"
  | nameTooLong => "File name too long (os error 36)"
  | notEmpty => "Directory not empty (os error 39)"
  | tooManyLinks => "Too many levels of symbolic links (os error 40)"
  | nulByte => "file name contained an unexpected NUL byte"
  | notText => "stream did not contain valid UTF-8"

/-- A change to the tree, in the directory that is reached by a chain of names. -/
inductive Change where
  | directory (position : List Name) (name : Name)
  | file (position : List Name) (name : Name) (content : Bytes)
  | link (position : List Name) (name : Name) (target : Location)
  | remove (position : List Name) (name : Name)

def Change.apply (items : List Item) : Change → List Item
  | directory position name => Item.change (Item.put (.directory name [])) position items
  | file position name content => Item.change (Item.put (.file name content)) position items
  | link position name target => Item.change (Item.put (.link name target)) position items
  | remove position name => Item.change (Item.without name) position items

end Disk

/-- A disk: its tree, the working directory, what is refused of the next steps, and the changes that
were made, the newest first. -/
structure Disk where
  items : List Disk.Item
  working : List Name
  refusals : List (Option Disk.Refusal)
  changes : List Disk.Change

namespace Disk

/-- A disk with nothing on it, where no step is refused. -/
def blank : Disk := ⟨[], [], [], []⟩

/-- What is at the end of a location. -/
inductive Found where
  | directory (position : List Name)
  | file (position : List Name) (name : Name) (content : Bytes)
  /-- A link that is not followed. -/
  | link (position : List Name) (name : Name)
  /-- Nothing, in a directory that is there. -/
  | vacant (position : List Name) (name : Name)

/-- How many links are followed at most on the way to one location. -/
def maxLinks : Nat := 40

/-- From how many bytes on a location is refused. -/
def maxLocation : Nat := 4096

/-- Follows the parts of a location from a directory. A link at the end is followed only if asked
for; where a link is followed, `turn` says what is found from where it leads. -/
def followTo (items : List Item) (through : Bool)
    (turn : List Name → List Bytes → Except Refusal Found) (here : List Name) :
    (parts : List Bytes) → Except Refusal Found
  | [] => .ok (.directory here)
  | part :: rest =>
    if part = [] ∨ part = [Name.dot] then followTo items through turn here rest
    else if part = [Name.dot, Name.dot] then followTo items through turn here.dropLast rest
    else
      match Name.ofBytes part with
      | .error _ => .error .nameTooLong
      | .ok name =>
        match (Item.inside? items here).bind fun inner => Item.named? inner name with
        | none => if rest = [] then .ok (.vacant here name) else .error .notFound
        | some (.directory ..) => followTo items through turn (here ++ [name]) rest
        | some (.file _ content) =>
          if rest = [] then .ok (.file here name content) else .error .notDirectory
        | some (.link _ target) =>
          if rest = [] ∧ !through then .ok (.link here name)
          else turn (if Location.isAbsolute target then [] else here) (Path.parts target ++ rest)

/-- Follows the parts of a location from a directory, and some links on the way. -/
def follow (items : List Item) (through : Bool) :
    (links : Nat) → (here : List Name) → (parts : List Bytes) → Except Refusal Found
  | 0 => followTo items through fun _ _ => .error .tooManyLinks
  | links + 1 => followTo items through (follow items through links)

def find (disk : Disk) (through : Bool) (location : Location) : Except Refusal Found :=
  if 0 ∈ location then .error .nulByte
  else if location = [] then .error .notFound
  else if maxLocation ≤ location.length then .error .nameTooLong
  else
    let start := if Location.isAbsolute location then [] else disk.working
    follow disk.items through maxLinks start (Path.parts location)

def isFile (disk : Disk) (location : Location) : Bool :=
  disk.find true location matches .ok (.file ..)

def isDirectory (disk : Disk) (location : Location) : Bool :=
  disk.find true location matches .ok (.directory _)

def read (disk : Disk) (location : Location) : Except Refusal Bytes := do
  match ← disk.find true location with
  | .file _ _ content => return content
  | .directory _ => throw .isDirectory
  | .link .. | .vacant .. => throw .notFound

def readText (disk : Disk) (location : Location) : Except Refusal String := do
  match Text.Utf8.decode? (← disk.read location) with
  | some text => return text
  | none => throw .notText

def list (disk : Disk) (location : Location) : Except Refusal (List Item) := do
  match ← disk.find true location with
  | .directory position => return (Item.inside? disk.items position).getD []
  | .file .. => throw .notDirectory
  | .link .. | .vacant .. => throw .notFound

end Disk

/-- A sequence of steps on a disk. One that is refused is the last, and those before it stay done.
-/
abbrev DiskM := EStateM Disk.Refusal Disk

namespace Disk

/-- Asks the system whether it refuses the next step. -/
def permit : DiskM Unit := do
  let disk ← get
  set { disk with refusals := disk.refusals.tail }
  match disk.refusals with
  | some refusal :: _ => throw refusal
  | _ => pure ()

def make (change : Change) : DiskM Unit := do
  permit
  modify fun disk =>
    { disk with items := change.apply disk.items, changes := change :: disk.changes }

def lookUp (through : Bool) (location : Location) : DiskM Found := do
  match (← get).find through location with
  | .ok found => return found
  | .error refusal => throw refusal

def makeDirectory (location : Location) : DiskM Unit := do
  match ← lookUp false location.trim with
  | .vacant position name => make (.directory position name)
  | _ => throw .alreadyExists

/-- Makes a directory, or puts up with one that is there. -/
def ensureDirectory (location : Location) : DiskM Unit :=
  fun disk =>
    match makeDirectory location disk with
    | .ok () disk => .ok () disk
    | .error refusal disk =>
      if disk.isDirectory location then .ok () disk else .error refusal disk

/-- Makes a directory and those around it, which are given from the inside out. -/
def makeDirectoriesIn (location : Location) : (parents : List Location) → DiskM Unit
  | [] => if location = [] then pure () else ensureDirectory location
  | parent :: parents =>
    fun disk =>
      match ensureDirectory location disk with
      | .ok () disk => .ok () disk
      | .error .notFound disk =>
        (do makeDirectoriesIn parent parents; ensureDirectory location : DiskM Unit) disk
      | .error refusal disk => .error refusal disk

/-- Makes a directory and those around it that are missing. -/
def makeDirectories (location : Location) : DiskM Unit :=
  makeDirectoriesIn location location.parents

/-- Makes the content of a file, which is emptied before it is written. -/
def writeFile (location : Location) (content : Bytes) : DiskM Unit := do
  match ← lookUp true location with
  | .directory _ => throw .isDirectory
  | .file position name _ | .vacant position name | .link position name =>
    make (.file position name [])
    if content.isEmpty then pure () else make (.file position name content)

def makeLink (location target : Location) : DiskM Unit := do
  match ← lookUp false location with
  | .vacant position name => make (.link position name target)
  | _ => throw .alreadyExists

def removeFile (location : Location) : DiskM Unit := do
  match ← lookUp false location with
  | .file position name _ | .link position name => make (.remove position name)
  | .directory _ => throw .isDirectory
  | .vacant .. => throw .notFound

mutual

/-- Removes an item of the directory at a position, and before it all that it holds. -/
def clear (position : List Name) : Item → DiskM Unit
  | .directory name items => do
    clearEach (position ++ [name]) items
    make (.remove position name)
  | .file name _ | .link name _ => make (.remove position name)

def clearEach (position : List Name) : List Item → DiskM Unit
  | [] => pure ()
  | item :: rest => do
    clear position item
    clearEach position rest

end

/-- Removes a directory with all that it holds; of a link, only the link. -/
def removeTree (location : Location) : DiskM Unit := do
  match ← lookUp false location with
  | .link position name => make (.remove position name)
  | .file .. => throw .notDirectory
  | .vacant .. => throw .notFound
  | .directory position =>
    let items := (Item.inside? (← get).items position).getD []
    clearEach position items
    match position.getLast? with
    | some name => make (.remove position.dropLast name)
    | none => pure ()

def listDirectory (location : Location) : DiskM (List Item) := do
  permit
  match (← get).list location with
  | .ok items => return items
  | .error refusal => throw refusal

end Disk

end Depot
