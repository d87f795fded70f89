import Depot.Path

set_option autoImplicit false

namespace Depot

/-- The stamp of a change. After the greatest stamp, the next one is 0 again. -/
abbrev Stamp := UInt64

namespace FileSystem

/-- What cannot be done with a root directory. -/
inductive RootAction where
  | named
  | created
  | renamed
  | deleted
deriving Repr, DecidableEq

/-- Why an operation is refused. Paths are those of the nodes concerned. -/
inductive Fault where
  | alreadyExists (path : Path)
  | invalidName (error : NameError)
  | invalidPath (text : String)
  | notADirectory (path : Path)
  | isADirectory (path : Path)
  | readOnly (path : Path)
  | deleted (path : Path)
  | staleStamp (path : Path) (current new : Stamp)
  | root (action : RootAction)
deriving DecidableEq

/-- The classes that input and output libraries sort errors into. -/
inductive Category where
  | notFound
  | alreadyExists
  | permissionDenied
  | invalidInput
  | other
deriving Repr, DecidableEq

def Category.code : Category → String
  | notFound => "NotFound"
  | alreadyExists => "AlreadyExists"
  | permissionDenied => "PermissionDenied"
  | invalidInput => "InvalidInput"
  | other => "Other"

namespace Fault

def code : Fault → String
  | alreadyExists _ => "AlreadyExists"
  | invalidName _ => "InvalidName"
  | invalidPath _ => "InvalidPath"
  | notADirectory _ => "NotADirectory"
  | isADirectory _ => "IsADirectory"
  | readOnly _ => "ReadOnly"
  | deleted _ => "Invalid"
  | staleStamp .. => "StaleStamp"
  | root _ => "Root"

def category : Fault → Category
  | deleted _ => .notFound
  | alreadyExists _ => .alreadyExists
  | readOnly _ => .permissionDenied
  | invalidName _ | invalidPath _ | staleStamp .. => .invalidInput
  | notADirectory _ | isADirectory _ | root _ => .other

def message : Fault → String
  | alreadyExists path => path.display ++ " already exists"
  | invalidName error => "invalid name: " ++ error.message
  | invalidPath text => "invalid path: " ++ Text.quoted text
  | notADirectory path => path.display ++ " is not a directory"
  | isADirectory path => path.display ++ " is a directory"
  | readOnly path => path.display ++ " is not writable"
  | deleted path => path.display ++ " has been deleted"
  | staleStamp path current new =>
    "stamp " ++ toString new ++ " for " ++ path.display ++ " is not newer than " ++ toString current
  | root action =>
    "the root directory cannot be " ++
      match action with
      | .named => "named"
      | .created => "created"
      | .renamed => "renamed"
      | .deleted => "deleted"

end Fault

end FileSystem

end Depot
