import Depot.Archive.Fault
import Depot.FileSystem.Fault

set_option autoImplicit false

namespace Depot

/-- Why a source cannot be read. -/
inductive UnreadableReason where
  | refused (fault : FileSystem.Fault)
  | deletedDirectory
  | notADirectory
deriving DecidableEq

def UnreadableReason.message : UnreadableReason → String
  | refused fault => fault.message
  | deletedDirectory => "source directory has been deleted"
  | notADirectory => "source is not a directory"

/-- Why an artifact cannot be built. -/
inductive BuildFault where
  | unreadable (path : Path) (reason : UnreadableReason)
  | unknownArtifact (name : String)
  /-- The artifacts that include each other, from the one that is built to the one that is repeated.
  -/
  | cycle (chain : List String)
  | duplicateEntry (artifact : String) (path : Path)
  | archive (artifact : String) (path : Path) (fault : Archive.WriteFault)
deriving DecidableEq

def BuildFault.code : BuildFault → String
  | unreadable .. => "UnreadableSource"
  | unknownArtifact _ => "UnknownArtifact"
  | cycle _ => "ArtifactCycle"
  | duplicateEntry .. => "DuplicateEntry"
  | archive .. => "Archive"

def BuildFault.message : BuildFault → String
  | unreadable path reason => "unable to read source " ++ path.display ++ ": " ++ reason.message
  | unknownArtifact name => "unknown artifact '" ++ name ++ "'"
  | cycle chain => "artifact inclusion cycle: " ++ " -> ".intercalate chain
  | duplicateEntry artifact path =>
    artifact ++ ": duplicate output entry '" ++ path.display ++ "'"
  | archive artifact path fault =>
    artifact ++ ": unable to encode archive '" ++ path.display ++ "': " ++ fault.message

end Depot
