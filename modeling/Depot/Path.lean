import Depot.Name

set_option autoImplicit false

namespace Depot

/-- A path below some root. -/
structure Path where
  names : List Name
deriving DecidableEq

namespace Path

def root : Path := ⟨[]⟩

def push (path : Path) (name : Name) : Path := ⟨path.names ++ [name]⟩

def ofName (name : Name) : Path := ⟨[name]⟩

/-- The path without its last name; the root has none. -/
def parent? (path : Path) : Option Path :=
  match path.names with
  | [] => none
  | name :: rest => some ⟨(name :: rest).dropLast⟩

def name? (path : Path) : Option Name :=
  path.names.getLast?

def bytes (path : Path) : Bytes :=
  [Name.slash].intercalate (path.names.map Name.bytes)

/-- The path as text, damaged parts replaced. -/
def display (path : Path) : String :=
  Text.Utf8.lossy path.bytes

def quoted (path : Path) : String :=
  Text.quotedBytes path.bytes

/-- Paths are ordered by the bytes of their text. -/
def precedes (left right : Path) : Bool :=
  Bytes.precedes left.bytes right.bytes

def parts : Bytes → List Bytes
  | [] => [[]]
  | byte :: rest =>
    if byte = Name.slash then [] :: parts rest
    else
      match parts rest with
      | [] => [[byte]]
      | part :: others => (byte :: part) :: others

/-- Reads a path: the empty text, or names between single slashes. The first part that is no name
gives the error. -/
def ofBytes (bytes : Bytes) : Except NameError Path :=
  if bytes = [] then .ok root
  else return ⟨← (parts bytes).mapM Name.ofBytes⟩

def ofString (text : String) : Except NameError Path :=
  ofBytes (Bytes.ofString text)

end Path

end Depot
