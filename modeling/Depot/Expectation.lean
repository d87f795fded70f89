import Depot.Archive.Compression
import Depot.Entry
import Depot.Outline
import Depot.Path

set_option autoImplicit false

namespace Depot

/-- A file that is expected. -/
structure ExpectedFile where
  name : Name
  content : Bytes
deriving DecidableEq

/-- What is expected in a container: files, directories and archives. -/
abbrev Expectation := List (Outline ExpectedFile)

abbrev ExpectationBuilder := Outline.Builder ExpectedFile

namespace ExpectationBuilder

def file (builder : ExpectationBuilder) (text : String) (content : Bytes) : ExpectationBuilder :=
  match Name.ofString text with
  | .ok name => builder.add { name, content }
  | .error error => builder.fail (.invalidName text error)

end ExpectationBuilder

namespace Expectation

open Archive.Compression (Codec)

def nameOf : Outline ExpectedFile → Name
  | .leaf file => file.name
  | .container _ name _ => name

/-- The kinds of things that a mismatch tells apart. -/
inductive Kind where
  | file
  | directory
  | archive
deriving Repr, DecidableEq

def Kind.phrase : Kind → String
  | file => "a file"
  | directory => "a directory"
  | archive => "an archive"

def kindOf : Outline ExpectedFile → Kind
  | .leaf _ => .file
  | .container .directory .. => .directory
  | .container .archive .. => .archive

def memberKind : Member → Kind
  | .file .. => .file
  | .directory .. => .directory

def expectedLine (expected : Outline ExpectedFile) : String :=
  (nameOf expected).display ++
    match kindOf expected with
    | .file => "\n"
    | .directory => "/\n"
    | .archive => " (archive)\n"

def memberLine (member : Member) : String :=
  member.name.display ++ if member.isDirectory then "/\n" else "\n"

/-- In what an output differs from an expectation. -/
inductive Difference where
  /-- The names in a container: two listings. -/
  | names (expected actual : String)
  | kind (expected actual : Kind)
  /-- The content of a file: two texts. -/
  | content (expected actual : String)
  | notAnArchive (fault : Archive.ReadFault)
deriving DecidableEq

/-- A difference with the path at which it was found. -/
structure Mismatch where
  path : Path
  difference : Difference
deriving DecidableEq

/-- The first name at which two lists differ: the expected one, or else the actual one. -/
def firstDifference : (expected actual : List Name) → Option Name
  | [], [] => none
  | [], actual :: _ => some actual
  | expected :: _, [] => some expected
  | expected :: rest, actual :: rest' =>
    if expected = actual then firstDifference rest rest' else some expected

def compareNames (path : Path) (expected : Expectation) (actual : List Member) :
    Except Mismatch Unit :=
  match firstDifference (expected.map nameOf) (actual.map Member.name) with
  | none => .ok ()
  | some name =>
    let listings := (String.join (expected.map expectedLine), String.join (actual.map memberLine))
    .error { path := path.push name, difference := .names listings.1 listings.2 }

mutual

/-- Compares something that is expected with a member of the same name. -/
def compareItem (codec : Codec) (path : Path) (expected : Outline ExpectedFile) (actual : Member) :
    Except Mismatch Unit :=
  match expected, actual with
  | .leaf file, .file _ content =>
    if file.content = content then .ok ()
    else
      let difference := .content (Text.Utf8.lossy file.content) (Text.Utf8.lossy content)
      .error { path, difference }
  | .container .directory _ children, .directory _ members => do
    compareNames path children members
    compareItems codec path children members
  | .container .archive _ children, .file _ content =>
    match Archive.decodeWith codec content with
    | .error fault => .error { path, difference := .notAnArchive fault }
    | .ok members => do
      compareNames path children members
      compareItems codec path children members
  | expected, actual =>
    .error { path, difference := .kind (kindOf expected) (memberKind actual) }

/-- Compares what is expected in the container at a path with its members, one by one. -/
def compareItems (codec : Codec) (path : Path) (expected : Expectation) (actual : List Member) :
    Except Mismatch Unit :=
  match expected, actual with
  | first :: rest, member :: others => do
    compareItem codec (path.push (nameOf first)) first member
    compareItems codec path rest others
  | _, _ => .ok ()

end

def compare (codec : Codec) (expected : Expectation) (actual : List Entry) :
    Except Mismatch Unit := do
  let members := Entry.toMembers actual
  compareNames .root expected members
  compareItems codec .root expected members

/-- The text of a difference. How two texts are set against each other is left open. -/
def Difference.message (comparison : String → String → String) : Difference → String
  | names expected actual | content expected actual => comparison expected actual
  | kind expected actual => "expected " ++ expected.phrase ++ ", found " ++ actual.phrase
  | notAnArchive fault => "not a valid archive: " ++ fault.message

/-- Why an artifact is not what is expected. -/
inductive Fault where
  | invalid (fault : Outline.Fault)
  | notBuilt (artifact : String)
  | mismatch (artifact : String) (found : Mismatch)
deriving DecidableEq

def Fault.place : Fault → String
  | invalid _ => ""
  | notBuilt artifact => artifact
  | mismatch artifact found => artifact ++ "/" ++ found.path.display

def Fault.detail (comparison : String → String → String) : Fault → String
  | invalid fault => fault.message
  | notBuilt _ => "artifact has not been built"
  | mismatch _ found => found.difference.message comparison

def Fault.code : Fault → String
  | invalid fault => fault.code
  | notBuilt _ | mismatch .. => "StructuralMismatch"

def Fault.message (comparison : String → String → String) (fault : Fault) : String :=
  match fault with
  | invalid _ => fault.detail comparison
  | notBuilt _ | mismatch .. =>
    "output mismatch at '" ++ fault.place ++ "':\n" ++ fault.detail comparison

/-- Checks the output of an artifact, if it was built, against an expectation. -/
def verify (artifact : String) (output? : Option (List Entry)) (builder : ExpectationBuilder)
    (codec : Codec := .stored) : Except Fault Unit :=
  match builder.finish, output? with
  | .error fault, _ => .error (.invalid fault)
  | .ok _, none => .error (.notBuilt artifact)
  | .ok expected, some entries => (compare codec expected entries).mapError (.mismatch artifact)

end Expectation

end Depot
