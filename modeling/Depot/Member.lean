import Depot.Hierarchy

set_option autoImplicit false

namespace Depot

/-- A file or directory of an archive. -/
inductive Member where
  | file (name : Name) (content : Bytes)
  | directory (name : Name) (children : List Member)

namespace Member

def name : Member → Name
  | file name _ => name
  | directory name _ => name

def isDirectory : Member → Bool
  | file .. => false
  | directory .. => true

def children : Member → List Member
  | file .. => []
  | directory _ children => children

mutual

def same : Member → Member → Bool
  | file name content, file name' content' => name = name' && content = content'
  | directory name children, directory name' children' =>
    name = name' && sameList children children'
  | _, _ => false

def sameList : List Member → List Member → Bool
  | [], [] => true
  | member :: rest, member' :: rest' => same member member' && sameList rest rest'
  | _, _ => false

end

mutual

def size : Member → Nat
  | file .. => 1
  | directory _ children => sizeList children + 1

def sizeList : List Member → Nat
  | [] => 0
  | member :: rest => size member + sizeList rest

end

theorem sizeList_eq (members : List Member) : sizeList members =
    @List.sum Nat instAddNat Zero.ofOfNat0 (members.map size) := by
  induction members with
  | nil => rfl
  | cons member rest ih => rw [sizeList, ih, List.map_cons, List.sum_cons]

instance : Hierarchy Member where
  name := name
  children := children
  size := size
  size_children member := by cases member <;> simp [children, size, sizeList_eq]

/-- The line of a listing for a member: two spaces for each directory around it, then the name, and
a slash or the number of bytes. -/
def line (path : Path) (member : Member) : String :=
  String.join (List.replicate (path.names.length - 1) "  ") ++ member.name.display ++
    match member with
    | file _ content => " (" ++ toString content.length ++ " bytes)"
    | directory .. => "/"

/-- The listing of a tree: one line for each member, each ended by a line feed. -/
def listing (members : List Member) : String :=
  String.join ((Hierarchy.walk members).map fun (path, member) => line path member ++ "\n")

mutual

def spelled : Member → String
  | file name content =>
    "File \x7b name: " ++ name.quoted ++ ", content: " ++ Text.quotedBytes content ++ " \x7d"
  | directory name children =>
    "Directory \x7b name: " ++ name.quoted ++ ", children: [" ++
      ", ".intercalate (spelledEach children) ++ "] \x7d"

def spelledEach : List Member → List String
  | [] => []
  | member :: rest => spelled member :: spelledEach rest

end

def spelledList (members : List Member) : String :=
  "[" ++ ", ".intercalate (spelledEach members) ++ "]"

end Member

end Depot
