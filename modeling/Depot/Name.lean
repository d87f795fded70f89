import Depot.Text.Quoted

set_option autoImplicit false

namespace Depot

/-- Why a byte string is no name. -/
inductive NameError where
  | empty
  | reserved (name : Bytes)
  | tooLong (length : Nat)
  | slash (name : Bytes)
  | nul (name : Bytes)
deriving Repr, DecidableEq

namespace Name

def maxLength : Nat := 255

/-- The byte that separates the parts of a path. -/
def slash : UInt8 := 0x2F

def dot : UInt8 := 0x2E

/-- The first reason against a byte string as a name, if there is one. -/
def fault? (bytes : Bytes) : Option NameError :=
  if bytes = [] then some .empty
  else if bytes = [dot] ∨ bytes = [dot, dot] then some (.reserved bytes)
  else if maxLength < bytes.length then some (.tooLong bytes.length)
  else if slash ∈ bytes then some (.slash bytes)
  else if 0 ∈ bytes then some (.nul bytes)
  else none

theorem fault?_eq_none_iff (bytes : Bytes) :
    fault? bytes = none ↔
      bytes ≠ [] ∧ bytes ≠ [dot] ∧ bytes ≠ [dot, dot] ∧ bytes.length ≤ maxLength ∧
        slash ∉ bytes ∧ 0 ∉ bytes := by
  unfold fault?
  grind

end Name

/-- A name: not empty, at most 255 bytes long, neither `.` nor `..`, without slash and NUL. -/
structure Name where
  bytes : Bytes
  valid : Name.fault? bytes = none
deriving DecidableEq

namespace Name

def ofBytes (bytes : Bytes) : Except NameError Name :=
  match valid : fault? bytes with
  | none => .ok ⟨bytes, valid⟩
  | some error => .error error

def ofString (text : String) : Except NameError Name :=
  ofBytes (Bytes.ofString text)

/-- The name as text, damaged parts replaced. -/
def display (name : Name) : String :=
  Text.Utf8.lossy name.bytes

def text? (name : Name) : Option String :=
  Text.Utf8.decode? name.bytes

/-- The name in quotes, byte by byte where it is not UTF-8. -/
def quoted (name : Name) : String :=
  Text.quotedBytes name.bytes

def precedes (left right : Name) : Bool :=
  Bytes.precedes left.bytes right.bytes

@[ext]
theorem ext {left right : Name} (same : left.bytes = right.bytes) : left = right := by
  cases left
  cases right
  cases same
  rfl

theorem ofBytes_bytes (name : Name) : ofBytes name.bytes = .ok name := by
  unfold ofBytes
  split
  · rfl
  · next error fault => simp [name.valid] at fault

theorem bytes_of_ofBytes {bytes : Bytes} {name : Name} (read : ofBytes bytes = .ok name) :
    name.bytes = bytes := by
  unfold ofBytes at read
  split at read
  · cases read
    rfl
  · cases read

end Name

namespace NameError

def code : NameError → String
  | empty => "Empty"
  | reserved _ => "Reserved"
  | tooLong _ => "TooLong"
  | slash _ => "Slash"
  | nul _ => "Nul"

def message : NameError → String
  | empty => "name is empty"
  | reserved name => Text.quoted (Text.Utf8.lossy name) ++ " is reserved"
  | slash name => Text.quoted (Text.Utf8.lossy name) ++ " contains a slash"
  | nul name => Text.quoted (Text.Utf8.lossy name) ++ " contains a NUL byte"
  | tooLong length =>
    "name is " ++ toString length ++ " bytes long, at most " ++ toString Name.maxLength
      ++ " are allowed"

end NameError

end Depot
