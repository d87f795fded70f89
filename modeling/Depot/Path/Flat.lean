import Depot.Disk.Location
import Depot.FileSystem.Fault

set_option autoImplicit false

namespace Depot.Path.Flat

def root : Bytes := []

def ofName (name : Name) : Bytes := name.bytes

def push (path : Bytes) (name : Name) : Bytes :=
  (if path = [] then [] else path ++ [Name.slash]) ++ name.bytes

/-- What comes before the last slash and what comes after it. -/
def cutLast? : Bytes → Option (Bytes × Bytes)
  | [] => none
  | byte :: rest =>
    match cutLast? rest with
    | some (front, back) => some (byte :: front, back)
    | none => if byte = Name.slash then some ([], rest) else none

/-- The path up to its last slash, which is the root if it has none; the root has no parent. -/
def parent? (path : Bytes) : Option Bytes :=
  if path = [] then none
  else
    match cutLast? path with
    | some (front, _) => some front
    | none => some root

/-- The parts between the slashes. No bytes at all would be one empty part, which the root has not.
-/
def components (path : Bytes) : List Bytes :=
  if path = [] then (parts path).tail else parts path

def name? (path : Bytes) : Option Bytes :=
  (components path).getLast?

def check : List Bytes → Except NameError Unit
  | [] => .ok ()
  | part :: rest =>
    match Name.fault? part with
    | some error => .error error
    | none => check rest

/-- Takes a byte string as it is, if all of its parts are names or it is empty. -/
def parse (bytes : Bytes) : Except NameError Bytes := do
  if bytes ≠ [] then check (parts bytes)
  return bytes

/-- Adds a step of a location on a disk, which is to be a text and a name and not to lead upwards.
-/
def descend (invalid : FileSystem.Fault) (path step : Bytes) : Except FileSystem.Fault Bytes :=
  if step = [Name.dot, Name.dot] ∨ (Text.Utf8.decode? step).isNone then .error invalid
  else
    match Name.ofBytes step with
    | .ok name => .ok (push path name)
    | .error error => .error (.invalidName error)

/-- The path for a location on a disk that does not start at its root. -/
def ofLocation (location : Disk.Location) : Except FileSystem.Fault Bytes :=
  let invalid := FileSystem.Fault.invalidPath location.display
  if Disk.Location.isAbsolute location then .error invalid
  else location.steps.foldlM (descend invalid) root

end Depot.Path.Flat
