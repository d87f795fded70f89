import Depot.Path

set_option autoImplicit false

namespace Depot.Disk

abbrev Location := Bytes

namespace Location

def isAbsolute (location : Location) : Bool :=
  location.head? = some Name.slash

def join (base relative : Location) : Location :=
  if isAbsolute relative ∨ base = [] then relative
  else if base.getLast? = some Name.slash then base ++ relative
  else base ++ Name.slash :: relative

/-- The location as text, damaged parts replaced. -/
def display (location : Location) : String :=
  Text.Utf8.lossy location

/-- The parts that lead on: a doubled slash and a full stop between slashes lead nowhere. -/
def steps (location : Location) : List Bytes :=
  (Path.parts location).filter fun part => part ≠ [] ∧ part ≠ [Name.dot]

def ofSteps (absolute : Bool) (steps : List Bytes) : Location :=
  (if absolute then [Name.slash] else []) ++ [Name.slash].intercalate steps

/-- The locations with fewer and fewer of the first parts, down to none. -/
def shorter (absolute : Bool) : (count : Nat) → List Bytes → List Location
  | 0, _ => []
  | count + 1, steps => ofSteps absolute (steps.take count) :: shorter absolute count steps

/-- The locations that hold another one, the nearest first. -/
def parents (location : Location) : List Location :=
  let steps := steps location
  shorter (isAbsolute location) steps.length steps

/-- The location without slashes at its end, unless it has nothing else. -/
def trim (location : Location) : Location :=
  match (location.reverse.dropWhile (· = Name.slash)).reverse with
  | [] => location.take 1
  | trimmed => trimmed

end Location

end Depot.Disk
