import Depot.Zstd.Fse
import Depot.Zstd.Input

set_option autoImplicit false

namespace Depot.Zstd

/-- A number of literals, and then a copy of so many bytes from so far back. -/
structure Sequence where
  literals : Nat
  back : Nat
  length : Nat

/-- The distances of the last copies, the latest first. -/
structure Recent where
  first : Nat
  second : Nat
  third : Nat

/-- The tables of the last sequences, for those that use them again. -/
structure SequenceTables where
  literals? : Option Fse.Table
  distances? : Option Fse.Table
  lengths? : Option Fse.Table

namespace Sequence

/-- How many extra bits the codes for a number of literals have, from code zero on. -/
def literalWidths : List Nat :=
  List.replicate 16 0 ++ [1, 1, 1, 1, 2, 2, 3, 3, 4, 6, 7, 8, 9, 10, 11, 12, 13, 14, 15, 16]

/-- How many extra bits the codes for the length of a copy have, from code zero on. -/
def lengthWidths : List Nat :=
  List.replicate 32 0 ++ [1, 1, 1, 1, 2, 2, 3, 3, 4, 4, 5, 7, 8, 9, 10, 11, 12, 13, 14, 15, 16]

/-- Takes the number of a code: the least that no smaller code has, and on top of it the extra
bits. -/
def codedNumber (least : Nat) (widths : List Nat) (code : Nat) : BitsM Nat := do
  let base := (widths.take code).foldl (fun base width => base + 1 <<< width) least
  return base + (← Bits.numberHighFirst (← widths[code]?))

/-- The table where symbols have the given numbers of cells; zero stands for a rare symbol. -/
def fixedTable (accuracy : Nat) (counts : List Nat) : Fse.Table :=
  .ofDistribution ⟨accuracy, counts.map fun count => if count = 0 then .rare else .cells count⟩

/-- What a table is for. -/
inductive Field where
  | literals
  | distances
  | lengths

namespace Field

def fixed : Field → Fse.Table
  | literals => fixedTable 6
    [4, 3, 2, 2, 2, 2, 2, 2, 2, 2, 2, 2, 2, 1, 1, 1, 2, 2, 2, 2, 2, 2, 2, 2, 2, 3, 2, 1, 1, 1, 1, 1,
      0, 0, 0, 0]
  | distances => fixedTable 5
    [1, 1, 1, 1, 1, 1, 2, 2, 2, 1, 1, 1, 1, 1, 1, 1, 1, 1, 1, 1, 1, 1, 1, 1, 0, 0, 0, 0, 0]
  | lengths => fixedTable 6
    [1, 4, 3, 2, 2, 2, 2, 2, 2, 1, 1, 1, 1, 1, 1, 1, 1, 1, 1, 1, 1, 1, 1, 1, 1, 1, 1, 1, 1, 1, 1, 1,
      1, 1, 1, 1, 1, 1, 1, 1, 1, 1, 1, 1, 1, 1, 0, 0, 0, 0, 0, 0, 0]

def maxAccuracy : Field → Nat
  | distances => 8
  | _ => 9

def symbols : Field → Nat
  | literals => 36
  | distances => 32
  | lengths => 53

/-- Reads the description of a table off the front of a byte string. -/
def readTable (field : Field) (mode : Nat) (last? : Option Fse.Table) (input : Bytes) :
    Option (Fse.Table × Bytes) :=
  match mode with
  | 0 => some (field.fixed, input)
  | 1 =>
    match input with
    | symbol :: rest =>
      if symbol.toNat < field.symbols then some (.single symbol.toNat, rest) else none
    | [] => none
  | 2 => do
    let (distribution, rest) ← Fse.Distribution.read? field.maxAccuracy field.symbols input
    return (.ofDistribution distribution, rest)
  | _ => last?.map fun table => (table, input)

end Field

/-- Reads the number of sequences off the front of a byte string. -/
def readCount : Bytes → Option (Nat × Bytes)
  | [] => none
  | first :: rest =>
    if first.toNat < 128 then some (first.toNat, rest)
    else if first.toNat < 255 then
      match rest with
      | second :: rest => some ((first.toNat - 128) * 256 + second.toNat, rest)
      | [] => none
    else
      match rest with
      | second :: third :: rest => some (second.toNat + 256 * third.toNat + 0x7F00, rest)
      | _ => none

/-- The distance for a number, and the distances to remember. Small numbers stand for distances of
earlier copies; which these are depends on whether literals come before. -/
def distance (recent : Recent) (literals number : Nat) : Nat × Recent :=
  let { first, second, third } := recent
  if 3 < number then (number - 3, ⟨number - 3, first, second⟩)
  else
    match if literals = 0 then number + 1 else number with
    | 1 => (first, recent)
    | 2 => (second, ⟨second, first, third⟩)
    | 3 => (third, ⟨third, first, second⟩)
    | _ => (first - 1, ⟨first - 1, first, second⟩)

/-- Where the walks through the tables are. -/
structure Position where
  literals : Fse.Cell
  distances : Fse.Cell
  lengths : Fse.Cell

/-- Takes sequences, of which there is one more than `count`, and puts them after others. -/
def takeSequences (literals distances lengths : Fse.Table) : (count : Nat) → (position : Position) →
    (recent : Recent) → (into : Array Sequence) → BitsM (Array Sequence × Recent)
  | count, position, recent, into => do
    let code := position.distances.symbol
    let number := 1 <<< code + (← Bits.numberHighFirst code)
    let length ← codedNumber 3 lengthWidths position.lengths.symbol
    let skipped ← codedNumber 0 literalWidths position.literals.symbol
    let (back, recent) := distance recent skipped number
    let into := into.push ⟨skipped, back, length⟩
    match count with
    | 0 => return (into, recent)
    | count + 1 =>
      let cell ← literals.next position.literals
      let lengthCell ← lengths.next position.lengths
      let distanceCell ← distances.next position.distances
      takeSequences literals distances lengths count ⟨cell, distanceCell, lengthCell⟩ recent into

/-- Reads all sequences of a block, given what is after the literals. -/
def readAll (tables : SequenceTables) (recent : Recent) (input : Bytes) :
    Option (Array Sequence × SequenceTables × Recent) := do
  match ← readCount input with
  | (0, rest) => if rest.isEmpty then return (#[], tables, recent) else failure
  | (count + 1, modes :: rest) =>
    let modes := modes.toNat
    if modes % 4 ≠ 0 then failure
    let (literals, rest) ← Field.literals.readTable (modes / 64) tables.literals? rest
    let (distances, rest) ← Field.distances.readTable (modes / 16 % 4) tables.distances? rest
    let (lengths, rest) ← Field.lengths.readTable (modes / 4 % 4) tables.lengths? rest
    let read : BitsM (Array Sequence × Recent) := do
      let cell ← literals.start
      let distanceCell ← distances.start
      let lengthCell ← lengths.start
      takeSequences literals distances lengths count ⟨cell, distanceCell, lengthCell⟩ recent #[]
    let ((sequences, recent), left) ← read (← Bits.backward? rest)
    if left.isEmpty then return (sequences, ⟨literals, distances, lengths⟩, recent) else failure
  | (_ + 1, []) => failure

/-- Appends a copy of what is so far back, which may overlap with the copy. -/
def copy (back : Nat) : (length : Nat) → Array UInt8 → Array UInt8
  | 0, content => content
  | length + 1, content => copy back length (content.push (content.getD (content.size - back) 0))

/-- Does what a sequence says: the content after it, and how many literals have been used. -/
def apply (literals : Array UInt8) (content : Array UInt8) (used : Nat) (sequence : Sequence) :
    Option (Array UInt8 × Nat) :=
  let used' := used + sequence.literals
  let content := content ++ literals.extract used used'
  if literals.size < used' ∨ sequence.back = 0 ∨ content.size < sequence.back then none
  else some (copy sequence.back sequence.length content, used')

/-- Does what all sequences say, and appends the literals that are left over. -/
def applyAll (sequences : Array Sequence) (literals content : Array UInt8) :
    Option (Array UInt8) := do
  let (content, used) ← sequences.foldlM
    (fun (content, used) sequence => apply literals content used sequence) (content, 0)
  return content ++ literals.extract used literals.size

end Sequence

end Depot.Zstd
