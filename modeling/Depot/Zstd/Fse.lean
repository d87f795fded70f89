import Depot.Zstd.Bits

set_option autoImplicit false

namespace Depot.Zstd.Fse

/-- How many cells of a table a symbol has. -/
inductive Share where
  /-- One cell, and after it all bits are read anew. -/
  | rare
  | cells (count : Nat)
deriving Repr, DecidableEq

/-- The shares of the symbols from zero on, in a table with two to the power of `accuracy` cells. -/
structure Distribution where
  accuracy : Nat
  shares : List Share

/-- Takes the number for a share, which is at most the number of cells that are left, counted with
one more. The small ones are a bit shorter. -/
def shareNumber (left : Nat) : BitsM Nat := do
  let width := Nat.log2 left
  let short := 1 <<< (width + 1) - 1 - left
  let low ← Bits.number width
  if low < short then return low
  let value := low + (← Bits.number 1) <<< width
  return if value < 1 <<< width then value else value - short

/-- Takes the number of symbols that have no cells, apart from a first one. -/
def absent : (count : Nat) → BitsM Nat
  | 0 => failure
  | count + 1 => do
    let symbols ← Bits.number 2
    if symbols = 3 then return 3 + (← absent count) else return symbols

/-- Takes the shares of at most `count` symbols until one cell is left, counted with one more. -/
def takeShares : (count left : Nat) → BitsM (List Share)
  | 0, left => if left = 1 then return [] else failure
  | count + 1, left => do
    if left = 1 then return []
    match ← shareNumber left with
    | 0 => return .rare :: (← takeShares count (left - 1))
    | 1 =>
      let more ← absent (count + 1)
      return List.replicate (more + 1) (.cells 0) ++ (← takeShares (count - more) left)
    | cells + 2 => return .cells (cells + 1) :: (← takeShares count (left - (cells + 1)))

/-- Reads a distribution of at most `symbols` symbols off the front of a byte string. -/
def Distribution.read? (maxAccuracy symbols : Nat) (input : Bytes) :
    Option (Distribution × Bytes) := do
  let read : BitsM Distribution := do
    let accuracy := (← Bits.number 4) + 5
    if maxAccuracy < accuracy then failure
    return ⟨accuracy, ← takeShares symbols (1 <<< accuracy + 1)⟩
  let bits := Bits.ofBytes input
  let (distribution, rest) ← read bits
  if symbols < distribution.shares.length then failure
  return (distribution, input.drop ((bits.length - rest.length + 7) / 8))

/-- A cell: the symbol that it stands for, and where it leads. -/
structure Cell where
  symbol : Nat
  base : Nat
  width : Nat

/-- A table with two to the power of `accuracy` cells. -/
structure Table where
  accuracy : Nat
  cells : Array Cell

namespace Table

def single (symbol : Nat) : Table :=
  ⟨0, #[⟨symbol, 0, 0⟩]⟩

/-- The cells for the symbols of a table in order. For each symbol `next` holds the number that its
next cell has among all of that symbol, counted from its share. -/
def number (accuracy : Nat) (next : Array Nat) : (symbols : List Nat) → List Cell
  | [] => []
  | symbol :: rest =>
    let place := next.getD symbol 1
    let width := accuracy - Nat.log2 place
    { symbol, base := place <<< width - 1 <<< accuracy, width }
      :: number accuracy (next.setIfInBounds symbol (place + 1)) rest

/-- The table for a distribution. Rare symbols are at the end; the others are spread evenly over
what is left. -/
def ofDistribution (distribution : Distribution) : Table :=
  let size := 1 <<< distribution.accuracy
  let listed := distribution.shares.zipIdx
  let rare := listed.filterMap fun (share, symbol) => if share = .rare then some symbol else none
  let common := listed.flatMap fun (share, symbol) =>
    match share with
    | .rare => []
    | .cells count => List.replicate count symbol
  let step := size / 2 + size / 8 + 3
  let places :=
    ((List.range size).map fun index => index * step % size).filter (· < size - rare.length)
  let ends := (List.range rare.length).map fun index => size - 1 - index
  let symbols := (places.zip common ++ ends.zip rare).foldl
    (fun symbols (place, symbol) => symbols.setIfInBounds place symbol) (Array.replicate size 0)
  let first := distribution.shares.map fun share =>
    match share with
    | .rare => 1
    | .cells count => count
  ⟨distribution.accuracy, (number distribution.accuracy first.toArray symbols.toList).toArray⟩

/-- Takes the first cell of a walk through the table. -/
def start (table : Table) : BitsM Cell := do
  table.cells[← Bits.numberHighFirst table.accuracy]?

def next (table : Table) (cell : Cell) : BitsM Cell := do
  table.cells[cell.base + (← Bits.numberHighFirst cell.width)]?

end Table

end Depot.Zstd.Fse
