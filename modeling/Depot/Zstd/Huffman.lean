import Depot.Zstd.Fse

set_option autoImplicit false

namespace Depot.Zstd.Huffman

def maxWidth : Nat := 12

/-- A code word: the byte that it stands for, and how many bits it has. -/
structure Word where
  byte : UInt8
  length : Nat

/-- A code: for each sequence of `width` bits, the word that it starts with. -/
structure Code where
  width : Nat
  words : Array Word

namespace Code

/-- How many sequences of bits start with a word of the given weight. -/
def spread (weight : Nat) : Nat :=
  if weight = 0 then 0 else 1 <<< (weight - 1)

/-- The code with the given weights, the last of which is left out because it follows from the
others. -/
def ofWeights? (weights : List Nat) : Option Code :=
  let used := weights.foldl (fun used weight => used + spread weight) 0
  let width := Nat.log2 used + 1
  let left := 1 <<< width - used
  let last := Nat.log2 left + 1
  let weights := weights ++ [last]
  if used = 0 ∨ spread last ≠ left ∨ maxWidth < width ∨ 256 < weights.length ∨
      weights.count 1 < 2 then none
  else
    let words := (List.range width).flatMap fun index =>
      weights.zipIdx.flatMap fun (weight, byte) =>
        if weight = index + 1 then
          List.replicate (spread weight) ⟨UInt8.ofNat byte, width - index⟩
        else []
    some ⟨width, words.toArray⟩

/-- Takes the word that bits start with. At their end zeros stand for what is missing to look it
up. -/
def word (code : Code) : BitsM Word := do
  let ahead := (← get).take code.width
  let ahead := ahead ++ List.replicate (code.width - ahead.length) false
  let word ← code.words[Bits.toNatHighFirst ahead]?
  let _ ← Bits.pull word.length
  return word

/-- Reads a number of words, which are all that there is, and puts their bytes after others. -/
def decode? (code : Code) : (count : Nat) → (into : Array UInt8) → Bits → Option (Array UInt8)
  | 0, into, bits => if bits.isEmpty then some into else none
  | count + 1, into, bits => do
    let (word, rest) ← code.word bits
    decode? code count (into.push word.byte) rest

end Code

def plainWeights (count : Nat) (input : Bytes) : List Nat :=
  (input.flatMap fun byte => [byte.toNat / 16, byte.toNat % 16]).take count

/-- The weights that are written as two walks through one table, taking turns, up to the end of the
bits. There are at most `count`. -/
def walkedWeights (table : Fse.Table) : (count : Nat) → (cell other : Fse.Cell) → Bits →
    Option (List Nat)
  | 0, _, _, _ => none
  | count + 1, cell, other, bits =>
    match table.next cell bits with
    | some (next, rest) => (walkedWeights table count other next rest).map (cell.symbol :: ·)
    | none => if bits.length < cell.width then some [cell.symbol, other.symbol] else none

/-- The weights in a byte string that is all about them. -/
def codedWeights? (input : Bytes) : Option (List Nat) := do
  let (distribution, rest) ← Fse.Distribution.read? 6 256 input
  let table := Fse.Table.ofDistribution distribution
  let (cell, bits) ← table.start (← Bits.backward? rest)
  let (other, bits) ← table.start bits
  walkedWeights table 254 cell other bits

/-- Reads a code off the front of a byte string. -/
def Code.read? : Bytes → Option (Code × Bytes)
  | [] => none
  | first :: input => do
    let plain := 128 ≤ first.toNat
    let count := first.toNat - 127
    let length := if plain then (count + 1) / 2 else first.toNat
    let described := input.take length
    if described.length < length then failure
    let weights ← if plain then some (plainWeights count described) else codedWeights? described
    return (← ofWeights? weights, input.drop length)

end Depot.Zstd.Huffman
