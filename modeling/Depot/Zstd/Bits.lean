import Depot.Bytes

set_option autoImplicit false

namespace Depot.Zstd

abbrev Bits := List Bool

/-- A read from the bits that are left, which fails if there are too few. -/
abbrev BitsM := StateT Bits Option

namespace Bits

def ofByte (byte : UInt8) : Bits :=
  (List.range 8).map fun place => byte.toNat.testBit place

/-- The bits of a byte string that is read from its first byte on. -/
def ofBytes (bytes : Bytes) : Bits :=
  bytes.flatMap ofByte

/-- The bits of a byte string that is read from its last byte back. They come after the highest bit
that is set in that byte, of which there has to be one. -/
def backward? (bytes : Bytes) : Option Bits :=
  match bytes.reverse with
  | [] => none
  | last :: others =>
    match (ofByte last).reverse.dropWhile (!·) with
    | [] => none
    | _ :: bits => some (bits ++ others.flatMap fun byte => (ofByte byte).reverse)

def toNat : Bits → Nat
  | [] => 0
  | bit :: rest => bit.toNat + 2 * toNat rest

/-- The number whose binary digits are given, the highest first. -/
def toNatHighFirst (bits : Bits) : Nat :=
  bits.foldl (fun value bit => 2 * value + bit.toNat) 0

/-- Takes a number of bits. -/
def pull (count : Nat) : BitsM Bits := do
  let left ← get
  let taken := left.take count
  if taken.length < count then failure
  set (left.drop count)
  return taken

/-- Takes a number, its lowest digit first. -/
def number (width : Nat) : BitsM Nat :=
  return toNat (← pull width)

def numberHighFirst (width : Nat) : BitsM Nat :=
  return toNatHighFirst (← pull width)

end Bits

end Depot.Zstd
