import Depot.Zstd.Input

set_option autoImplicit false

namespace Depot.Zstd

def magic : Bytes := [0x28, 0xB5, 0x2F, 0xFD]

def maxBlockLength : Nat := 128 * 1024

/-- A window that a header does not take over from the content has at least 1024 bytes; how often it
may be twice as long. -/
def maxDoublings : Nat := 21

/-- What the header of a frame says. -/
structure Header where
  window : Nat
  contentLength? : Option Nat
  checksum : Bool

namespace Header

/-- The longest content of a block in this frame. -/
def blockLimit (header : Header) : Nat :=
  min header.window maxBlockLength

/-- The number of bytes in which a header gives the length of the content. -/
def contentLengthWidth (flag : Nat) (singleSegment : Bool) : Nat :=
  match flag with
  | 0 => if singleSegment then 1 else 0
  | 1 => 2
  | 2 => 4
  | _ => 8

/-- The number of bytes in which a header names a dictionary. -/
def dictionaryWidth (flag : Nat) : Nat :=
  match flag with
  | 0 => 0
  | 1 => 1
  | 2 => 2
  | _ => 4

/-- The length of the content, from the bytes for it. The largest number says that it is not
known. -/
def contentLengthOf? (width stored : Nat) : Option Nat :=
  if width = 0 ∨ stored = 0xFFFFFFFFFFFFFFFF then none
  else some (if width = 2 then stored + 256 else stored)

/-- Reads a header after its magic bytes. Frames that need a dictionary are refused. -/
def read (input : Input) : Except Fault (Header × Input) := do
  let (descriptor, rest) ← input.takeNat 1
  let singleSegment := descriptor / 32 % 2 = 1
  let (window, rest) ← rest.takeNat (if singleSegment then 0 else 1)
  let (dictionary, rest) ← rest.takeNat (dictionaryWidth (descriptor % 4))
  let width := contentLengthWidth (descriptor / 64) singleSegment
  let (stored, rest) ← rest.takeNat width
  let base := 1 <<< (10 + window / 8)
  let header : Header :=
    { window := if singleSegment then stored + (if width = 2 then 256 else 0)
        else base + base / 8 * (window % 8)
      contentLength? := contentLengthOf? width stored
      checksum := descriptor / 4 % 2 = 1 }
  if descriptor / 8 % 2 = 1 ∨ maxDoublings < window / 8 ∨ dictionary ≠ 0 then throw .corrupt
  else return (header, rest)

end Header

end Depot.Zstd
