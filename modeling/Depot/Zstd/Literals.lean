import Depot.Zstd.Huffman
import Depot.Zstd.Input

set_option autoImplicit false

namespace Depot.Zstd

/-- The literals of a block, the code of its last ones that had a code, and what follows them. -/
structure Literals where
  bytes : Array UInt8
  code? : Option Huffman.Code
  rest : Bytes

namespace Literals

/-- How the head of the literals gives a length: how many bytes the head has, and at which bit the
length starts. -/
def headShape : (format : Nat) → Nat × Nat
  | 1 => (2, 16)
  | 3 => (3, 16)
  | _ => (1, 8)

/-- How the head gives two lengths: how many bytes the head has, and how many bits a length. -/
def codedHeadShape : (format : Nat) → Nat × Nat
  | 2 => (4, 14)
  | 3 => (5, 18)
  | _ => (3, 10)

def readPlain (repeated : Bool) (format : Nat) (code? : Option Huffman.Code) (input : Bytes) :
    Option Literals := do
  let (width, divisor) := headShape format
  let (head, rest) ← (takeNat width input).toOption
  let length := head / divisor
  let (written, rest) ← (take (if repeated then 1 else length) rest).toOption
  let bytes := if repeated then (List.replicate length written).flatten else written
  return ⟨bytes.toArray, code?, rest⟩

/-- Reads a number of words that are all there is in a byte string. -/
def decodeStream (code : Huffman.Code) (count : Nat) (input : Bytes) (into : Array UInt8) :
    Option (Array UInt8) := do
  code.decode? count into (← Bits.backward? input)

/-- Reads words from four byte strings, of which the first three have equally many. -/
def decodeStreams (code : Huffman.Code) (count : Nat) (input : Bytes) : Option (Array UInt8) := do
  if count < 6 then failure
  let (first, input) ← (takeNat 2 input).toOption
  let (second, input) ← (takeNat 2 input).toOption
  let (third, input) ← (takeNat 2 input).toOption
  let (first, input) ← (take first input).toOption
  let (second, input) ← (take second input).toOption
  let (third, fourth) ← (take third input).toOption
  let each := (count + 3) / 4
  let bytes ← decodeStream code each first #[]
  let bytes ← decodeStream code each second bytes
  let bytes ← decodeStream code each third bytes
  decodeStream code (count - 3 * each) fourth bytes

/-- Literals that are written with a code, which may be the one of an earlier block. -/
def readCoded (treeless : Bool) (format : Nat) (code? : Option Huffman.Code) (input : Bytes) :
    Option Literals := do
  let (width, digits) := codedHeadShape format
  let (head, rest) ← (takeNat width input).toOption
  let count := (head >>> 4) % (1 <<< digits)
  let (coded, rest) ← (take (head >>> (4 + digits)) rest).toOption
  let (code, streams) ←
    if treeless then code?.map fun code => (code, coded) else Huffman.Code.read? coded
  let bytes ←
    if format = 0 then decodeStream code count streams #[] else decodeStreams code count streams
  return ⟨bytes, some code, rest⟩

/-- Reads the literals off the front of a block. `code?` is the code of an earlier block. -/
def read (limit : Nat) (code? : Option Huffman.Code) (input : Bytes) : Option Literals := do
  let format := (← input.head?).toNat / 4 % 4
  let literals ←
    match (← input.head?).toNat % 4 with
    | 0 => readPlain false format code? input
    | 1 => readPlain true format code? input
    | 2 => readCoded false format code? input
    | _ => readCoded true format code? input
  if limit < literals.bytes.size then failure
  return literals

end Literals

end Depot.Zstd
