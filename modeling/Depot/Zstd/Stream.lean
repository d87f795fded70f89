import Depot.Zstd.Frame

set_option autoImplicit false

/-
Compressed byte strings: sequences of frames and of skippable frames, which carry nothing. The input
comes in portions, and so is the content handed out. A frame that lies in one portion, and says of
its content that it does too, is read at once; others are read in pieces through a buffer.
-/

namespace Depot.Zstd

def inputPortion : Nat := maxBlockLength + 3

/-- How many bytes a portion of the content has. -/
def outputPortion : Nat := 8 * 1024

/-- The largest window of a frame that is read in pieces. -/
def maxWindow : Nat := 1 <<< 27 + 1

/-- The least window that the buffer has room for. -/
def minWindow : Nat := 1 <<< 10

/-- The memory for frames that are read in pieces, which is kept from frame to frame: for a block
that has not come in completely, and for content. `roomy` counts for how many frames in a row it was
far too large. -/
structure Buffer where
  input : Nat
  output : Nat
  roomy : Nat

namespace Buffer

def empty : Buffer := ⟨0, 0, 0⟩

/-- Makes sure that there is enough memory. It is got anew if there is not, or if three times as
much as needed has been there for 128 frames. -/
def reserve (buffer : Buffer) (input output : Nat) : Buffer :=
  let roomy :=
    if (input + output) * 3 ≤ buffer.input + buffer.output then buffer.roomy + 1 else 0
  if buffer.input < input ∨ buffer.output < output ∨ 128 ≤ roomy then ⟨input, output, roomy⟩
  else { buffer with roomy }

/-- The buffer for a frame: room for a block or a checksum, and for the content, or if that is
longer, for a window and two blocks with some space around. -/
def forFrame (buffer : Buffer) (header : Header) : Buffer :=
  let around := max header.window minWindow + 2 * header.blockLimit + 64
  buffer.reserve (max header.blockLimit 4) (header.contentLength?.elim around (min around))

def forSkipped (buffer : Buffer) (length : Nat) : Buffer :=
  buffer.reserve 4 (min length (minWindow + 64))

/-- How long the content of a frame may be, unless parts of it have to make room for others. -/
def longest? (buffer : Buffer) (header : Header) : Option Nat :=
  header.contentLength?.bind fun length =>
    if buffer.output < length then none else some buffer.output

end Buffer

/-- Whether a frame is read at once. It starts at a position, and what comes after its header is
given. -/
def isReadAtOnce (header : Header) (start count : Nat) (input : Input) : Bool :=
  header.contentLength?.any (· ≤ outputPortion) &&
    match header.skip count input with
    | .ok rest => rest.position ≤ (start / inputPortion + 1) * inputPortion
    | .error _ => false

/-- Reads a frame that starts at a position, after its magic bytes, and returns its content with the
buffer for the frames after it. The frame has at most `count` blocks. -/
def readFrame (start count : Nat) (buffer : Buffer) (input : Input) :
    Except Fault (Bytes × Buffer × Input) := do
  let (header, rest) ← Header.read input
  if isReadAtOnce header start count rest then
    let (content, rest) ← header.readAtOnce outputPortion count .start #[] rest
    let (content, rest) ← header.readChecksum content rest
    return (content, buffer, rest)
  else if maxWindow < header.window then throw .corrupt
  else
    let buffer := buffer.forFrame header
    let (content, rest) ← header.readInPieces (buffer.longest? header) count .start #[] rest
    let (content, rest) ← header.readChecksum content rest
    return (content, buffer, rest)

/-- The magic number of a frame that is skipped, of which there are sixteen. -/
def isSkippable (word : Bytes) : Bool :=
  match word with
  | [first, 0x2A, 0x4D, 0x18] => first.toNat / 16 = 5
  | _ => false

/-- Reads a skippable frame after its magic bytes. -/
def skipFrame (buffer : Buffer) (input : Input) : Except Fault (Buffer × Input) := do
  let (length, rest) ← input.takeNat 4
  let (_, rest) ← rest.take length
  return (buffer.forSkipped length, rest)

/-- A text that ends within the magic bytes is incomplete if it could still become a frame. -/
def endsInMagic (input : Bytes) : Bool :=
  input = magic.take input.length ||
    isSkippable (input ++ [0x50, 0x2A, 0x4D, 0x18].drop input.length)

/-- Decompresses a sequence of frames, of which there are at most `count`, with at most as many
blocks. -/
def readFrames : (count : Nat) → Buffer → Input → Except Fault Bytes
  | 0, _, input => if input.bytes = [] then .ok [] else .error .incomplete
  | count + 1, buffer, input =>
    if input.bytes = [] then .ok []
    else
      match input.take 4 with
      | .error _ => .error (if endsInMagic input.bytes then .incomplete else .corrupt)
      | .ok (word, rest) =>
        if word = magic then do
          let (content, buffer, rest) ← readFrame input.position (count + 1) buffer rest
          return content ++ (← readFrames count buffer rest)
        else if isSkippable word then do
          let (buffer, rest) ← skipFrame buffer rest
          readFrames count buffer rest
        else .error .corrupt

def decompress (input : Bytes) : Except Fault Bytes :=
  readFrames input.length .empty (.start input)

/-- Content as blocks that are stored as they are, the last one marked. -/
def storedBlocks (content : Bytes) : Bytes :=
  let last := content.length ≤ maxBlockLength
  let block := content.take maxBlockLength
  let word := block.length * 8 + (if last then 1 else 0)
  if last then Bytes.ofNat 3 word ++ block
  else Bytes.ofNat 3 word ++ (block ++ storedBlocks (content.drop maxBlockLength))
termination_by content.length
decreasing_by
  simp_all only [List.length_drop, maxBlockLength]
  omega

/-- Writes a single frame with a window of one block. -/
def compress (content : Bytes) : Bytes :=
  magic ++ ([0x00, 0x38] ++ storedBlocks content)

end Depot.Zstd
