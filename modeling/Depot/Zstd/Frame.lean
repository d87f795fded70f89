import Depot.Zstd.Checksum
import Depot.Zstd.Header
import Depot.Zstd.Literals
import Depot.Zstd.Sequences

set_option autoImplicit false

namespace Depot.Zstd

/-- What a block takes over from those before it in the same frame. -/
structure History where
  code? : Option Huffman.Code
  tables : SequenceTables
  recent : Recent

namespace History

/-- At the start of a frame there is nothing to take over but some usual distances. -/
def start : History :=
  ⟨none, ⟨none, none, none⟩, ⟨1, 4, 8⟩⟩

/-- Decompresses a block and appends it to the content before it, for which there is some room.
`limit` is the most literals that it may have. -/
def decompressBlock (history : History) (limit room : Nat) (content : Array UInt8) (input : Bytes) :
    Option (History × Array UInt8) := do
  let literals ← Literals.read limit history.code? input
  let (sequences, tables, recent) ← Sequence.readAll history.tables history.recent literals.rest
  let content' ← Sequence.applyAll sequences literals.bytes content
  if content.size + room < content'.size then failure
  return (⟨literals.code?, tables, recent⟩, content')

end History

/-- The kinds of blocks: their content as it is, one byte that is repeated, or compressed content.
-/
inductive BlockKind where
  | stored
  | repeated
  | compressed
deriving DecidableEq

def BlockKind.ofNat? : Nat → Option BlockKind
  | 0 => some .stored
  | 1 => some .repeated
  | 2 => some .compressed
  | _ => none

/-- What comes before the body of a block. -/
structure BlockHead where
  last : Bool
  kind : BlockKind
  length : Nat

namespace BlockHead

def bodyLength (head : BlockHead) : Nat :=
  match head.kind with
  | .stored | .compressed => head.length
  | .repeated => 1

def read (input : Input) : Except Fault (BlockHead × Input) := do
  let (word, rest) ← input.takeNat 3
  match BlockKind.ofNat? (word / 2 % 4) with
  | some kind => return ({ last := word % 2 = 1, kind, length := word / 8 }, rest)
  | none => throw .corrupt

/-- The content before a block with that of the block, for which there is some room. `limit` is the
longest body of a compressed block. -/
def append (head : BlockHead) (limit room : Nat) (history : History) (content : Array UInt8)
    (body : Bytes) : Except Fault (History × Array UInt8) :=
  match head.kind with
  | .stored => if room < head.length then .error .corrupt else .ok (history, content ++ body)
  | .repeated =>
    if room < head.length then .error .corrupt
    else .ok (history, content ++ (List.replicate head.length body).flatten)
  | .compressed =>
    if limit < head.length then .error .corrupt
    else
      match history.decompressBlock limit room content body with
      | some grown => .ok grown
      | none => .error .corrupt

end BlockHead

namespace Header

/-- Skips the blocks of a frame, of which there are at most `count`, and its checksum. -/
def skip (header : Header) : (count : Nat) → Input → Except Fault Input
  | 0, _ => .error .incomplete
  | count + 1, input => do
    let (head, rest) ← BlockHead.read input
    let (_, rest) ← rest.take head.bodyLength
    if head.last then return (← rest.take (if header.checksum then 4 else 0)).2
    else skip header count rest

/-- Reads the blocks of a frame, of which there are at most `count`, when all of them are there.
Their content may have `longest` bytes. -/
def readAtOnce (header : Header) (longest : Nat) : (count : Nat) → History → Array UInt8 → Input →
    Except Fault (Array UInt8 × Input)
  | 0, _, _, _ => .error .incomplete
  | count + 1, history, content, input => do
    let (head, rest) ← BlockHead.read input
    let (body, rest) ← rest.take head.bodyLength
    let room := longest - content.size
    let (history, content) ← head.append header.blockLimit room history content body
    if !head.last then readAtOnce header longest count history content rest
    else if header.contentLength?.any (· ≠ content.size) then throw .corrupt
    else return (content, rest)

/-- Takes the body of a block when it comes in pieces. What there is of a stored block is put into
the room for it even if there will not be more. -/
def takeBody (head : BlockHead) (room : Nat) (input : Input) : Except Fault (Bytes × Input) :=
  match input.take head.bodyLength with
  | .ok taken => .ok taken
  | .error fault =>
    if head.kind = .stored ∧ room < input.bytes.length then .error .corrupt else .error fault

/-- Reads the blocks of a frame, of which there are at most `count`, as they come in. If the content
goes into one piece of memory, `longest?` is how long that is. A block without a body is nothing but
its head: it is of no matter what kind it has, and if it is the last one, the length that the header
gives is not compared. -/
def readInPieces (header : Header) (longest? : Option Nat) : (count : Nat) → History →
    Array UInt8 → Input → Except Fault (Array UInt8 × Input)
  | 0, _, _, _ => .error .incomplete
  | count + 1, history, content, input => do
    let (head, rest) ← BlockHead.read input
    let limit := header.blockLimit
    if limit < head.bodyLength then throw .corrupt
    else if head.bodyLength = 0 then
      if head.last then return (content, rest)
      else readInPieces header longest? count history content rest
    else
      let room := longest?.elim limit fun longest => min limit (longest - content.size)
      let (body, rest) ← takeBody head room rest
      let (history, content) ← head.append limit room history content body
      if !head.last then readInPieces header longest? count history content rest
      else if header.contentLength?.any (· ≠ content.size) then throw .corrupt
      else return (content, rest)

/-- Reads the checksum after the blocks of a frame, if it has one. -/
def readChecksum (header : Header) (content : Array UInt8) (input : Input) :
    Except Fault (Bytes × Input) :=
  let content := content.toList
  if header.checksum then do
    let (stored, rest) ← input.takeNat 4
    if stored = (Checksum.hash content).toNat % 0x100000000 then return (content, rest)
    else throw .corrupt
  else return (content, input)

end Header

end Depot.Zstd
