import Depot.Archive.Fault
import Depot.Archive.Layout

set_option autoImplicit false

namespace Depot.Archive

abbrev ReaderM := EStateM ReadFault Bytes

namespace Reader

/-- The most levels of directories below the root. -/
def maxDepth : Nat := 256

def take (count : Nat) : ReaderM Bytes := do
  let left ← get
  set (left.drop count)
  return left.take count

def exactly (count : Nat) : ReaderM Bytes := do
  let taken ← take count
  if taken.length = count then return taken else throw .endOfInput

def number : ReaderM Nat := do
  return Bytes.toNat (← exactly 8)

/-- Takes the zeros after a string of the given length. -/
def padding (length : Nat) : ReaderM Unit := do
  let zeros := Archive.padding length
  if (← exactly zeros.length) = zeros then pure () else throw .nonZeroPadding

def words : Bytes → List Bytes
  | a :: b :: c :: d :: e :: f :: g :: h :: rest => [a, b, c, d, e, f, g, h] :: words rest
  | [] => []
  | rest => [rest]

/-- Takes the given words, looking at one after the other. -/
def expectWords : List Bytes → ReaderM Unit
  | [] => pure ()
  | word :: rest => do
    if (← exactly word.length) = word then expectWords rest else throw .unexpectedToken

def expect (token : Bytes) : ReaderM Unit :=
  expectWords (words token)

/-- Takes one of two tokens and tells whether it was the second. Their first words differ. -/
def either (first second : Bytes) : ReaderM Bool := do
  let word ← exactly 8
  if word = first.take 8 then do
    expect (first.drop 8)
    return false
  else if word = second.take 8 then do
    expect (second.drop 8)
    return true
  else throw .unexpectedToken

/-- Takes the start of a node and tells whether it is a directory. -/
def nodeIsDirectory : ReaderM Bool :=
  either regular directory

/-- Takes the start of an entry, or the end of the directory, and tells whether it was an entry. -/
def anotherEntry : ReaderM Bool :=
  either closing entry

/-- Takes the name of an entry, which none of the entries before it may have. -/
def name (seen : List Name) : ReaderM Name := do
  let length ← number
  if Name.maxLength < length then throw .stringTooLong
  let bytes ← exactly length
  padding length
  match Name.ofBytes bytes with
  | .error error => throw (.invalidName error)
  | .ok name => if name ∈ seen then throw (.duplicateName name.bytes) else return name

/-- Takes the rest of a file's node and returns its content. -/
def content : ReaderM Bytes := do
  let length ← number
  let content ← take length
  if content.length ≠ length then throw .contentTooShort
  padding length
  expect closing
  return content

/-- Takes the node of the member of the given name. What follows the start of a directory is read by
`inner`. -/
def member (inner : ReaderM (List Member)) (name : Name) : ReaderM Member := do
  if ← nodeIsDirectory then return .directory name (← inner)
  else return .file name (← content)

/-- Takes entries up to the end of a directory, of which there are fewer than `count`. -/
def entries (inner : ReaderM (List Member)) :
    (count : Nat) → (seen : List Name) → ReaderM (List Member)
  | 0, _ => throw .endOfInput
  | count + 1, seen => do
    if ← anotherEntry then
      let name ← name seen
      expect node
      let member ← member inner name
      expect closing
      return member :: (← entries inner count (name :: seen))
    else return []

/-- Takes the rest of a directory's node, below which there may be `levels` levels of directories
less one, and in which no directory has as many as `bound` entries. -/
def directory (bound : Nat) : (levels : Nat) → ReaderM (List Member)
  | 0 => throw .tooDeep
  | levels + 1 => entries (directory bound levels) bound []

/-- Takes an archive in which no directory has as many as `bound` entries, and after which there is
nothing. -/
def archiveWithin (bound : Nat) : ReaderM (List Member) := do
  expect opening
  if ← nodeIsDirectory then
    let members ← directory bound (maxDepth + 1)
    if (← get).isEmpty then return members else throw .trailingData
  else throw .rootIsFile

/-- Takes an archive, after which there is nothing. An entry takes more than one byte, so that the
bytes that are left bound the number of entries. -/
def archive : ReaderM (List Member) := do
  archiveWithin ((← get).length + 1)

end Reader

/-- The outcome of a read, with the number of bytes that it consumed. -/
def ReaderM.consume {α : Type} (read : ReaderM α) (input : Bytes) : Except ReadFault α × Nat :=
  match read input with
  | .ok value left => (.ok value, input.length - left.length)
  | .error fault left => (.error fault, input.length - left.length)

/-- The members of an archive that is not compressed. -/
def decodePlain (input : Bytes) : Except ReadFault (List Member) :=
  (Reader.archive.consume input).1

end Depot.Archive
