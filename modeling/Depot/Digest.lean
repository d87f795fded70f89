import Depot.Bytes

set_option autoImplicit false

/-
The hash function BLAKE3, for plain hashing with a result of 32 bytes. The input is cut into chunks
of 1024 bytes, which are the leaves of a binary tree: the left subtree of a node holds the largest
power of two of chunks that leaves something for the right one.
Which hash function makes digests is a parameter wherever they are only compared.
-/

namespace Depot.Blake3

abbrev Chain := Vector UInt32 8

abbrev Block := Vector UInt32 16

def initial : Chain :=
  #v[0x6A09E667, 0xBB67AE85, 0x3C6EF372, 0xA54FF53A, 0x510E527F, 0x9B05688C, 0x1F83D9AB, 0x5BE0CD19]

def chunkStart : UInt32 := 1
def chunkEnd : UInt32 := 2
def parent : UInt32 := 4
def root : UInt32 := 8

def chunkLength : Nat := 1024
def blockLength : Nat := 64

def rotateRight (word : UInt32) (count : UInt32) : UInt32 :=
  word >>> count ||| word <<< (32 - count)

def quarterRound (state : Vector UInt32 16) (a b c d : Fin 16) (x y : UInt32) :
    Vector UInt32 16 :=
  let va := state[a] + state[b] + x
  let vd := rotateRight (state[d] ^^^ va) 16
  let vc := state[c] + vd
  let vb := rotateRight (state[b] ^^^ vc) 12
  let va := va + vb + y
  let vd := rotateRight (vd ^^^ va) 8
  let vc := vc + vd
  let vb := rotateRight (vb ^^^ vc) 7
  (((state.set a va).set b vb).set c vc).set d vd

/-- One round: the four columns, then the four diagonals. -/
def round (state : Vector UInt32 16) (m : Block) : Vector UInt32 16 :=
  let state := quarterRound state 0 4 8 12 m[0] m[1]
  let state := quarterRound state 1 5 9 13 m[2] m[3]
  let state := quarterRound state 2 6 10 14 m[4] m[5]
  let state := quarterRound state 3 7 11 15 m[6] m[7]
  let state := quarterRound state 0 5 10 15 m[8] m[9]
  let state := quarterRound state 1 6 11 12 m[10] m[11]
  let state := quarterRound state 2 7 8 13 m[12] m[13]
  quarterRound state 3 4 9 14 m[14] m[15]

/-- The order in which a round takes the words of the round before it. -/
def permute (m : Block) : Block :=
  #v[m[2], m[6], m[3], m[10], m[7], m[0], m[4], m[13],
    m[1], m[11], m[12], m[5], m[9], m[14], m[15], m[8]]

/-- The given number of rounds, with the words permuted between them. -/
def rounds : Nat → Vector UInt32 16 → Block → Vector UInt32 16
  | 0, state, _ => state
  | count + 1, state, m => rounds count (round state m) (permute m)

/-- A node of the tree before its compression: the last block of a chunk, or two chaining values. -/
structure Node where
  chain : Chain
  block : Block
  counter : Nat
  length : Nat
  flags : UInt32

def Node.compress (node : Node) (flags : UInt32) : Chain :=
  let chain := node.chain
  let state := rounds 7
    #v[chain[0], chain[1], chain[2], chain[3], chain[4], chain[5], chain[6], chain[7],
      initial[0], initial[1], initial[2], initial[3],
      UInt32.ofNat node.counter, UInt32.ofNat (node.counter / 0x100000000),
        UInt32.ofNat node.length,
      node.flags ||| flags]
    node.block
  Vector.ofFn fun i : Fin 8 => state[i.val] ^^^ state[i.val + 8]

def Node.value (node : Node) : Chain :=
  node.compress 0

/-- The words of a block, filled up with zeros. -/
def blockOf (bytes : Bytes) : Block :=
  let cells := bytes.toArray
  let cell := fun i => (cells.getD i 0).toUInt32
  Vector.ofFn fun i : Fin 16 =>
    cell (4 * i) ||| cell (4 * i + 1) <<< 8 ||| cell (4 * i + 2) <<< 16 ||| cell (4 * i + 3) <<< 24

/-- The node of a chunk: every block but the last is compressed into the chaining value. -/
def chunk (counter : Nat) (chain : Chain) (start : UInt32) (bytes : Bytes) : Node :=
  if bytes.length ≤ blockLength then
    { chain, block := blockOf bytes, counter, length := bytes.length, flags := start ||| chunkEnd }
  else
    let node : Node :=
      { chain, block := blockOf (bytes.take blockLength), counter, length := blockLength,
        flags := start }
    chunk counter node.value 0 (bytes.drop blockLength)
termination_by bytes.length
decreasing_by
  simp only [List.length_drop, blockLength] at *
  omega

/-- How many bytes of a long input the left subtree holds. -/
def leftLength (length : Nat) : Nat :=
  chunkLength <<< ((length - 1) / chunkLength).log2

theorem leftLength_pos (length : Nat) : 0 < leftLength length := by
  rw [leftLength, Nat.shiftLeft_eq]
  exact Nat.mul_pos (by decide) (Nat.two_pow_pos _)

theorem leftLength_lt (length : Nat) (long : chunkLength < length) :
    leftLength length < length := by
  have positive : (length - 1) / chunkLength ≠ 0 := by
    simp only [chunkLength] at *
    omega
  have := Nat.log2_self_le positive
  have := Nat.mul_le_mul_left chunkLength this
  have := Nat.mul_div_le (length - 1) chunkLength
  simp only [leftLength, chunkLength, Nat.shiftLeft_eq] at *
  omega

/-- The node over some of the input, which starts at the given chunk. -/
def subtree (counter : Nat) (bytes : Bytes) : Node :=
  if chunkLength < bytes.length then
    let left := leftLength bytes.length
    let l := (subtree counter (bytes.take left)).value
    let r := (subtree (counter + left / chunkLength) (bytes.drop left)).value
    { chain := initial, block := l ++ r, counter := 0, length := blockLength, flags := parent }
  else chunk counter initial chunkStart bytes
termination_by bytes.length
decreasing_by
  · have := leftLength_lt bytes.length (by assumption)
    simp only [List.length_take]
    omega
  · have := leftLength_pos bytes.length
    simp only [List.length_drop]
    omega

def hash (bytes : Bytes) : Bytes :=
  ((subtree 0 bytes).compress root).toList.flatMap fun word => Bytes.ofNat 4 word.toNat

theorem length_hash (bytes : Bytes) : (hash bytes).length = 32 := by
  have words (chain : List UInt32) :
      (chain.flatMap fun word => Bytes.ofNat 4 word.toNat).length = 4 * chain.length := by
    induction chain with
    | nil => rfl
    | cons word chain ih =>
      simp only [List.flatMap_cons, List.length_append, Bytes.length_ofNat, ih, List.length_cons]
      omega
  simp [hash, words]

end Depot.Blake3

namespace Depot.Text.Base64

def digit (value : Nat) : Char :=
  if value < 26 then Char.ofNat (value + 65)
  else if value < 52 then Char.ofNat (value + 71)
  else if value < 62 then Char.ofNat (value - 4)
  else if value = 62 then '+'
  else '/'

def encode : Bytes → List Char
  | [] => []
  | [a] =>
    let group := a.toNat * 16
    [digit (group / 64), digit (group % 64), '=', '=']
  | [a, b] =>
    let group := (a.toNat * 256 + b.toNat) * 4
    [digit (group / 4096), digit (group / 64 % 64), digit (group % 64), '=']
  | a :: b :: c :: rest =>
    let group := (a.toNat * 256 + b.toNat) * 256 + c.toNat
    digit (group / 262144) :: digit (group / 4096 % 64) :: digit (group / 64 % 64)
      :: digit (group % 64) :: encode rest

end Depot.Text.Base64

namespace Depot

/-- The digest of some content. -/
structure Digest where
  bytes : Bytes
deriving Repr, DecidableEq

abbrev Hash := Bytes → Digest

namespace Digest

def blake3 : Hash := fun content => ⟨Blake3.hash content⟩

/-- A digest as text: the mark `b3:` and base 64. -/
def text (digest : Digest) : String :=
  "b3:" ++ String.ofList (Text.Base64.encode digest.bytes)

end Digest

end Depot
