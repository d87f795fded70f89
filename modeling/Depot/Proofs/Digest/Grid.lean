import Depot.Digest

set_option autoImplicit false

/-
BLAKE3 column by column. The sixteen words of a state are a grid of four columns: a round mixes the
columns by themselves and then, with the grid skewed, the diagonals. Nothing is looked up by an
index here, so that a hash can be evaluated inside of a proof.
-/

namespace Depot.Blake3

/-- The words of a column or of a diagonal. -/
structure Column where
  (a b c d : UInt32)

def Column.mix (column : Column) (x y : UInt32) : Column :=
  let a := column.a + column.b + x
  let d := rotateRight (column.d ^^^ a) 16
  let c := column.c + d
  let b := rotateRight (column.b ^^^ c) 12
  let a := a + b + y
  let d := rotateRight (d ^^^ a) 8
  let c := c + d
  let b := rotateRight (b ^^^ c) 7
  ⟨a, b, c, d⟩

/-- Sixteen words as four columns, for a state and for a message block. -/
structure Grid where
  (p q r s : Column)

namespace Grid

def words (grid : Grid) : Vector UInt32 16 :=
  #v[grid.p.a, grid.q.a, grid.r.a, grid.s.a, grid.p.b, grid.q.b, grid.r.b, grid.s.b,
    grid.p.c, grid.q.c, grid.r.c, grid.s.c, grid.p.d, grid.q.d, grid.r.d, grid.s.d]

def skew (grid : Grid) : Grid where
  p := ⟨grid.p.a, grid.q.b, grid.r.c, grid.s.d⟩
  q := ⟨grid.q.a, grid.r.b, grid.s.c, grid.p.d⟩
  r := ⟨grid.r.a, grid.s.b, grid.p.c, grid.q.d⟩
  s := ⟨grid.s.a, grid.p.b, grid.q.c, grid.r.d⟩

def unskew (grid : Grid) : Grid where
  p := ⟨grid.p.a, grid.s.b, grid.r.c, grid.q.d⟩
  q := ⟨grid.q.a, grid.p.b, grid.s.c, grid.r.d⟩
  r := ⟨grid.r.a, grid.q.b, grid.p.c, grid.s.d⟩
  s := ⟨grid.s.a, grid.r.b, grid.q.c, grid.p.d⟩

theorem unskew_skew (grid : Grid) : grid.skew.unskew = grid := rfl

/-- One round: the four columns, then the four diagonals. -/
def round (grid m : Grid) : Grid :=
  let columns : Grid :=
    ⟨grid.p.mix m.p.a m.q.a, grid.q.mix m.r.a m.s.a, grid.r.mix m.p.b m.q.b, grid.s.mix m.r.b m.s.b⟩
  let skewed := columns.skew
  let diagonals : Grid :=
    ⟨skewed.p.mix m.p.c m.q.c, skewed.q.mix m.r.c m.s.c, skewed.r.mix m.p.d m.q.d,
      skewed.s.mix m.r.d m.s.d⟩
  diagonals.unskew

theorem round_words (grid m : Grid) : Blake3.round grid.words m.words = (grid.round m).words := by
  have first (grid : Grid) (x y : UInt32) : quarterRound grid.words 0 4 8 12 x y =
    { grid with p := grid.p.mix x y }.words := rfl
  have second (grid : Grid) (x y : UInt32) : quarterRound grid.words 1 5 9 13 x y =
    { grid with q := grid.q.mix x y }.words := rfl
  have third (grid : Grid) (x y : UInt32) : quarterRound grid.words 2 6 10 14 x y =
    { grid with r := grid.r.mix x y }.words := rfl
  have fourth (grid : Grid) (x y : UInt32) : quarterRound grid.words 3 7 11 15 x y =
    { grid with s := grid.s.mix x y }.words := rfl
  -- the same four steps on the diagonals
  have fifth (grid : Grid) (x y : UInt32) : quarterRound grid.unskew.words 0 5 10 15 x y =
    { grid with p := grid.p.mix x y }.unskew.words := rfl
  have sixth (grid : Grid) (x y : UInt32) : quarterRound grid.unskew.words 1 6 11 12 x y =
    { grid with q := grid.q.mix x y }.unskew.words := rfl
  have seventh (grid : Grid) (x y : UInt32) : quarterRound grid.unskew.words 2 7 8 13 x y =
    { grid with r := grid.r.mix x y }.unskew.words := rfl
  have eighth (grid : Grid) (x y : UInt32) : quarterRound grid.unskew.words 3 4 9 14 x y =
    { grid with s := grid.s.mix x y }.unskew.words := rfl
  rw [Blake3.round, first, second, third, fourth]
  rw [← unskew_skew (Grid.mk _ _ _ _), fifth, sixth, seventh, eighth]
  rfl

/-- The order in which a round takes the words of the round before it. -/
def permute (m : Grid) : Grid where
  p := ⟨m.r.a, m.s.b, m.q.a, m.q.c⟩
  q := ⟨m.r.b, m.p.a, m.s.c, m.r.d⟩
  r := ⟨m.s.a, m.p.b, m.p.d, m.s.d⟩
  s := ⟨m.r.c, m.q.d, m.q.b, m.p.c⟩

theorem permute_words (m : Grid) : Blake3.permute m.words = m.permute.words := rfl

/-- The given number of rounds, with the words permuted between them. -/
def rounds : Nat → Grid → Grid → Grid
  | 0, grid, _ => grid
  | count + 1, grid, m => rounds count (grid.round m) m.permute

theorem rounds_words (count : Nat) (grid m : Grid) :
    Blake3.rounds count grid.words m.words = (rounds count grid m).words := by
  induction count generalizing grid m with
  | zero => rfl
  | succ count ih => rw [Blake3.rounds, round_words, permute_words, ih, rounds]

/-- The first two rows: a chaining value. -/
def top (grid : Grid) : Chain :=
  #v[grid.p.a, grid.q.a, grid.r.a, grid.s.a, grid.p.b, grid.q.b, grid.r.b, grid.s.b]

def initial : Grid :=
  ⟨⟨0x6A09E667, 0x510E527F, 0, 0⟩, ⟨0xBB67AE85, 0x9B05688C, 0, 0⟩, ⟨0x3C6EF372, 0x1F83D9AB, 0, 0⟩,
    ⟨0xA54FF53A, 0x5BE0CD19, 0, 0⟩⟩

theorem initial_top : initial.top = Blake3.initial := rfl

/-- The state before the first round. -/
def start (chain : Grid) (counter length : Nat) (flags : UInt32) : Grid where
  p := ⟨chain.p.a, chain.p.b, initial.p.a, UInt32.ofNat counter⟩
  q := ⟨chain.q.a, chain.q.b, initial.q.a, UInt32.ofNat (counter / 0x100000000)⟩
  r := ⟨chain.r.a, chain.r.b, initial.r.a, UInt32.ofNat length⟩
  s := ⟨chain.s.a, chain.s.b, initial.s.a, flags⟩

/-- The lower half of a grid put on the upper one. -/
def fold (grid : Grid) : Grid where
  p := ⟨grid.p.a ^^^ grid.p.c, grid.p.b ^^^ grid.p.d, 0, 0⟩
  q := ⟨grid.q.a ^^^ grid.q.c, grid.q.b ^^^ grid.q.d, 0, 0⟩
  r := ⟨grid.r.a ^^^ grid.r.c, grid.r.b ^^^ grid.r.d, 0, 0⟩
  s := ⟨grid.s.a ^^^ grid.s.c, grid.s.b ^^^ grid.s.d, 0, 0⟩

end Grid

/-- The first four bytes as a word, filled up with zeros. -/
def firstWord (bytes : Bytes) : UInt32 :=
  (bytes.getD 0 0).toUInt32 ||| (bytes.getD 1 0).toUInt32 <<< 8 |||
    (bytes.getD 2 0).toUInt32 <<< 16 ||| (bytes.getD 3 0).toUInt32 <<< 24

/-- The given number of words, read one after the other. -/
def readWords : Nat → Bytes → List UInt32
  | 0, _ => []
  | count + 1, bytes => firstWord bytes :: readWords count (bytes.drop 4)

theorem getD_readWords (count : Nat) (bytes : Bytes) (index : Nat) (bound : index < count) :
    (readWords count bytes).getD index 0 = firstWord (bytes.drop (4 * index)) := by
  induction count generalizing bytes index with
  | zero => exact absurd bound (Nat.not_lt_zero index)
  | succ count ih =>
    cases index with
    | zero => rfl
    | succ index =>
      rw [readWords, List.getD_cons_succ, ih _ _ (Nat.lt_of_succ_lt_succ bound), List.drop_drop,
        Nat.mul_succ, Nat.add_comm]

def Grid.ofBytes (bytes : Bytes) : Grid :=
  let words := readWords 16 bytes
  { p := ⟨words.getD 0 0, words.getD 4 0, words.getD 8 0, words.getD 12 0⟩
    q := ⟨words.getD 1 0, words.getD 5 0, words.getD 9 0, words.getD 13 0⟩
    r := ⟨words.getD 2 0, words.getD 6 0, words.getD 10 0, words.getD 14 0⟩
    s := ⟨words.getD 3 0, words.getD 7 0, words.getD 11 0, words.getD 15 0⟩ }

theorem blockOf_eq_words (bytes : Bytes) : blockOf bytes = (Grid.ofBytes bytes).words := by
  have read (index : Nat) (bound : index < 16) :
      (blockOf bytes)[index] = (readWords 16 bytes).getD index 0 := by
    rw [getD_readWords _ _ _ bound]
    simp [blockOf, firstWord, Array.getD_eq_getD_getElem?, List.getD_eq_getElem?_getD, Nat.add_comm]
  ext index bound
  rw [read index bound]
  match index, bound with
  | 0, _ | 1, _ | 2, _ | 3, _ | 4, _ | 5, _ | 6, _ | 7, _
  | 8, _ | 9, _ | 10, _ | 11, _ | 12, _ | 13, _ | 14, _ | 15, _ => rfl
  | index + 16, bound => exact absurd bound (by omega)

def compressBlock (chain : Grid) (counter : Nat) (bytes : Bytes) (flags : UInt32) : Grid :=
  (Grid.rounds 7 (.start chain counter bytes.length flags) (.ofBytes bytes)).fold

theorem compress_eq_compressBlock (chain : Grid) (counter : Nat) (bytes : Bytes)
    (marks flags : UInt32) :
    Node.compress ⟨chain.top, blockOf bytes, counter, bytes.length, marks⟩ flags =
      (compressBlock chain counter bytes (marks ||| flags)).top := by
  let state := Grid.start chain counter bytes.length (marks ||| flags)
  have mixed : Blake3.rounds 7 state.words (blockOf bytes) =
      (Grid.rounds 7 state (.ofBytes bytes)).words := by
    rw [blockOf_eq_words, Grid.rounds_words]
  have compressed : Node.compress ⟨chain.top, blockOf bytes, counter, bytes.length, marks⟩ flags =
      Vector.ofFn fun i : Fin 8 => (Blake3.rounds 7 state.words (blockOf bytes))[i.val] ^^^
        (Blake3.rounds 7 state.words (blockOf bytes))[i.val + 8] := rfl
  rw [compressed, mixed, compressBlock]
  rfl

/-- A chunk compressed on grids, with the given number of blocks before its last one. -/
def compressChunk (counter : Nat) (flags : UInt32) : Nat → Grid → UInt32 → Bytes → Grid
  | 0, chain, start, bytes => compressBlock chain counter bytes (start ||| chunkEnd ||| flags)
  | blocks + 1, chain, start, bytes =>
    compressChunk counter flags blocks
      (compressBlock chain counter (bytes.take blockLength) start) 0 (bytes.drop blockLength)

theorem compress_chunk (counter blocks : Nat) (chain : Grid) (start : UInt32) (bytes : Bytes)
    (flags : UInt32) (count : (bytes.length - 1) / blockLength = blocks) :
    (chunk counter chain.top start bytes).compress flags =
      (compressChunk counter flags blocks chain start bytes).top := by
  induction blocks generalizing chain start bytes with
  | zero =>
    have short : bytes.length ≤ blockLength := by
      simp only [blockLength] at count ⊢
      omega
    rw [chunk, if_pos short, compressChunk, compress_eq_compressBlock]
  | succ blocks ih =>
    have long : ¬ bytes.length ≤ blockLength := by
      simp only [blockLength] at count ⊢
      omega
    have fewer : ((bytes.drop blockLength).length - 1) / blockLength = blocks := by
      simp only [blockLength, List.length_drop] at count ⊢
      omega
    have whole : (bytes.take blockLength).length = blockLength :=
      List.length_take_of_le (Nat.le_of_not_ge long)
    have value : Node.value ⟨chain.top, blockOf (bytes.take blockLength), counter,
      blockLength, start⟩ =
        (compressBlock chain counter (bytes.take blockLength) start).top := by
      have := compress_eq_compressBlock chain counter (bytes.take blockLength) start 0
      rw [whole, UInt32.or_zero] at this
      exact this
    rw [chunk, if_neg long]
    dsimp only
    rw [value, ih _ _ _ fewer, compressChunk]

/-- The hash, on grids where the input is a single chunk. -/
def quick (bytes : Bytes) : Bytes :=
  if chunkLength < bytes.length then hash bytes
  else
    let grid := compressChunk 0 root ((bytes.length - 1) / blockLength) .initial chunkStart bytes
    grid.top.toList.flatMap fun word => Bytes.ofNat 4 word.toNat

theorem hash_eq_quick (bytes : Bytes) : hash bytes = quick bytes := by
  rw [quick]
  split
  case isTrue => rfl
  case isFalse short =>
    rw [hash, subtree, if_neg short, ← Grid.initial_top, compress_chunk _ _ _ _ _ _ rfl]

end Depot.Blake3

namespace Depot.Digest

theorem blake3_eq_quick : blake3 = fun content => ⟨Blake3.quick content⟩ :=
  funext fun content => by rw [blake3, Blake3.hash_eq_quick]

end Depot.Digest
