import Depot.Zstd.Stream

set_option autoImplicit false

namespace Depot.Zstd

theorem Input.take_append (front rest : Bytes) (position : Nat) :
    (Input.mk (front ++ rest) position).take front.length =
      .ok (front, ⟨rest, position + front.length⟩) := by
  have taken : Zstd.take front.length (front ++ rest) = .ok (front, rest) := by simp [Zstd.take]
  simp only [Input.take, taken, bind, Except.bind, pure, Except.pure]

theorem Input.takeNat_append {width value : Nat} (fits : value < Bytes.limit width) (rest : Bytes)
    (position : Nat) :
    (Input.mk (Bytes.ofNat width value ++ rest) position).takeNat width =
      .ok (value, ⟨rest, position + width⟩) := by
  have taken := Input.take_append (Bytes.ofNat width value) rest position
  rw [Bytes.length_ofNat] at taken
  simp only [Input.takeNat, taken]
  change Except.ok _ = _
  rw [Bytes.toNat_ofNat width value fits]

def storedHead (last : Bool) (length : Nat) : BlockHead where
  last := last
  kind := .stored
  length := length

theorem read_storedHead (last : Bool) {length : Nat} (short : length ≤ maxBlockLength)
    (rest : Bytes) (position : Nat) :
    BlockHead.read ⟨Bytes.ofNat 3 (length * 8 + last.toNat) ++ rest, position⟩ =
      .ok (storedHead last length, ⟨rest, position + 3⟩) := by
  have fits : length * 8 + last.toNat < Bytes.limit 3 := by
    have := last.toNat_le
    simp only [maxBlockLength] at short
    simp only [Bytes.limit]
    omega
  have kind : (length * 8 + last.toNat) / 2 % 4 = 0 := by
    have := last.toNat_le
    omega
  have body : (length * 8 + last.toNat) / 8 = length := by
    have := last.toNat_le
    omega
  have mark : decide ((length * 8 + last.toNat) % 2 = 1) = last := by
    cases last <;> simp <;> omega
  simp only [BlockHead.read, Input.takeNat_append fits, bind, Except.bind, kind, body]
  simp only [BlockKind.ofNat?, mark]
  rfl

def storedHeader : Header where
  window := maxBlockLength
  contentLength? := none
  checksum := false

theorem read_storedHeader (rest : Bytes) (position : Nat) :
    Header.read ⟨[0x00, 0x38] ++ rest, position⟩ = .ok (storedHeader, ⟨rest, position + 2⟩) := by
  have descriptor : (Input.mk ([0x00, 0x38] ++ rest) position).takeNat 1 =
      .ok (0, ⟨[0x38] ++ rest, position + 1⟩) := Input.takeNat_append (by decide) ([0x38] ++ rest) _
  have window : (Input.mk ([0x38] ++ rest) (position + 1)).takeNat 1 =
      .ok (56, ⟨rest, position + 2⟩) := Input.takeNat_append (by decide) rest _
  have nothing : (Input.mk rest (position + 2)).takeNat 0 = .ok (0, ⟨rest, position + 2⟩) :=
    Input.takeNat_append (by decide) rest _
  simp only [Header.read, bind, Except.bind, descriptor, Nat.zero_div, Nat.zero_mod,
    Nat.zero_ne_one, decide_false, Bool.false_eq_true, ↓reduceIte, window, Header.dictionaryWidth,
    Header.contentLengthWidth, nothing]
  rfl

theorem takeBody_stored (last : Bool) (body rest : Bytes) (room position : Nat) :
    Header.takeBody (storedHead last body.length) room ⟨body ++ rest, position⟩ =
      .ok (body, ⟨rest, position + body.length⟩) := by
  simp only [Header.takeBody, storedHead, BlockHead.bodyLength, Input.take_append]

theorem storedBlocks_of_short {content : Bytes} (short : content.length ≤ maxBlockLength) :
    storedBlocks content = Bytes.ofNat 3 (content.length * 8 + true.toNat) ++ content := by
  rw [storedBlocks]
  simp only [short, ↓reduceIte, List.take_of_length_le short, Bool.toNat_true]

theorem storedBlocks_of_long {content : Bytes} (long : maxBlockLength < content.length) :
    storedBlocks content = Bytes.ofNat 3 (maxBlockLength * 8 + false.toNat) ++
      (content.take maxBlockLength ++ storedBlocks (content.drop maxBlockLength)) := by
  rw [storedBlocks]
  simp only [Nat.not_le.mpr long, ↓reduceIte, List.length_take, Nat.min_eq_left (Nat.le_of_lt long),
    Bool.toNat_false]

/-- A block that is not the last one is appended to the content. -/
theorem readInPieces_block (body rest : Bytes) (history : History) (before : Array UInt8)
    (position count : Nat) (nonempty : body ≠ []) (short : body.length ≤ maxBlockLength)
    (last : Bool) :
    storedHeader.readInPieces none (count + 1) history before
        ⟨Bytes.ofNat 3 (body.length * 8 + last.toNat) ++ (body ++ rest), position⟩ =
      if last then .ok (before ++ body, ⟨rest, position + 3 + body.length⟩)
      else storedHeader.readInPieces none count history (before ++ body)
        ⟨rest, position + 3 + body.length⟩ := by
  have limit : storedHeader.blockLimit = maxBlockLength := Nat.min_self _
  have filled : body.length ≠ 0 := fun empty => nonempty (List.eq_nil_of_length_eq_zero empty)
  have head := read_storedHead last short (body ++ rest) position
  have taken := takeBody_stored last body rest maxBlockLength (position + 3)
  have room : ¬ maxBlockLength < body.length := Nat.not_lt.mpr short
  have length : (storedHead last body.length).bodyLength = body.length := rfl
  have appended : (storedHead last body.length).append maxBlockLength maxBlockLength history before
      body = .ok (history, before ++ body) := by
    simp only [BlockHead.append, storedHead, room, ↓reduceIte]
  simp only [Header.readInPieces, bind, Except.bind, head, limit, length, room, filled, ↓reduceIte,
    Option.elim_none, taken, appended]
  cases last <;> rfl

/-- The last block may have no content; then it is nothing but its head. -/
theorem readInPieces_empty (rest : Bytes) (history : History) (before : Array UInt8)
    (position count : Nat) :
    storedHeader.readInPieces none (count + 1) history before
        ⟨Bytes.ofNat 3 (0 * 8 + true.toNat) ++ rest, position⟩ =
      .ok (before, ⟨rest, position + 3⟩) := by
  have head := read_storedHead true (Nat.zero_le maxBlockLength) rest position
  have length : (storedHead true 0).bodyLength = 0 := rfl
  simp only [Header.readInPieces, bind, Except.bind, head, length, Nat.not_lt_zero, ↓reduceIte]
  rfl

/-- The blocks are read one after the other; there are no more of them than bytes. -/
theorem readInPieces_storedBlocks (content rest : Bytes) (history : History)
    (before : Array UInt8) (position : Nat) {count : Nat}
    (enough : (storedBlocks content).length ≤ count) :
    ∃ after, storedHeader.readInPieces none count history before
        ⟨storedBlocks content ++ rest, position⟩ = .ok (before ++ content, ⟨rest, after⟩) := by
  induction count generalizing content before position with
  | zero =>
    by_cases short : content.length ≤ maxBlockLength
    · simp [storedBlocks_of_short short] at enough
    · simp [storedBlocks_of_long (Nat.lt_of_not_le short)] at enough
  | succ count ih =>
    by_cases short : content.length ≤ maxBlockLength
    · rw [storedBlocks_of_short short, List.append_assoc]
      by_cases empty : content = []
      · subst empty
        exact ⟨_, by simpa using readInPieces_empty rest history before position count⟩
      · rw [readInPieces_block content rest history before position count empty short true]
        exact ⟨_, rfl⟩
    · have long := Nat.lt_of_not_le short
      have length : (content.take maxBlockLength).length = maxBlockLength :=
        List.length_take_of_le (Nat.le_of_lt long)
      have nonempty : content.take maxBlockLength ≠ [] := by
        intro empty
        rw [empty] at length
        exact absurd length (by decide)
      rw [storedBlocks_of_long long] at enough ⊢
      simp only [List.length_append, Bytes.length_ofNat, length] at enough
      obtain ⟨after, read⟩ := ih (content.drop maxBlockLength)
        (before ++ content.take maxBlockLength) (position + 3 + maxBlockLength) (by omega)
      refine ⟨after, ?_⟩
      have block := readInPieces_block (content.take maxBlockLength)
        (storedBlocks (content.drop maxBlockLength) ++ rest) history before position count nonempty
        (Nat.le_of_eq length) false
      rw [length] at block
      rw [List.append_assoc, List.append_assoc, block]
      simp only [Bool.false_eq_true, ↓reduceIte, read]
      have joined : before ++ content.take maxBlockLength ++ content.drop maxBlockLength =
          before ++ content := by
        apply Array.toList_inj.mp
        simp only [Array.toList_appendList, List.append_assoc, List.take_append_drop]
      rw [joined]

/-- The header does not announce the length of the content, so that the frame is read in pieces. -/
theorem readFrame_stored (content : Bytes) (buffer : Buffer) (start position : Nat) {count : Nat}
    (enough : (storedBlocks content).length ≤ count) :
    ∃ buffer' after, readFrame start count buffer
        ⟨[0x00, 0x38] ++ storedBlocks content, position⟩ = .ok (content, buffer', ⟨[], after⟩) := by
  obtain ⟨after, body⟩ :=
    readInPieces_storedBlocks content [] .start #[] (position + 2) enough
  rw [List.append_nil] at body
  have header := read_storedHeader (storedBlocks content) position
  have unknown : (buffer.forFrame storedHeader).longest? storedHeader = none := rfl
  have inPieces :
      isReadAtOnce storedHeader start count ⟨storedBlocks content, position + 2⟩ = false := rfl
  have small : ¬ maxWindow < storedHeader.window := by decide
  have checked : storedHeader.readChecksum ((#[] : Array UInt8) ++ content) ⟨[], after⟩ =
      .ok (content, ⟨[], after⟩) := by
    simp [Header.readChecksum, storedHeader]
    rfl
  refine ⟨buffer.forFrame storedHeader, after, ?_⟩
  simp only [readFrame, bind, Except.bind, header, inPieces, small, unknown, body, ↓reduceIte,
    Bool.false_eq_true, checked]
  rfl

/-- Compressing loses nothing. -/
theorem decompress_compress (content : Bytes) : decompress (compress content) = .ok content := by
  have enough : (storedBlocks content).length ≤ (compress content).length := by
    simp only [compress, List.length_append]
    omega
  have word : (Input.start (compress content)).take 4 =
      .ok (magic, ⟨[0x00, 0x38] ++ storedBlocks content, 4⟩) := Input.take_append magic _ 0
  obtain ⟨count, length⟩ : ∃ count, (compress content).length = count + 1 := ⟨_, rfl⟩
  rw [length] at enough
  obtain ⟨buffer, after, frame⟩ := readFrame_stored content .empty 0 4 enough
  have ended : readFrames count buffer ⟨[], after⟩ = .ok [] := by
    cases count <;> rfl
  have nonempty : (Input.start (compress content)).bytes ≠ [] := List.cons_ne_nil _ _
  rw [decompress, length, readFrames, if_neg nonempty, word]
  simp only [↓reduceIte, bind, Except.bind, Input.start, frame, ended]
  exact congrArg Except.ok (List.append_nil content)

/-- What compressing makes starts as a frame does. -/
theorem magic_isPrefixOf_compress (content : Bytes) : magic.isPrefixOf (compress content) = true :=
  rfl

end Depot.Zstd
