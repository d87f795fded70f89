import Depot.Archive.Script
import Depot.Proofs.Archive.Writing

set_option autoImplicit false

namespace Depot.Archive

/-- Something to read data from. It hands out a buffer with what it has at hand, and is told how
much of the buffer was taken. -/
structure Feed (σ : Type) where
  fill : σ → Bytes × σ
  consume : Nat → σ → σ

namespace Feed

variable {σ : Type} {feed : Feed σ} {state after : σ} {buffer content : Bytes}

/-- What a feed has yet to deliver. It hands out an empty buffer only at the end, and goes on behind
what was taken of a buffer. How long the buffers are, and whether what is left of one comes again in
the same way, is up to the feed. -/
inductive Delivers (feed : Feed σ) : σ → Bytes → Prop where
  | done {state after : σ} (filled : feed.fill state = ([], after)) : Delivers feed state []
  | more {state after : σ} {buffer content : Bytes} (filled : feed.fill state = (buffer, after))
    (nonempty : buffer ≠ []) (start : buffer <+: content)
    (onward : ∀ taken, 0 < taken → taken ≤ buffer.length →
      Delivers feed (feed.consume taken after) (content.drop taken)) : Delivers feed state content

/-- The next buffer tells whether there is anything left. -/
theorem Delivers.fill_eq_nil (delivers : feed.Delivers state content) :
    (feed.fill state).1 = [] ↔ content = [] := by
  cases delivers with
  | done filled => simp [filled]
  | more filled nonempty start _ =>
    rw [filled]
    constructor
    · intro empty
      exact absurd empty nonempty
    · rintro rfl
      exact List.prefix_nil.mp start

/-- Hands out some pieces, one after the other, up to the first empty one. -/
def ofPieces : Feed (List Bytes) where
  fill pieces := (pieces.headD [], pieces)
  consume taken pieces :=
    match pieces with
    | [] => []
    | piece :: rest => if taken < piece.length then piece.drop taken :: rest else rest

/-- By induction on the pieces, and for each of them on its length. -/
theorem ofPieces_delivers (pieces : List Bytes) :
    ofPieces.Delivers pieces (Writer.delivered pieces) := by
  induction pieces with
  | nil => exact .done rfl
  | cons piece rest ih =>
    induction size : piece.length using Nat.strongRecOn generalizing piece with
    | ind size shorter =>
      by_cases empty : piece = []
      · subst empty
        rw [Writer.delivered_nil]
        exact .done rfl
      · rw [Writer.delivered_cons empty]
        refine .more rfl empty (List.prefix_append _ _) fun taken positive within => ?_
        have less : taken ≤ piece.length := within
        rw [List.drop_append_of_le_length less]
        by_cases inside : taken < piece.length
        · have left : piece.drop taken ≠ [] := by
            rw [ne_eq, List.drop_eq_nil_iff]
            omega
          have consumed : ofPieces.consume taken (piece :: rest) = piece.drop taken :: rest :=
            if_pos inside
          have later := shorter (piece.drop taken).length (by rw [List.length_drop]; omega) _ rfl
          rwa [Writer.delivered_cons left, ← consumed] at later
        · have consumed : ofPieces.consume taken (piece :: rest) = rest := if_neg inside
          have whole : piece.drop taken = [] := List.drop_eq_nil_iff.mpr (by omega)
          show ofPieces.Delivers (ofPieces.consume taken (piece :: rest)) _
          rw [consumed, whole]
          exact ih

end Feed

/-- A call fails and leaves some bytes behind, after whatever has been written before. -/
def Abandons {α : Type} (call : WriterM α) (fault : WriteFault) (output : Bytes) : Prop :=
  ∀ before, ∃ after, call before = .error fault after ∧ after.bytes = before.bytes ++ output

namespace Abandons

variable {α β : Type} {fault : WriteFault} {front output : Bytes}

theorem throws (fault : WriteFault) : Abandons (throw fault : WriterM α) fault [] :=
  fun before => ⟨before, rfl, (List.append_nil _).symm⟩

theorem bind_of_first {first : WriterM α} (next : α → WriterM β)
    (abandons : Abandons first fault output) : Abandons (first >>= next) fault output := by
  intro before
  obtain ⟨after, ran, written⟩ := abandons before
  exact ⟨after, bind_failed ran, written⟩

theorem bind_of_next {first : WriterM α} {next : α → WriterM β} {value : α}
    (writes : Writes first value front) (abandons : Abandons (next value) fault output) :
    Abandons (first >>= next) fault (front ++ output) := by
  intro before
  obtain ⟨between, ran, written⟩ := writes before
  obtain ⟨after, failed, left⟩ := abandons between
  refine ⟨after, ?_, ?_⟩
  · rw [bind_done ran]
    exact failed
  · rw [left, written, List.append_assoc]

theorem andThen {first : WriterM Unit} {next : WriterM β} (writes : Writes first () front)
    (abandons : Abandons next fault output) : Abandons (do first; next) fault (front ++ output) :=
  bind_of_next writes abandons

end Abandons

namespace Writer

variable {σ : Type} {feed : Feed σ} {state after : σ} {buffer content : Bytes} {need size : Nat}

/-- Copies as many bytes as are needed, and returns the state in which the feed is after that. -/
def copyFrom (feed : Feed σ) (need : Nat) (state : σ) : WriterM σ :=
  if _finished : need = 0 then return state
  else
    let filled := feed.fill state
    if _empty : filled.1 = [] then throw .contentTooShort
    else do
      let taken := min need filled.1.length
      write (filled.1.take taken)
      copyFrom feed (need - taken) (feed.consume taken filled.2)
termination_by need
decreasing_by
  have positive : 0 < (feed.fill state).1.length := List.length_pos_iff.mpr _empty
  show need - min need (feed.fill state).1.length < need
  omega

def exhausted (feed : Feed σ) (state : σ) : WriterM Unit :=
  if (feed.fill state).1 = [] then return () else throw .contentTooLong

/-- Makes the open node a file of the given size, with data from a feed. Whether there is more of it
than was announced is seen from one more buffer. -/
def fileFrom (feed : Feed σ) (size : Nat) (state : σ) : WriterM Unit := do
  write regular
  write (Bytes.ofNat 8 size)
  let state ← copyFrom feed size state
  exhausted feed state
  write (padding size)
  write closing

theorem copyFrom_zero (feed : Feed σ) (state : σ) : copyFrom feed 0 state = pure state := by
  rw [copyFrom, dif_pos rfl]

theorem copyFrom_end (needed : need ≠ 0) (filled : feed.fill state = ([], after)) :
    copyFrom feed need state = throw .contentTooShort := by
  rw [copyFrom, dif_neg needed]
  simp only [filled, ↓reduceDIte]

/-- One buffer is written, or as much of it as is needed, and the loop goes on behind that. -/
theorem copyFrom_step (needed : need ≠ 0) (filled : feed.fill state = (buffer, after))
    (nonempty : buffer ≠ []) :
    copyFrom feed need state = (do
      write (buffer.take (min need buffer.length))
      copyFrom feed (need - min need buffer.length)
        (feed.consume (min need buffer.length) after)) := by
  rw [copyFrom, dif_neg needed]
  simp only [filled, nonempty, ↓reduceDIte]

/-- The beginning of a buffer is that of all that is delivered, and the rest is still to come. -/
theorem take_split (start : buffer <+: content) (need : Nat) :
    buffer.take (min need buffer.length) ++
        (content.drop (min need buffer.length)).take (need - min need buffer.length) =
      content.take need := by
  obtain ⟨rest, rfl⟩ := start
  have less : min need buffer.length ≤ buffer.length := Nat.min_le_right ..
  have whole : need = min need buffer.length + (need - min need buffer.length) := by omega
  conv => rhs; rw [whole, List.take_add, List.take_append_of_le_length less]

/-- A feed that has enough is copied from as far as needed. By induction on what it delivers. -/
theorem copyFrom_writes (delivers : feed.Delivers state content) (enough : need ≤ content.length) :
    ∃ rest, feed.Delivers rest (content.drop need) ∧
      Writes (copyFrom feed need state) rest (content.take need) := by
  induction delivers generalizing need with
  | done filled =>
    obtain rfl : need = 0 := by simpa using enough
    rw [copyFrom_zero]
    exact ⟨_, .done filled, Writes.pure _⟩
  | @more state after buffer content filled nonempty start onward ih =>
    by_cases needed : need = 0
    · subst needed
      rw [copyFrom_zero]
      exact ⟨state, .more filled nonempty start onward, Writes.pure state⟩
    · have positive : 0 < buffer.length := List.length_pos_iff.mpr nonempty
      have within : buffer.length ≤ content.length := start.length_le
      have later : need - min need buffer.length ≤
          (content.drop (min need buffer.length)).length := by
        rw [List.length_drop]
        omega
      obtain ⟨rest, left, written⟩ := ih (min need buffer.length) (by omega) (by omega) later
      refine ⟨rest, ?_, ?_⟩
      · rw [List.drop_drop] at left
        rwa [show min need buffer.length + (need - min need buffer.length) = need by omega] at left
      · rw [copyFrom_step needed filled nonempty, ← take_split start need]
        exact (Writes.piece _).andThen written

/-- A feed that has too little is copied from to its end. By induction on what it delivers. -/
theorem copyFrom_abandons (delivers : feed.Delivers state content) (short : content.length < need) :
    Abandons (copyFrom feed need state) .contentTooShort (content.take need) := by
  induction delivers generalizing need with
  | done filled =>
    rw [copyFrom_end (by omega) filled, List.take_nil]
    exact Abandons.throws _
  | @more state after buffer content filled nonempty start onward ih =>
    have positive : 0 < buffer.length := List.length_pos_iff.mpr nonempty
    have within : buffer.length ≤ content.length := start.length_le
    have later : (content.drop (min need buffer.length)).length <
        need - min need buffer.length := by
      rw [List.length_drop]
      omega
    have abandoned := ih (min need buffer.length) (by omega) (by omega) later
    rw [copyFrom_step (by omega) filled nonempty, ← take_split start need]
    exact Abandons.andThen (Writes.piece _) abandoned

theorem exhausted_eq (delivers : feed.Delivers state content) :
    exhausted feed state = if content = [] then pure () else throw .contentTooLong := by
  simp only [exhausted, delivers.fill_eq_nil]

/-- A file is written if the feed delivers what was announced. -/
theorem fileFrom_writes (delivers : feed.Delivers state content) :
    Writes (fileFrom feed content.length state) ()
      (regular ++ (string content ++ closing)) := by
  obtain ⟨rest, left, copied⟩ := copyFrom_writes delivers (Nat.le_refl _)
  rw [List.drop_length] at left
  rw [List.take_length] at copied
  have ended : Writes (exhausted feed rest) () [] := by
    rw [exhausted_eq left, if_pos rfl]
    exact Writes.pure ()
  have concluded : Writes (do
      let rest ← copyFrom feed content.length state
      exhausted feed rest
      write (padding content.length)
      write closing) () (content ++ ([] ++ (padding content.length ++ closing))) :=
    copied.bind <| ended.andThen <| (Writes.piece (padding content.length)).andThen <|
      Writes.piece closing
  have written :=
    (Writes.piece regular).andThen <| (Writes.piece (Bytes.ofNat 8 content.length)).andThen
      concluded
  simpa only [fileFrom, string, List.nil_append, List.append_assoc] using written

/-- Otherwise it is left unfinished, behind as much of the data as was announced. -/
theorem fileFrom_abandons (delivers : feed.Delivers state content) (other : content.length ≠ size) :
    Abandons (fileFrom feed size state)
      (if content.length < size then .contentTooShort else .contentTooLong)
      (regular ++ (Bytes.ofNat 8 size ++ content.take size)) := by
  refine Abandons.andThen (Writes.piece regular) <|
    Abandons.andThen (Writes.piece (Bytes.ofNat 8 size)) ?_
  by_cases short : content.length < size
  · rw [if_pos short]
    exact (copyFrom_abandons delivers short).bind_of_first _
  · obtain ⟨rest, left, copied⟩ := copyFrom_writes delivers (Nat.le_of_not_lt short)
    have surplus : content.drop size ≠ [] := by
      rw [ne_eq, List.drop_eq_nil_iff]
      omega
    have refused : Abandons (exhausted feed rest) .contentTooLong [] := by
      rw [exhausted_eq left, if_neg surplus]
      exact Abandons.throws _
    have abandoned : Abandons (do
        let rest ← copyFrom feed size state
        exhausted feed rest
        write (padding size)
        write closing) .contentTooLong (content.take size ++ []) :=
      Abandons.bind_of_next copied (refused.bind_of_first _)
    rw [if_neg short, ← List.append_nil (content.take size)]
    exact abandoned

/-- Copying from pieces is copying from the feed that hands them out. By induction on the pieces. -/
theorem copyFrom_pieces (size : Nat) (pieces : List Bytes) :
    (copyFrom Feed.ofPieces size pieces >>= exhausted Feed.ofPieces) = copy size pieces := by
  induction pieces generalizing size with
  | nil =>
    cases size with
    | zero =>
      rw [copyFrom_zero]
      rfl
    | succ size =>
      rw [copyFrom_end (Nat.succ_ne_zero size) rfl]
      rfl
  | cons piece rest ih =>
    by_cases empty : piece = []
    · subst empty
      cases size with
      | zero =>
        rw [copyFrom_zero]
        rfl
      | succ size =>
        rw [copyFrom_end (Nat.succ_ne_zero size) rfl]
        rfl
    · cases size with
      | zero =>
        rw [copyFrom_zero, copy, if_neg empty]
        exact if_neg empty
      | succ size =>
        have filled : Feed.ofPieces.fill (piece :: rest) = (piece, piece :: rest) := rfl
        rw [copyFrom_step (Nat.succ_ne_zero size) filled empty, bind_assoc, copy, if_neg empty]
        by_cases surplus : size + 1 < piece.length
        · have left : piece.drop (size + 1) ≠ [] := by
            rw [ne_eq, List.drop_eq_nil_iff]
            omega
          have consumed : Feed.ofPieces.consume (size + 1) (piece :: rest) =
              piece.drop (size + 1) :: rest := if_pos surplus
          rw [Nat.min_eq_left (Nat.le_of_lt surplus), if_pos surplus, consumed, Nat.sub_self,
            copyFrom_zero, pure_bind]
          exact congrArg _ (funext fun _ => if_neg left)
        · have consumed : Feed.ofPieces.consume piece.length (piece :: rest) = rest :=
            if_neg (Nat.lt_irrefl _)
          rw [Nat.min_eq_right (Nat.le_of_not_lt surplus), if_neg surplus, consumed,
            List.take_length, List.take_of_length_le (Nat.le_of_not_lt surplus), ih]

theorem fileFrom_pieces (size : Nat) (pieces : List Bytes) :
    fileFrom Feed.ofPieces size pieces = file size pieces := by
  simp only [fileFrom, file, ← copyFrom_pieces, bind_assoc]

/-- How the data of a file is cut into buffers makes no difference. The file is written if there is
as much data as was announced, in the same way as from a single buffer; otherwise the call fails,
behind the header and all the data that there was room for. Pieces are data cut in some way. -/
theorem fileFrom_chunked (delivers : feed.Delivers state content) (size : Nat) :
    (∀ before, (∃ after, fileFrom feed size state before = .ok () after) ↔ content.length = size) ∧
    (content.length = size → ∀ call ∈ [fileFrom feed size state, bytes content],
      Writes call () (regular ++ (Bytes.ofNat 8 size ++ (content ++ (padding size ++ closing))))) ∧
    (content.length < size → ∃ fault, fault.kind = .unexpectedEnd ∧
      Abandons (fileFrom feed size state) fault
        (regular ++ (Bytes.ofNat 8 size ++ content.take (min size content.length)))) ∧
    (size < content.length → ∃ fault, fault.kind = .invalidInput ∧
      Abandons (fileFrom feed size state) fault
        (regular ++ (Bytes.ofNat 8 size ++ content.take (min size content.length)))) ∧
    ∀ pieces, delivered pieces = content →
      Feed.ofPieces.Delivers pieces content ∧ file size pieces =
        fileFrom Feed.ofPieces size pieces := by
  have written : content.length = size → Writes (fileFrom feed size state) ()
      (regular ++ (Bytes.ofNat 8 size ++ (content ++ (padding size ++ closing)))) := by
    rintro rfl
    simpa only [string, List.append_assoc] using fileFrom_writes delivers
  refine ⟨fun before => ⟨?_, fun same => ?_⟩, fun same call listed => ?_, fun short => ?_,
    fun long => ?_, ?_⟩
  · rintro ⟨after, ran⟩
    by_contra other
    obtain ⟨_, failed, _⟩ := fileFrom_abandons delivers other before
    cases ran.symm.trans failed
  · obtain ⟨after, ran, _⟩ := written same before
    exact ⟨after, ran⟩
  · rcases List.mem_pair.mp listed with rfl | rfl
    · exact written same
    · subst same
      simpa only [string, List.append_assoc] using bytes_writes content
  · have abandoned := fileFrom_abandons delivers (Nat.ne_of_lt short)
    rw [if_pos short, List.take_eq_take_min] at abandoned
    exact ⟨_, rfl, abandoned⟩
  · have abandoned := fileFrom_abandons delivers (Nat.ne_of_gt long)
    rw [if_neg (Nat.lt_asymm long), List.take_eq_take_min] at abandoned
    exact ⟨_, rfl, abandoned⟩
  · rintro pieces rfl
    exact ⟨Feed.ofPieces_delivers pieces, (fileFrom_pieces size pieces).symm⟩

/-- The last buffer holds more than is needed. -/
theorem fileFrom_chunked_straddling :
    Feed.ofPieces.Delivers [[1, 2], [3], [4, 5, 6]] [1, 2, 3, 4, 5, 6] ∧
    ∃ fault, fault.kind = .invalidInput ∧
      Abandons (fileFrom Feed.ofPieces 4 [[1, 2], [3], [4, 5, 6]]) fault
        (regular ++ (Bytes.ofNat 8 4 ++ [1, 2, 3, 4])) :=
  have delivers := Feed.ofPieces_delivers [[1, 2], [3], [4, 5, 6]]
  ⟨delivers, (fileFrom_chunked delivers 4).2.2.2.1 (by decide)⟩

end Writer

end Depot.Archive
