import Depot.Archive.Writer
import Depot.Proofs.Archive.Shape
import Depot.Proofs.Outcome

set_option autoImplicit false

namespace Depot.Archive

open Member (DistinctNames Unambiguous EachUnambiguous)

/-- A call returns a value and appends some bytes to whatever has been written before. -/
def Writes {α : Type} (call : WriterM α) (value : α) (output : Bytes) : Prop :=
  ∀ before, ∃ after, call before = .ok value after ∧ after.bytes = before.bytes ++ output

/-- A call fails, whatever has been written before. -/
def Refuses {α : Type} (call : WriterM α) (fault : WriteFault) : Prop :=
  ∀ before, ∃ after, call before = .error fault after

namespace Writes

variable {α β : Type}

theorem pure (value : α) : Writes (Pure.pure value) value [] :=
  fun before => ⟨before, rfl, (List.append_nil _).symm⟩

theorem bind {first : WriterM α} {next : α → WriterM β} {value : α} {result : β}
    {front back : Bytes} (writesFirst : Writes first value front)
    (writesNext : Writes (next value) result back) :
    Writes (first >>= next) result (front ++ back) := by
  intro before
  obtain ⟨between, ran, written⟩ := writesFirst before
  obtain ⟨after, ranNext, writtenNext⟩ := writesNext between
  refine ⟨after, ?_, ?_⟩
  · rw [bind_done ran]
    exact ranNext
  · rw [writtenNext, written, List.append_assoc]

theorem andThen {first : WriterM Unit} {next : WriterM β} {result : β} {front back : Bytes}
    (writesFirst : Writes first () front) (writesNext : Writes next result back) :
    Writes (do first; next) result (front ++ back) :=
  writesFirst.bind writesNext

theorem piece (output : Bytes) : Writes (Writer.write output) () output := by
  intro before
  exact ⟨output :: before, rfl, by simp [Written.bytes]⟩

end Writes

namespace Refuses

variable {α β : Type}

theorem bind_of_first {first : WriterM α} (next : α → WriterM β) {fault : WriteFault}
    (refused : Refuses first fault) : Refuses (first >>= next) fault := by
  intro before
  obtain ⟨after, ran⟩ := refused before
  exact ⟨after, bind_failed ran⟩

theorem bind_of_next {first : WriterM α} {next : α → WriterM β} {value : α} {front : Bytes}
    {fault : WriteFault} (writesFirst : Writes first value front)
    (refused : Refuses (next value) fault) : Refuses (first >>= next) fault := by
  intro before
  obtain ⟨between, ran, _⟩ := writesFirst before
  obtain ⟨after, ranNext⟩ := refused between
  refine ⟨after, ?_⟩
  rw [bind_done ran]
  exact ranNext

theorem andThen {first : WriterM Unit} {next : WriterM β} {front : Bytes} {fault : WriteFault}
    (writesFirst : Writes first () front) (refused : Refuses next fault) :
    Refuses (do first; next) fault :=
  bind_of_next writesFirst refused

end Refuses

namespace Writer

/-- The data that pieces deliver, up to the first empty one. -/
def delivered (pieces : List Bytes) : Bytes :=
  (pieces.takeWhile (· ≠ [])).flatten

theorem delivered_nil (rest : List Bytes) : delivered ([] :: rest) = [] := by
  simp [delivered]

theorem delivered_cons {piece : Bytes} (filled : piece ≠ []) (rest : List Bytes) :
    delivered (piece :: rest) = piece ++ delivered rest := by
  simp [delivered, filled]

theorem delivered_single (content : Bytes) : delivered [content] = content := by
  cases content with
  | nil => exact delivered_nil []
  | cons byte rest =>
    exact (delivered_cons (List.cons_ne_nil byte rest) []).trans (List.append_nil _)

/-- Copying takes no more than the announced size of what is delivered, and finds out whether this
is all. By induction on the pieces. -/
theorem copy_eq (size : Nat) (pieces : List Bytes) (before : Written) :
    ∃ after : Written, after.bytes = before.bytes ++ (delivered pieces).take size ∧
      copy size pieces before =
        if (delivered pieces).length = size then .ok () after
        else if (delivered pieces).length < size then .error .contentTooShort after
        else .error .contentTooLong after := by
  induction pieces generalizing size before with
  | nil =>
    refine ⟨before, by simp [delivered], ?_⟩
    cases size <;> rfl
  | cons piece rest ih =>
    by_cases empty : piece = []
    · subst empty
      refine ⟨before, by simp [delivered_nil], ?_⟩
      rw [delivered_nil]
      cases size <;> rfl
    · have filled : 0 < piece.length := List.length_pos_iff.mpr empty
      rw [delivered_cons empty, List.length_append]
      cases size with
      | zero =>
        refine ⟨before, by simp, ?_⟩
        rw [if_neg (by omega), if_neg (by omega), copy, if_neg empty]
        rfl
      | succ size =>
        have written : copy (size + 1) (piece :: rest) before =
            (if size + 1 < piece.length then throw .contentTooLong
              else copy (size + 1 - piece.length) rest) (piece.take (size + 1) :: before) := by
          rw [copy, if_neg empty]
          rfl
        rw [written]
        by_cases surplus : size + 1 < piece.length
        · refine ⟨piece.take (size + 1) :: before, ?_, ?_⟩
          · rw [List.take_append_of_le_length (by omega)]
            simp [Written.bytes]
          · rw [if_pos surplus, if_neg (by omega), if_neg (by omega)]
            rfl
        · obtain ⟨after, output, copied⟩ := ih (size + 1 - piece.length) (piece :: before)
          have whole : piece.take (size + 1) = piece := List.take_of_length_le (by omega)
          refine ⟨after, ?_, ?_⟩
          · rw [output, List.take_append, whole]
            simp [Written.bytes]
          · rw [if_neg surplus, whole, copied]
            have same : (delivered rest).length = size + 1 - piece.length ↔
                piece.length + (delivered rest).length = size + 1 := by omega
            have less : (delivered rest).length < size + 1 - piece.length ↔
                piece.length + (delivered rest).length < size + 1 := by omega
            simp only [same, less]

section File

variable {size : Nat} {pieces : List Bytes}

theorem file_writes (exact : (delivered pieces).length = size) :
    Writes (file size pieces) () (regular ++ (string (delivered pieces) ++ closing)) := by
  have copied : Writes (copy size pieces) () (delivered pieces) := by
    intro before
    obtain ⟨after, output, ran⟩ := copy_eq size pieces before
    rw [if_pos exact] at ran
    exact ⟨after, ran, by rw [output, ← exact, List.take_length]⟩
  have written :=
    (Writes.piece regular).andThen <| (Writes.piece (Bytes.ofNat 8 size)).andThen <|
      copied.andThen <| (Writes.piece (padding size)).andThen <| Writes.piece closing
  simpa only [file, string, exact, List.append_assoc] using written

theorem file_refuses (other : (delivered pieces).length ≠ size) :
    ∃ fault, Refuses (file size pieces) fault := by
  let fault : WriteFault :=
    if (delivered pieces).length < size then .contentTooShort else .contentTooLong
  have stopped : Refuses (copy size pieces) fault := by
    intro before
    obtain ⟨after, _, ran⟩ := copy_eq size pieces before
    refine ⟨after, ?_⟩
    rw [ran, if_neg other]
    split
    · next short => rw [show fault = .contentTooShort from if_pos short]
    · next long => rw [show fault = .contentTooLong from if_neg long]
  exact ⟨fault, Refuses.andThen (Writes.piece regular) <|
    Refuses.andThen (Writes.piece (Bytes.ofNat 8 size)) <| stopped.bind_of_first _⟩

end File

theorem bytes_writes (content : Bytes) :
    Writes (bytes content) () (regular ++ (string content ++ closing)) := by
  have single := delivered_single content
  have written := file_writes (congrArg List.length single)
  rwa [single] at written

theorem beginDirectory_writes : Writes beginDirectory ⟨[]⟩ directory := by
  simpa only [beginDirectory, List.append_nil] using
    (Writes.piece directory).andThen (Writes.pure (Directory.mk []))

/-- What ends the entry before the next one, if there is one. -/
def Directory.terminator (dir : Directory) : Bytes :=
  if dir.names.isEmpty then [] else closing

theorem endEntry_writes (dir : Directory) : Writes dir.endEntry () dir.terminator := by
  unfold Directory.endEntry Directory.terminator
  split
  · exact Writes.pure ()
  · exact Writes.piece closing

theorem close_writes (dir : Directory) : Writes dir.close () (dir.terminator ++ closing) :=
  (endEntry_writes dir).andThen (Writes.piece closing)

theorem entry_writes (dir : Directory) (name : Name) (fresh : name.bytes ∉ dir.names) :
    Writes (dir.entry name.bytes) ⟨name.bytes :: dir.names⟩
      (dir.terminator ++ (entry ++ (string name.bytes ++ node))) := by
  have written :=
    (endEntry_writes dir).andThen <| (Writes.piece entry).andThen <|
      (Writes.piece (string name.bytes)).andThen <| (Writes.piece node).andThen <|
        Writes.pure (Directory.mk (name.bytes :: dir.names))
  simpa only [Directory.entry, name.valid, fresh, ↓reduceIte, List.append_nil] using written

theorem entry_refuses (dir : Directory) (name : Name) (taken : name.bytes ∈ dir.names) :
    Refuses (dir.entry name.bytes) (.duplicateName name.bytes) := by
  intro before
  refine ⟨before, ?_⟩
  simp only [Directory.entry, name.valid, taken, ↓reduceIte]
  rfl

/-- The names that a directory has, and those it is about to get, are distinct. -/
def Directory.Admits (dir : Directory) (children : List Member) : Prop :=
  (∀ child ∈ children, child.name.bytes ∉ dir.names) ∧ DistinctNames children

theorem admits_cons (dir : Directory) (member : Member) (rest : List Member) :
    dir.Admits (member :: rest) ↔
      member.name.bytes ∉ dir.names ∧ Unambiguous member ∧
        Directory.Admits ⟨member.name.bytes :: dir.names⟩ rest := by
  have apart : (∀ child ∈ rest, child.name.bytes ≠ member.name.bytes) ↔
      member.name ∉ rest.map Member.name := by
    simp only [List.mem_map, not_exists, not_and, ne_eq]
    exact forall₂_congr fun child _ =>
      not_congr ⟨fun same => Name.ext same, fun same => congrArg Name.bytes same⟩
  simp only [Directory.Admits, List.forall_mem_cons, Member.distinctNames_cons, ← apart]
  simp only [List.mem_cons, not_or, forall_and]
  constructor
  · rintro ⟨⟨fresh, others⟩, different, inside, distinct⟩
    exact ⟨fresh, inside, ⟨different, others⟩, distinct⟩
  · rintro ⟨fresh, inside, ⟨different, others⟩, distinct⟩
    exact ⟨⟨fresh, others⟩, different, inside, distinct⟩

mutual

theorem member_writes (item : Member) (unambiguous : Unambiguous item) :
    Writes (member item) () (layout item) := by
  match item with
  | .file _ content => exact bytes_writes content
  | .directory _ children =>
    exact beginDirectory_writes.bind (entries_writes ⟨[]⟩ children ⟨by simp, unambiguous⟩)

/-- The end of the entry before is written late, when there is a next entry or the directory ends.
-/
theorem entries_writes (dir : Directory) (children : List Member) (admitted : dir.Admits children) :
    Writes (entries dir children) () (dir.terminator ++ (layoutEntries children ++ closing)) := by
  match children with
  | [] => exact close_writes dir
  | next :: rest =>
    obtain ⟨fresh, unambiguous, others⟩ := (admits_cons dir next rest).mp admitted
    have output : dir.terminator ++ (layoutEntries (next :: rest) ++ closing) =
        (dir.terminator ++ (entry ++ (string next.name.bytes ++ node))) ++ (layout next ++
          (Directory.terminator ⟨next.name.bytes :: dir.names⟩ ++
            (layoutEntries rest ++ closing))) := by
      simp only [layoutEntries, Directory.terminator, List.isEmpty_cons, Bool.false_eq_true,
        ↓reduceIte, List.append_assoc]
    rw [entries, output]
    exact (entry_writes dir next.name fresh).bind
      ((member_writes next unambiguous).andThen (entries_writes _ rest others))

end

mutual

theorem member_refuses (item : Member) (ambiguous : ¬ Unambiguous item) :
    ∃ name, Refuses (member item) (.duplicateName name) := by
  match item with
  | .file .. => exact absurd trivial ambiguous
  | .directory _ children =>
    have excluded : ¬ Directory.Admits ⟨[]⟩ children := fun admitted => ambiguous admitted.2
    obtain ⟨name, refused⟩ := entries_refuses ⟨[]⟩ children excluded
    exact ⟨name, Refuses.bind_of_next beginDirectory_writes refused⟩

theorem entries_refuses (dir : Directory) (children : List Member)
    (excluded : ¬ dir.Admits children) :
    ∃ name, Refuses (entries dir children) (.duplicateName name) := by
  match children with
  | [] => exact absurd ⟨by simp, List.nodup_nil, trivial⟩ excluded
  | next :: rest =>
    by_cases taken : next.name.bytes ∈ dir.names
    · exact ⟨_, (entry_refuses dir next.name taken).bind_of_first _⟩
    · have entered := entry_writes dir next.name taken
      by_cases unambiguous : Unambiguous next
      · have others : ¬ Directory.Admits ⟨next.name.bytes :: dir.names⟩ rest := fun admitted =>
          excluded ((admits_cons dir next rest).mpr ⟨taken, unambiguous, admitted⟩)
        obtain ⟨name, refused⟩ := entries_refuses _ rest others
        exact ⟨name, Refuses.bind_of_next entered
          (Refuses.andThen (member_writes next unambiguous) refused)⟩
      · obtain ⟨name, refused⟩ := member_refuses next unambiguous
        exact ⟨name, Refuses.bind_of_next entered (refused.bind_of_first _)⟩

end

theorem members_writes {list : List Member} (distinct : DistinctNames list) :
    Writes (members list) () (directory ++ (layoutEntries list ++ closing)) :=
  beginDirectory_writes.bind (entries_writes ⟨[]⟩ list ⟨by simp, distinct⟩)

theorem members_refuses {list : List Member} (repeated : ¬ DistinctNames list) :
    ∃ name, Refuses (members list) (.duplicateName name) := by
  obtain ⟨name, refused⟩ := entries_refuses ⟨[]⟩ list fun admitted => repeated admitted.2
  exact ⟨name, Refuses.bind_of_next beginDirectory_writes refused⟩

end Writer

/-- A tree with distinct names is written out as its layout. -/
theorem encodePlain_of_distinct {members : List Member} (distinct : DistinctNames members) :
    encodePlain members = .ok (layoutArchive members) := by
  obtain ⟨after, ran, output⟩ :=
    (Writes.piece opening).andThen (Writer.members_writes distinct) []
  simp only [encodePlain, Writer.openArchive, WriterM.record, ran, output]
  rfl

/-- A tree without distinct names is not written out. -/
theorem encodePlain_of_repeated {members : List Member} (repeated : ¬ DistinctNames members) :
    ∃ name, encodePlain members = .error (.duplicateName name) := by
  obtain ⟨name, refused⟩ := Writer.members_refuses repeated
  obtain ⟨after, ran⟩ := Refuses.andThen (Writes.piece opening) refused []
  exact ⟨name, by simp only [encodePlain, Writer.openArchive, WriterM.record, ran]⟩

end Depot.Archive
