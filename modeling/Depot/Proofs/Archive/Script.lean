import Depot.Archive.Script
import Depot.Proofs.Archive.RoundTrip

set_option autoImplicit false

namespace Depot.Archive

open Member (DistinctNames EachMeasurable Unambiguous levels)

namespace Writer

/-- Why a directory refuses an entry of a name, if it does. -/
def Directory.refusal? (dir : Directory) (text : Bytes) : Option WriteFault :=
  match Name.fault? text with
  | some error => some (.invalidName error)
  | none => if dir.names.contains text then some (.duplicateName text) else none

variable {dir : Directory} {text : Bytes} {fault : WriteFault}

theorem refusal?_eq_none :
    dir.refusal? text = none ↔ Name.fault? text = none ∧ text ∉ dir.names := by
  unfold Directory.refusal?
  cases Name.fault? text with
  | some error => simp
  | none => simp

theorem kind_of_refusal? (refused : dir.refusal? text = some fault) :
    fault.kind = .invalidInput := by
  unfold Directory.refusal? at refused
  split at refused
  · cases refused
    rfl
  · split at refused
    · cases refused
      rfl
    · cases refused

/-- An entry that is refused writes nothing. -/
theorem entry_refused (refused : dir.refusal? text = some fault) (written : Written) :
    dir.entry text written = .error fault written := by
  unfold Directory.refusal? at refused
  unfold Directory.entry
  cases faulty : Name.fault? text with
  | some error =>
    rw [faulty] at refused
    cases refused
    rfl
  | none =>
    rw [faulty] at refused
    by_cases taken : text ∈ dir.names
    · simp only [List.contains_iff_mem, taken, ↓reduceIte] at refused ⊢
      cases refused
      rfl
    · simp [taken] at refused

theorem attempt_writes {α : Type} {call : WriterM α} {value : α} {output : Bytes}
    (writes : Writes call value output) : Writes (attempt call) (.ok value) output := by
  intro before
  obtain ⟨after, ran, written⟩ := writes before
  exact ⟨after, by simp only [attempt, ran], written⟩

theorem attempt_refused {α : Type} {call : WriterM α} {before after : Written}
    (ran : call before = .error fault after) : attempt call before = .ok (.error fault) after := by
  simp only [attempt, ran]

end Writer

def Call.isEntry : Call → Bool
  | entry _ => true
  | bytes | file | members | member | close => false

namespace Script

/-- No call fails, apart from entries that are refused. -/
def Completed (notes : List Note) : Prop :=
  ∀ note ∈ notes, note.call.isEntry = false → note.fault? = none

instance (notes : List Note) : Decidable (Completed notes) :=
  inferInstanceAs (Decidable (∀ note ∈ notes, note.call.isEntry = false → note.fault? = none))

theorem completed_append {first second : List Note} :
    Completed (first ++ second) ↔ Completed first ∧ Completed second :=
  List.forall_mem_append

theorem completed_entry {text : Bytes} {fault? : Option WriteFault} {notes : List Note} :
    Completed (⟨.entry text, fault?⟩ :: notes) ↔ Completed notes := by
  simp [Completed, Call.isEntry]

mutual

/-- The member of a name that the calls for its node make, if they end the node and do not fail. -/
def made? (name : Name) : Script → Option Member
  | nothing => none
  | bytes content => some (.file name content)
  | file _ pieces => some (.file name (Writer.delivered pieces))
  | members list => some (.directory name list)
  | member (.file _ content) => some (.file name content)
  | member (.directory _ children) => some (.directory name children)
  | directory entries close =>
    if close then (madeEach? [] entries).map (.directory name) else none

/-- The members that the calls for the entries of a directory make, if entries of the given names
are there before: one for each entry whose name is valid and new. -/
def madeEach? (names : List Bytes) : List (Bytes × Script) → Option (List Member)
  | [] => some []
  | (text, script) :: rest =>
    match Name.ofBytes text with
    | .error _ => madeEach? names rest
    | .ok name =>
      if names.contains text then madeEach? names rest
      else do
        let first ← made? name script
        let others ← madeEach? (text :: names) rest
        some (first :: others)

end

mutual

/-- The notes on the calls for a node if only entries are refused. -/
def notes : Script → List Note
  | nothing => []
  | bytes _ => [⟨.bytes, none⟩]
  | file .. => [⟨.file, none⟩]
  | members _ => [⟨.members, none⟩]
  | member _ => [⟨.member, none⟩]
  | directory entries close =>
    notesEach [] entries ++ if close then [⟨.close, none⟩] else []

/-- The notes on the calls for the entries of a directory if only entries are refused. -/
def notesEach (names : List Bytes) : List (Bytes × Script) → List Note
  | [] => []
  | (text, script) :: rest =>
    match Writer.Directory.refusal? ⟨names⟩ text with
    | some fault => ⟨.entry text, some fault⟩ :: notesEach names rest
    | none => ⟨.entry text, none⟩ :: (notes script ++ notesEach (text :: names) rest)

end

section Entry

variable {names : List Bytes} {text : Bytes} {script : Script} {rest : List (Bytes × Script)}

theorem madeEach?_refused {fault : WriteFault}
    (refused : Writer.Directory.refusal? ⟨names⟩ text = some fault) :
    madeEach? names ((text, script) :: rest) = madeEach? names rest := by
  rw [madeEach?]
  cases named : Name.ofBytes text with
  | error error => rfl
  | ok name =>
    obtain rfl := Name.bytes_of_ofBytes named
    have taken : name.bytes ∈ names := by
      simpa [Writer.Directory.refusal?, name.valid] using congrArg Option.isSome refused
    simp only [List.contains_iff_mem, taken, ↓reduceIte]

theorem madeEach?_accepted {items : List Member}
    (accepted : Writer.Directory.refusal? ⟨names⟩ text = none)
    (made : madeEach? names ((text, script) :: rest) = some items) :
    ∃ name item others, name.bytes = text ∧ text ∉ names ∧ made? name script = some item ∧
      madeEach? (text :: names) rest = some others ∧ items = item :: others := by
  obtain ⟨valid, fresh⟩ := Writer.refusal?_eq_none.mp accepted
  have named : Name.ofBytes text = .ok ⟨text, valid⟩ := Name.ofBytes_bytes ⟨text, valid⟩
  simp only [madeEach?, named, List.contains_iff_mem, fresh, ↓reduceIte, Option.bind_eq_bind,
    Option.bind_eq_some_iff] at made
  obtain ⟨item, here, others, later, result⟩ := made
  cases result
  exact ⟨⟨text, valid⟩, item, others, rfl, fresh, here, later, rfl⟩

end Entry

theorem name_of_made? {name : Name} {script : Script} {item : Member}
    (made : made? name script = some item) : item.name = name := by
  unfold made? at made
  split at made
  · cases made
  · cases made
    rfl
  · cases made
    rfl
  · cases made
    rfl
  · cases made
    rfl
  · cases made
    rfl
  · split at made
    · obtain ⟨items, _, rfl⟩ := Option.map_eq_some_iff.mp made
      rfl
    · cases made

/-- A directory goes on after an entry that was refused as if it had not been tried. -/
theorem runEntries_refused {dir : Writer.Directory} {text : Bytes} {fault : WriteFault}
    (refused : dir.refusal? text = some fault) (script : Script) (rest : List (Bytes × Script)) :
    runEntries dir ((text, script) :: rest) =
      (fun (notes, dir) => (⟨.entry text, some fault⟩ :: notes, dir)) <$> runEntries dir rest := by
  funext written
  have tried := Writer.attempt_refused (Writer.entry_refused refused written)
  rw [runEntries, bind_done tried]
  rfl

/-- Some calls are all made. If none of them fails, apart from entries that are refused, their notes
are the expected ones, a condition holds, and they write the expected bytes. -/
def Performs (calls : WriterM (List Note)) (expected : List Note) (condition : Prop)
    (output : Bytes) : Prop :=
  ∀ before, ∃ told after, calls before = .ok told after ∧
    (Completed told → told = expected ∧ condition ∧ after.bytes = before.bytes ++ output)

theorem noted_eq (call : Call) (work : WriterM Unit) (before : Written) :
    noted call work before =
      match work before with
      | .ok () after => .ok [⟨call, none⟩] after
      | .error fault after => .ok [⟨call, some fault⟩] after := by
  change EStateM.bind _ _ before = _
  simp only [EStateM.bind, Writer.attempt]
  cases work before <;> rfl

theorem noted_performs {call : Call} {work : WriterM Unit} {condition : Prop} {output : Bytes}
    (node : call.isEntry = false)
    (outcome : condition ∧ Writes work () output ∨ ∃ fault, Refuses work fault) :
    Performs (noted call work) [⟨call, none⟩] condition output := by
  intro before
  rw [noted_eq]
  rcases outcome with ⟨holds, writes⟩ | ⟨fault, refuses⟩
  · obtain ⟨after, ran, written⟩ := writes before
    rw [ran]
    exact ⟨_, after, rfl, fun _ => ⟨rfl, holds, written⟩⟩
  · obtain ⟨after, ran⟩ := refuses before
    rw [ran]
    refine ⟨_, after, rfl, fun completed => ?_⟩
    cases completed _ List.mem_cons_self node

theorem member_outcome (item : Member) :
    Unambiguous item ∧ Writes (Writer.member item) () (layout item) ∨
      ∃ fault, Refuses (Writer.member item) fault := by
  by_cases unambiguous : Unambiguous item
  · exact .inl ⟨unambiguous, Writer.member_writes item unambiguous⟩
  · obtain ⟨name, refuses⟩ := Writer.member_refuses item unambiguous
    exact .inr ⟨_, refuses⟩

theorem members_outcome (list : List Member) :
    DistinctNames list ∧
        Writes (Writer.members list) () (Archive.directory ++ (layoutEntries list ++ closing)) ∨
      ∃ fault, Refuses (Writer.members list) fault := by
  by_cases distinct : DistinctNames list
  · exact .inl ⟨distinct, Writer.members_writes distinct⟩
  · obtain ⟨name, refuses⟩ := Writer.members_refuses distinct
    exact .inr ⟨_, refuses⟩

theorem file_outcome (size : Nat) (pieces : List Bytes) :
    True ∧ Writes (Writer.file size pieces) ()
        (regular ++ (string (Writer.delivered pieces) ++ closing)) ∨
      ∃ fault, Refuses (Writer.file size pieces) fault := by
  by_cases exact : (Writer.delivered pieces).length = size
  · exact .inl ⟨trivial, Writer.file_writes exact⟩
  · exact .inr (Writer.file_refuses exact)

/-- What the calls for the entries of a directory come to. The end of the last entry is still to be
written. -/
def PerformsEach (dir : Writer.Directory) (entries : List (Bytes × Script)) (items : List Member) :
    Prop :=
  ∀ before, ∃ told dir' after, runEntries dir entries before = .ok (told, dir') after ∧
    (Completed told → told = notesEach dir.names entries ∧ dir.Admits items ∧
      after.bytes ++ dir'.terminator = before.bytes ++ (dir.terminator ++ layoutEntries items))

theorem directory_performs {entries : List (Bytes × Script)} {items : List Member}
    (inside : PerformsEach ⟨[]⟩ entries items) :
    Performs (run (.directory entries true)) (notes (.directory entries true)) (DistinctNames items)
      (Archive.directory ++ (layoutEntries items ++ closing)) := by
  intro before
  obtain ⟨between, opened, begun⟩ := Writer.beginDirectory_writes before
  obtain ⟨told, dir, middle, ran, each⟩ := inside between
  obtain ⟨after, closed, ended⟩ := Writer.close_writes dir middle
  refine ⟨told ++ [⟨.close, none⟩], after, ?_, fun completed => ?_⟩
  · have noticed : noted .close dir.close middle = .ok [⟨.close, none⟩] after := by
      rw [noted_eq, closed]
    rw [run, bind_done opened, bind_done ran]
    show (noted .close dir.close >>= _) middle = _
    rw [bind_done noticed]
    rfl
  · obtain ⟨rfl, admitted, written⟩ := each (completed_append.mp completed).1
    refine ⟨rfl, admitted.2, ?_⟩
    rw [ended, ← List.append_assoc, written, begun]
    simp [Writer.Directory.terminator]

mutual

/-- By induction on the script. -/
theorem run_performs (name : Name) (script : Script) {item : Member}
    (made : made? name script = some item) :
    Performs (run script) (notes script) (Unambiguous item) (layout item) := by
  match script with
  | .nothing => cases made
  | .bytes content =>
    cases made
    exact noted_performs rfl (.inl ⟨trivial, Writer.bytes_writes content⟩)
  | .file size pieces =>
    cases made
    exact noted_performs rfl (file_outcome size pieces)
  | .members list =>
    cases made
    exact noted_performs rfl (members_outcome list)
  | .member (.file other content) =>
    cases made
    exact noted_performs rfl (member_outcome (.file other content))
  | .member (.directory other children) =>
    cases made
    exact noted_performs rfl (member_outcome (.directory other children))
  | .directory entries false => cases made
  | .directory entries true =>
    obtain ⟨items, inside, rfl⟩ := Option.map_eq_some_iff.mp made
    exact directory_performs (runEntries_performs ⟨[]⟩ entries inside)

theorem runEntries_performs (dir : Writer.Directory) (entries : List (Bytes × Script))
    {items : List Member} (made : madeEach? dir.names entries = some items) :
    PerformsEach dir entries items := by
  match entries with
  | [] =>
    intro before
    cases made
    refine ⟨[], dir, before, rfl, fun _ => ⟨rfl, ⟨by simp, List.nodup_nil, trivial⟩, ?_⟩⟩
    simp [layoutEntries]
  | (text, script) :: rest =>
    cases refused : dir.refusal? text with
    | some fault =>
      rw [madeEach?_refused refused] at made
      intro before
      obtain ⟨told, dir', after, ran, each⟩ := runEntries_performs dir rest made before
      refine ⟨⟨.entry text, some fault⟩ :: told, dir', after, ?_, fun completed => ?_⟩
      · rw [runEntries_refused refused]
        change EStateM.map _ _ before = _
        simp only [EStateM.map, ran]
      · obtain ⟨rfl, admitted, written⟩ := each (completed_entry.mp completed)
        exact ⟨by simp only [notesEach, refused], admitted, written⟩
    | none =>
      obtain ⟨name, item, others, rfl, fresh, here, later, rfl⟩ := madeEach?_accepted refused made
      intro before
      obtain ⟨started, tried, opened⟩ :=
        Writer.attempt_writes (Writer.entry_writes dir name fresh) before
      obtain ⟨inner, middle, ranInner, inside⟩ := run_performs name script here started
      obtain ⟨told, dir', after, ran, each⟩ :=
        runEntries_performs ⟨name.bytes :: dir.names⟩ rest later middle
      refine ⟨⟨.entry name.bytes, none⟩ :: (inner ++ told), dir', after, ?_, fun completed => ?_⟩
      · rw [runEntries, bind_done tried]
        show (run script >>= _) started = _
        rw [bind_done ranInner, bind_done ran]
        rfl
      · obtain ⟨first, second⟩ := completed_append.mp (completed_entry.mp completed)
        obtain ⟨rfl, unambiguous, innerWritten⟩ := inside first
        obtain ⟨rfl, admitted, written⟩ := each second
        refine ⟨by simp only [notesEach, refused], ?_, ?_⟩
        · rw [Writer.admits_cons, name_of_made? here]
          exact ⟨fresh, unambiguous, admitted⟩
        · rw [written, innerWritten, opened, layoutEntries, name_of_made? here]
          simp [Writer.Directory.terminator, List.append_assoc]

end

/-- What is recorded of a directory that is written as a whole archive. -/
theorem record_performs {entries : List (Bytes × Script)} {items : List Member}
    (made : madeEach? [] entries = some items)
    (completed : Completed (record (.directory entries true)).1) :
    record (.directory entries true) = (notes (.directory entries true), layoutArchive items) ∧
      DistinctNames items := by
  have performs := directory_performs (runEntries_performs ⟨[]⟩ entries made)
  obtain ⟨opened, started, begun⟩ := Writes.piece opening []
  obtain ⟨told, after, ran, each⟩ := performs opened
  have whole : (do Writer.openArchive; run (.directory entries true) : WriterM (List Note)) [] =
      .ok told after := by
    rw [Writer.openArchive, bind_done started]
    exact ran
  have recorded : record (.directory entries true) = (told, after.bytes) := by
    simp only [record, WriterM.record, whole]
  rw [recorded] at completed
  obtain ⟨rfl, distinct, written⟩ := each completed
  rw [recorded, written, begun]
  exact ⟨rfl, distinct⟩

open Compression (Codec)

/-- A call for an entry of an invalid name, or of one that is there, fails, writes nothing, and
leaves the directory as it is for the calls after it. Whatever entries are tried in a directory and
in those inside it, if all other calls succeed and each directory is closed, then just these entries
are refused, and the archive is the one of the members that the other entries were made, in order.
It reads back as these members, unless a directory lies more than 256 levels below the root. -/
theorem record_completed (codec : Codec) {entries : List (Bytes × Script)} {items : List Member}
    (made : madeEach? [] entries = some items)
    (completed : Completed (record (.directory entries true)).1) :
    (∀ (dir : Writer.Directory) (text : Bytes), Name.fault? text ≠ none ∨ text ∈ dir.names →
      ∃ fault, fault.kind = .invalidInput ∧
        (∀ written, dir.entry text written = .error fault written) ∧
        ∀ script rest, runEntries dir ((text, script) :: rest) =
          (fun (notes, dir) => (⟨.entry text, some fault⟩ :: notes, dir)) <$> runEntries dir rest) ∧
    (record (.directory entries true)).1 = notes (.directory entries true) ∧
    encodeWith codec .none items = .ok (record (.directory entries true)).2 ∧
    (EachMeasurable items →
      (levels items ≤ 256 → decodeWith codec (record (.directory entries true)).2 = .ok items) ∧
      (256 < levels items → ∃ fault,
        decodeWith codec (record (.directory entries true)).2 = .error fault ∧
          fault.kind = .invalidData)) := by
  obtain ⟨recorded, distinct⟩ := record_performs made completed
  rw [recorded]
  refine ⟨fun dir text faulty => ?_, rfl, encodeWith_of_distinct codec .none distinct,
    fun measurable => ?_⟩
  · cases refused : dir.refusal? text with
    | none =>
      obtain ⟨valid, fresh⟩ := Writer.refusal?_eq_none.mp refused
      rcases faulty with invalid | taken
      · exact absurd valid invalid
      · exact absurd taken fresh
    | some fault =>
      exact ⟨fault, Writer.kind_of_refusal? refused, Writer.entry_refused refused,
        runEntries_refused refused⟩
  · rw [decodeWith_of_plain codec (isCompressed_layoutArchive items)]
    constructor
    · exact fun shallow => decodePlain_eq_ok.mpr ⟨⟨shallow, distinct, measurable⟩, rfl⟩
    · exact fun deep => ⟨_, decodePlain_too_deep distinct measurable deep, rfl⟩

/-- Entries that are refused come first, last and twice, and in a directory inside. -/
def rejecting : List (Bytes × Script) :=
  [([], .nothing), ([0x61], .file 3 [[1, 2], [3]]), ([0x61], .bytes [4]),
    ([0x62], .directory [([0x63], .bytes []), ([0x63], .nothing), ([0x2E], .nothing)] true),
    ([0x64], .members nested), ([0x61, 0x2F], .nothing), ([0x62], .nothing)]

theorem record_completed_rejecting :
    ∃ items, madeEach? [] rejecting = some items ∧
      Completed (record (.directory rejecting true)).1 ∧
      encodeWith .stored .none items = .ok (record (.directory rejecting true)).2 := by
  have completed : Completed (record (.directory rejecting true)).1 := by decide +kernel
  obtain ⟨items, made⟩ : ∃ items, madeEach? [] rejecting = some items := ⟨_, rfl⟩
  obtain ⟨_, _, encoded, _⟩ := record_completed .stored made completed
  exact ⟨items, made, completed, encoded⟩

end Script

end Depot.Archive
