import Depot.Archive.Compression
import Depot.Proofs.Archive.Reading
import Depot.Proofs.Archive.Writing
import Depot.Proofs.Zstd.Stored

set_option autoImplicit false

namespace Depot.Archive

open Compression (Codec)
open Member (DistinctNames EachMeasurable EachReadable levels)

theorem decodePlain_eq_ok {input : Bytes} {members : List Member} :
    decodePlain input = .ok members ↔
      EachReadable Reader.maxDepth members ∧ input = layoutArchive members := by
  have read := @Reader.archiveWithin_eq_ok (input.length + 1) input [] members (Nat.lt_succ_self _)
  have unfolded : Reader.archive input = Reader.archiveWithin (input.length + 1) input := rfl
  rw [eq_self, true_and] at read
  rw [← read, decodePlain, ReaderM.consume, unfolded]
  cases outcome : Reader.archiveWithin (input.length + 1) input with
  | error fault left => simp
  | ok result left =>
    have ended := ((Reader.archiveWithin_eq_ok (Nat.lt_succ_self _)).mp outcome).1
    simp [ended]

theorem decodePlain_too_deep {members : List Member} (distinct : DistinctNames members)
    (measurable : EachMeasurable members) (deep : Reader.maxDepth < levels members) :
    decodePlain (layoutArchive members) = .error .tooDeep := by
  obtain ⟨left, refused⟩ :=
    Reader.archiveWithin_too_deep (Nat.lt_succ_self _) distinct measurable deep
  have unfolded : Reader.archive (layoutArchive members) =
      Reader.archiveWithin ((layoutArchive members).length + 1) (layoutArchive members) := rfl
  rw [decodePlain, ReaderM.consume, unfolded, refused]

/-- An archive does not start as a compressed frame does. -/
theorem isCompressed_layoutArchive (members : List Member) :
    isCompressed (layoutArchive members) = false :=
  rfl

theorem decodeWith_of_plain (codec : Codec) {input : Bytes} (plain : isCompressed input = false) :
    decodeWith codec input = decodePlain input := by
  simp only [decodeWith, plain, Bool.false_eq_true, ↓reduceIte]

theorem encodeWith_of_distinct (codec : Codec) (compression : Compression) {members : List Member}
    (distinct : DistinctNames members) :
    encodeWith codec compression members =
      .ok (compression.apply codec (layoutArchive members)) := by
  rw [encodeWith, encodePlain_of_distinct distinct]
  rfl

theorem encodeWith_of_repeated (codec : Codec) (compression : Compression) {members : List Member}
    (repeated : ¬ DistinctNames members) :
    ∃ name, encodeWith codec compression members = .error (.duplicateName name) := by
  obtain ⟨name, refused⟩ := encodePlain_of_repeated repeated
  exact ⟨name, by rw [encodeWith, refused]; rfl⟩

theorem encodeWith_eq_ok {codec : Codec} {compression : Compression} {members : List Member}
    {bytes : Bytes} :
    encodeWith codec compression members = .ok bytes ↔
      DistinctNames members ∧ bytes = compression.apply codec (layoutArchive members) := by
  by_cases distinct : DistinctNames members
  · rw [encodeWith_of_distinct codec compression distinct]
    simp only [Except.ok.injEq, distinct, true_and, eq_comm]
  · obtain ⟨name, refused⟩ := encodeWith_of_repeated codec compression distinct
    simp only [refused, distinct, false_and, reduceCtorEq]

/-- Reading undoes compression, so that only the layout of the archive matters. -/
theorem decodeWith_apply {codec : Codec}
    (undoes : ∀ level content, codec.decompress (codec.compress level content) = .ok content)
    (marked : ∀ level content, isCompressed (codec.compress level content) = true)
    (compression : Compression) (members : List Member) :
    decodeWith codec (compression.apply codec (layoutArchive members)) =
      decodePlain (layoutArchive members) := by
  cases compression with
  | none => exact decodeWith_of_plain codec (isCompressed_layoutArchive members)
  | zstd level => simp only [Compression.apply, decodeWith, marked, undoes, ↓reduceIte]

/-- The layout of an archive tells its members, however deep their directories lie. -/
theorem layoutArchive_inj {left right : List Member} (leftDistinct : DistinctNames left)
    (rightDistinct : DistinctNames right) (leftMeasurable : EachMeasurable left)
    (rightMeasurable : EachMeasurable right) (same : layoutArchive left = layoutArchive right) :
    left = right := by
  have bodies : layoutEntries left ++ (closing ++ []) = layoutEntries right ++ (closing ++ []) := by
    simpa [layoutArchive] using same
  -- A reader with room for all levels of both takes either of them.
  let depth := levels left + levels right + 1
  let bound := (layoutEntries left ++ (closing ++ [])).length + 1
  have readsLeft := (Reader.directory_reads bound depth (Nat.lt_succ_self _)).mpr
    ⟨⟨by omega, leftDistinct, leftMeasurable⟩, rfl⟩
  have readsRight := (Reader.directory_reads bound depth (Nat.lt_succ_self _)).mpr
    ⟨⟨by omega, rightDistinct, rightMeasurable⟩, bodies⟩
  have read := readsLeft.symm.trans readsRight
  cases read
  rfl

/-- The bytes of an archive tell its members if reading undoes compression. -/
theorem encodeWith_inj {codec : Codec} {compression : Compression}
    (undoes : ∀ level, compression = .zstd level →
      ∀ content, codec.decompress (codec.compress level content) = .ok content)
    {left right : List Member} {bytes : Bytes}
    (leftWritten : encodeWith codec compression left = .ok bytes)
    (rightWritten : encodeWith codec compression right = .ok bytes)
    (leftMeasurable : EachMeasurable left) (rightMeasurable : EachMeasurable right) :
    left = right := by
  obtain ⟨leftDistinct, rfl⟩ := encodeWith_eq_ok.mp leftWritten
  obtain ⟨rightDistinct, same⟩ := encodeWith_eq_ok.mp rightWritten
  refine layoutArchive_inj leftDistinct rightDistinct leftMeasurable rightMeasurable ?_
  cases compression with
  | none => exact same
  | zstd level =>
    have undone := congrArg codec.decompress same
    simp only [Compression.apply, undoes level rfl] at undone
    exact Except.ok.inj undone

/-- A directory that holds a file and an empty directory. -/
def nested : List Member :=
  [.directory ⟨[0x61], rfl⟩ [.file ⟨[0x62], rfl⟩ [1, 2, 3], .directory ⟨[0x63], rfl⟩ []]]

/-- A tree can be written if and only if no directory has two members of one name, and reads back as
it was, unless a directory lies more than 256 levels below the root. The lengths of files are
assumed to be numbers of eight bytes. -/
theorem decodeWith_encodeWith (codec : Codec)
    (undoes : ∀ level content, codec.decompress (codec.compress level content) = .ok content)
    (marked : ∀ level content, isCompressed (codec.compress level content) = true)
    (compression : Compression) (members : List Member) :
    ((∃ bytes, encodeWith codec compression members = .ok bytes) ↔ DistinctNames members) ∧
      (¬ DistinctNames members →
        ∃ fault, encodeWith codec compression members = .error fault ∧ fault.kind = .invalidInput) ∧
      ∀ bytes, encodeWith codec compression members = .ok bytes → EachMeasurable members →
        (levels members ≤ 256 → decodeWith codec bytes = .ok members) ∧
          (256 < levels members →
            ∃ fault, decodeWith codec bytes = .error fault ∧ fault.kind = .invalidData) := by
  refine ⟨?_, ?_, ?_⟩
  · simp only [encodeWith_eq_ok, exists_and_left, exists_eq, and_true]
  · intro repeated
    obtain ⟨name, refused⟩ := encodeWith_of_repeated codec compression repeated
    exact ⟨_, refused, rfl⟩
  · intro bytes written measurable
    obtain ⟨distinct, rfl⟩ := encodeWith_eq_ok.mp written
    rw [decodeWith_apply undoes marked]
    constructor
    · exact fun shallow => decodePlain_eq_ok.mpr ⟨⟨shallow, distinct, measurable⟩, rfl⟩
    · exact fun deep => ⟨_, decodePlain_too_deep distinct measurable deep, rfl⟩

/-- Frames of stored blocks are a compression that reading undoes. -/
theorem decodeWith_encodeWith_nested :
    (∀ level content, Codec.stored.decompress (Codec.stored.compress level content) = .ok content) ∧
      (∀ level content, isCompressed (Codec.stored.compress level content) = true) ∧
      ∃ bytes, encodeWith .stored (.zstd 3) nested = .ok bytes ∧
        decodeWith .stored bytes = .ok nested := by
  have undoes (level : Int) (content : Bytes) :
      Codec.stored.decompress (Codec.stored.compress level content) = .ok content :=
    Zstd.decompress_compress content
  have marked (level : Int) (content : Bytes) :
      isCompressed (Codec.stored.compress level content) = true :=
    Zstd.magic_isPrefixOf_compress content
  obtain ⟨writable, _, reads⟩ := decodeWith_encodeWith .stored undoes marked (.zstd 3) nested
  obtain ⟨bytes, written⟩ := writable.mpr (by decide)
  have measurable : EachMeasurable nested := by
    simp [nested, EachMeasurable, Member.Measurable, Bytes.limit]
  exact ⟨undoes, marked, bytes, written, (reads bytes written measurable).1 (by decide)⟩

/-- A byte string that is not compressed is read as an archive only if it is what the writer makes
of the members that are returned, and the reader accepts all of that up to its depth limit. However
many entries the reader is prepared for beyond the number of bytes, the outcome is the same. -/
theorem decodeWith_canonical (codec : Codec) (input : Bytes) (plain : isCompressed input = false) :
    (∀ bound, input.length < bound → Reader.archiveWithin bound input = Reader.archive input) ∧
      (∀ members, decodeWith codec input = .ok members →
        DistinctNames members ∧ levels members ≤ 256 ∧
          encodeWith codec .none members = .ok input) ∧
      (∀ other members, isCompressed other = false → decodeWith codec other = .ok members →
        decodeWith codec input = .ok members → other = input) ∧
      ((∃ members, decodeWith codec input = .ok members) ↔
        ∃ members, levels members ≤ 256 ∧ EachMeasurable members ∧
          encodeWith codec .none members = .ok input) := by
  rw [decodeWith_of_plain codec plain]
  refine ⟨?_, ?_, ?_, ?_⟩
  · exact fun bound short => Reader.archiveWithin_congr short (Nat.lt_succ_self _)
  · intro members read
    obtain ⟨⟨shallow, distinct, _⟩, taken⟩ := decodePlain_eq_ok.mp read
    exact ⟨distinct, shallow, encodeWith_eq_ok.mpr ⟨distinct, taken⟩⟩
  · intro other members plainOther readOther read
    rw [decodeWith_of_plain codec plainOther] at readOther
    rw [(decodePlain_eq_ok.mp readOther).2, (decodePlain_eq_ok.mp read).2]
  · simp only [decodePlain_eq_ok, encodeWith_eq_ok]
    constructor
    · rintro ⟨members, ⟨shallow, distinct, measurable⟩, taken⟩
      exact ⟨members, shallow, measurable, distinct, taken⟩
    · rintro ⟨members, shallow, measurable, distinct, taken⟩
      exact ⟨members, ⟨shallow, distinct, measurable⟩, taken⟩

theorem decodeWith_canonical_nested :
    isCompressed (layoutArchive nested) = false ∧
      ∃ members, decodeWith .stored (layoutArchive nested) = .ok members ∧
        encodeWith .stored .none members = .ok (layoutArchive nested) := by
  have plain : isCompressed (layoutArchive nested) = false := rfl
  obtain ⟨_, canonical, _, accepted⟩ := decodeWith_canonical .stored (layoutArchive nested) plain
  have measurable : EachMeasurable nested := by
    simp [nested, EachMeasurable, Member.Measurable, Bytes.limit]
  have written : encodeWith .stored .none nested = .ok (layoutArchive nested) :=
    encodeWith_of_distinct .stored .none (by decide)
  obtain ⟨members, read⟩ := accepted.mpr ⟨nested, by decide, measurable, written⟩
  exact ⟨plain, members, read, (canonical members read).2.2⟩

end Depot.Archive
