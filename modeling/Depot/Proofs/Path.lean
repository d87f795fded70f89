import Depot.Path
import Depot.Proofs.Outcome
import Depot.Proofs.Text.Lines
import Depot.Proofs.Text.Utf8

set_option autoImplicit false

namespace Depot

/-- What a name may not be, apart from its length. -/
theorem Name.facts (name : Name) :
    name.bytes ≠ [] ∧ name.bytes ≠ [Name.dot] ∧ name.bytes ≠ [Name.dot, Name.dot] ∧
      Name.slash ∉ name.bytes := by
  obtain ⟨filled, dot, dots, _, whole, _⟩ := (Name.fault?_eq_none_iff name.bytes).mp name.valid
  exact ⟨filled, dot, dots, whole⟩

namespace Path

/-- The parts are those between the slashes. -/
theorem parts_eq_splitOn (bytes : Bytes) : parts bytes = bytes.splitOn Name.slash := by
  induction bytes with
  | nil => rfl
  | cons byte rest ih =>
    obtain ⟨part, others, split⟩ := List.exists_cons_of_ne_nil (List.splitOn_ne_nil Name.slash rest)
    rw [List.splitOn_cons_eq_if_modifyHead, parts, ih, split]
    by_cases same : byte = Name.slash <;> simp [same]

theorem exists_parts (bytes : Bytes) : ∃ part others, parts bytes = part :: others :=
  List.exists_cons_of_ne_nil (parts_eq_splitOn bytes ▸ List.splitOn_ne_nil _ _)

/-- Bytes without a slash belong to the part that comes after them. -/
theorem parts_append {front : Bytes} (whole : Name.slash ∉ front) {rest part : Bytes}
    {others : List Bytes} (after : parts rest = part :: others) :
    parts (front ++ rest) = (front ++ part) :: others := by
  induction front with
  | nil => exact after
  | cons byte front ih =>
    have unequal : byte ≠ Name.slash := fun same => whole (same ▸ List.mem_cons_self)
    have inner := ih fun present => whole (List.mem_cons_of_mem _ present)
    simp only [List.cons_append, parts, unequal, if_false, inner]

/-- Bytes without a slash are one part. -/
theorem parts_whole {bytes : Bytes} (whole : Name.slash ∉ bytes) : parts bytes = [bytes] := by
  have only := @parts_append bytes whole [] [] [] rfl
  rwa [List.append_nil] at only

/-- The parts before a slash and those after it. -/
theorem parts_slash (left right : Bytes) :
    parts (left ++ Name.slash :: right) = parts left ++ parts right := by
  simp only [parts_eq_splitOn, List.splitOn_append_cons_self]

theorem slash_of_parts (bytes : Bytes) : ∀ part ∈ parts bytes, Name.slash ∉ part := by
  rw [parts_eq_splitOn]
  exact Text.separator_of_splitOn Name.slash bytes

/-- Slashes join the parts to what they are parts of. -/
theorem intercalate_parts (bytes : Bytes) : [Name.slash].intercalate (parts bytes) = bytes := by
  rw [parts_eq_splitOn, List.intercalate_splitOn]

/-- The parts are the only byte strings without slashes that slashes join to the whole. -/
theorem parts_eq_iff {bytes : Bytes} {all : List Bytes} :
    parts bytes = all ↔
      all ≠ [] ∧ (∀ part ∈ all, Name.slash ∉ part) ∧ [Name.slash].intercalate all = bytes := by
  constructor
  · rintro rfl
    obtain ⟨part, others, split⟩ := exists_parts bytes
    exact ⟨by simp [split], slash_of_parts bytes, intercalate_parts bytes⟩
  · rintro ⟨filled, whole, rfl⟩
    rw [parts_eq_splitOn, List.splitOn_intercalate _ whole filled]

end Path

namespace Name

/-- A name is a text if it is the UTF-8 of what it displays as. -/
def Textual (name : Name) : Prop :=
  Bytes.ofString name.display = name.bytes

instance (name : Name) : Decidable name.Textual :=
  inferInstanceAs (Decidable (_ = _))

theorem textual_of_bytes {name : Name} {text : String} (same : name.bytes = Bytes.ofString text) :
    name.Textual := by
  rw [Textual, display, same, Text.Utf8.lossy_ofString]

theorem textual_of_ofString {text : String} {name : Name} (read : ofString text = .ok name) :
    name.Textual :=
  textual_of_bytes (bytes_of_ofBytes read)

/-- A name that is a text is read back from what it displays as. -/
theorem Textual.ofString_display {name : Name} (textual : name.Textual) :
    ofString name.display = .ok name := by
  rw [ofString, textual, ofBytes_bytes]

/-- Texts that are displayed alike are the same. -/
theorem Textual.eq_of_display {left right : Name} (textual : left.Textual)
    (textual' : right.Textual) (same : left.display = right.display) : left = right := by
  apply Name.ext
  rw [← textual, ← textual', same]

end Name

namespace Path

open Text (Part)

/-- The encoding of a character is a slash or has none in it. -/
theorem slash_encoded (character : Char) :
    String.utf8EncodeChar character = [Name.slash] ∨
      Name.slash ∉ String.utf8EncodeChar character := by
  have slash : Name.slash.toNat = 47 := rfl
  simp only [String.utf8EncodeChar]
  split_ifs with one two three
  · by_cases same : Name.slash = UInt8.ofNat character.val.toNat
    · exact .inl (by rw [← same])
    · exact .inr (by simpa using same)
  all_goals
    right
    simp only [List.mem_cons, List.not_mem_nil, or_false, ← UInt8.toNat_inj,
      UInt8.toNat_ofNat', slash]
    omega

/-- The parts of a text are texts. -/
theorem parts_encoded (characters : List Char) :
    ∀ part ∈ parts (characters.flatMap String.utf8EncodeChar),
      ∃ inner : List Char, part = inner.flatMap String.utf8EncodeChar := by
  induction characters with
  | nil =>
    intro part present
    exact ⟨[], List.mem_singleton.mp present⟩
  | cons character rest ih =>
    obtain ⟨part, others, split⟩ := exists_parts (rest.flatMap String.utf8EncodeChar)
    rw [List.flatMap_cons]
    rcases slash_encoded character with slash | whole
    · rw [slash, List.singleton_append, parts, if_pos rfl]
      intro part present
      rcases List.mem_cons.mp present with rfl | later
      · exact ⟨[], rfl⟩
      · exact ih part later
    · rw [parts_append whole split]
      rw [split] at ih
      intro other present
      rcases List.mem_cons.mp present with rfl | later
      · obtain ⟨inner, rfl⟩ := ih part List.mem_cons_self
        exact ⟨character :: inner, (List.flatMap_cons ..).symm⟩
      · exact ih other (List.mem_cons_of_mem _ later)

/-- All names in the path of a text are texts. -/
theorem textual_of_ofString {text : String} {path : Path} (read : ofString text = .ok path) :
    ∀ name ∈ path.names, name.Textual := by
  unfold ofString ofBytes at read
  split at read
  · cases read
    exact fun name present => nomatch present
  · obtain ⟨names, each, result⟩ := bind_ok_iff.mp read
    cases result
    intro name present
    obtain ⟨part, held, valid⟩ := exists_of_mem_right (mapM_ok_iff.mp each) present
    obtain ⟨inner, rfl⟩ := parts_encoded text.toList part held
    apply @Name.textual_of_bytes name (String.ofList inner)
    rw [Name.bytes_of_ofBytes valid, Bytes.ofString, String.toList_ofList]

end Path

end Depot
