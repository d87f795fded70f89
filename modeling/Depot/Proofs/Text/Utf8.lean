import Depot.Text.Utf8
import Mathlib.Data.Char

set_option autoImplicit false

namespace Depot.Text.Utf8

theorem toNat_ofNat {value : Nat} (small : value < 256) : (UInt8.ofNat value).toNat = value := by
  rw [UInt8.toNat_ofNat']
  omega

theorem isContinuation_iff (byte : UInt8) :
    isContinuation byte = true ↔ 128 ≤ byte.toNat ∧ byte.toNat ≤ 191 := by
  simp [isContinuation, UInt8.le_iff_toNat_le]

theorem width_of_two {first : UInt8} (low : 194 ≤ first.toNat) (high : first.toNat < 224) :
    width first = 2 := by
  simp only [width, UInt8.lt_iff_toNat_lt, UInt8.reduceToNat]
  split_ifs <;> omega

theorem width_of_three {first : UInt8} (low : 224 ≤ first.toNat) (high : first.toNat < 240) :
    width first = 3 := by
  simp only [width, UInt8.lt_iff_toNat_lt, UInt8.reduceToNat]
  split_ifs <;> omega

theorem width_of_four {first : UInt8} (low : 240 ≤ first.toNat) (high : first.toNat < 245) :
    width first = 4 := by
  simp only [width, UInt8.lt_iff_toNat_lt, UInt8.reduceToNat]
  split_ifs <;> omega

/-- A continuation byte may follow unless the first byte narrows down what may. -/
theorem mayFollow_of {first second : UInt8} (low : 128 ≤ second.toNat) (high : second.toNat ≤ 191)
    (overlong : first.toNat = 224 → 160 ≤ second.toNat)
    (surrogate : first.toNat = 237 → second.toNat ≤ 159)
    (small : first.toNat = 240 → 144 ≤ second.toNat)
    (large : first.toNat = 244 → second.toNat ≤ 143) :
    mayFollow first second = true := by
  simp only [mayFollow, ← UInt8.toNat_inj, UInt8.reduceToNat]
  split_ifs <;> simp [isContinuation, UInt8.le_iff_toNat_le] <;> omega

theorem split_two {first second : UInt8} {rest : Bytes} (low : 194 ≤ first.toNat)
    (high : first.toNat < 224) (continued : isContinuation second = true) :
    split first (second :: rest) =
      (.character (Char.ofNat ((first.toNat - 192) * 64 + payload second)), rest) := by
  simp only [split, width_of_two low high, continued, if_true]

theorem split_three {first second third : UInt8} {rest : Bytes} (low : 224 ≤ first.toNat)
    (high : first.toNat < 240) (follows : mayFollow first second = true)
    (continued : isContinuation third = true) :
    split first (second :: third :: rest) =
      (.character (Char.ofNat (((first.toNat - 224) * 64 + payload second) * 64 + payload third)),
        rest) := by
  simp only [split, width_of_three low high, follows, continued, if_true]

theorem split_four {first second third fourth : UInt8} {rest : Bytes} (low : 240 ≤ first.toNat)
    (high : first.toNat < 245) (follows : mayFollow first second = true)
    (continued : isContinuation third = true) (ended : isContinuation fourth = true) :
    split first (second :: third :: fourth :: rest) =
      (.character (Char.ofNat
        ((((first.toNat - 240) * 64 + payload second) * 64 + payload third) * 64 +
        payload fourth)), rest) := by
  simp only [split, width_of_four low high, follows, continued, ended, if_true]

theorem split_one {first : UInt8} (low : first.toNat < 128) (rest : Bytes) :
    split first rest = (.character (Char.ofNat first.toNat), rest) := by
  have one : width first = 1 := by
    simp only [width, UInt8.lt_iff_toNat_lt, UInt8.reduceToNat, low, if_true]
  simp only [split, one]

/-- The encoding of a character is read as this character, whatever comes after it. -/
theorem split_encoded (character : Char) (rest : Bytes) :
    ∃ first others, String.utf8EncodeChar character = first :: others ∧
      split first (others ++ rest) = (.character character, rest) := by
  have again : Char.ofNat character.val.toNat = character := Char.ofNat_toNat character
  have valid : character.val.toNat < 55296 ∨
      57343 < character.val.toNat ∧ character.val.toNat < 1114112 :=
    character.valid
  simp only [String.utf8EncodeChar]
  generalize character.val.toNat = value at again valid
  have payload_eq (digit : Nat) (small : digit < 64) :
      payload (UInt8.ofNat (digit + 128)) = digit := by
    rw [payload, toNat_ofNat (by omega)]
    omega
  have continued (digit : Nat) (small : digit < 64) :
      isContinuation (UInt8.ofNat (digit + 128)) = true := by
    rw [isContinuation_iff, toNat_ofNat (by omega)]
    omega
  by_cases one : value ≤ 127
  · have first : (UInt8.ofNat value).toNat = value := toNat_ofNat (by omega)
    rw [if_pos one]
    refine ⟨_, _, rfl, ?_⟩
    rw [List.nil_append, split_one (by omega), first, again]
  by_cases two : value ≤ 2047
  · have first : (UInt8.ofNat (value / 64 % 32 + 192)).toNat = value / 64 + 192 := by
      rw [toNat_ofNat (by omega)]
      omega
    rw [if_neg one, if_pos two]
    refine ⟨_, _, rfl, ?_⟩
    rw [List.singleton_append, split_two (by omega) (by omega) (continued _ (by omega)), first,
      payload_eq _ (by omega)]
    have sum : (value / 64 + 192 - 192) * 64 + value % 64 = value := by omega
    rw [sum, again]
  by_cases three : value ≤ 65535
  · have first : (UInt8.ofNat (value / 4096 % 16 + 224)).toNat = value / 4096 + 224 := by
      rw [toNat_ofNat (by omega)]
      omega
    have second : (UInt8.ofNat (value / 64 % 64 + 128)).toNat = value / 64 % 64 + 128 :=
      toNat_ofNat (by omega)
    have follows : mayFollow (UInt8.ofNat (value / 4096 % 16 + 224))
        (UInt8.ofNat (value / 64 % 64 + 128)) = true := by
      apply mayFollow_of <;> omega
    rw [if_neg one, if_neg two, if_pos three]
    refine ⟨_, _, rfl, ?_⟩
    rw [List.cons_append, List.singleton_append, split_three (by omega) (by omega) follows
      (continued _ (by omega)), first, payload_eq _ (by omega), payload_eq _ (by omega)]
    have sum : ((value / 4096 + 224 - 224) * 64 + value / 64 % 64) * 64 + value % 64 = value := by
      omega
    rw [sum, again]
  · have first : (UInt8.ofNat (value / 262144 % 8 + 240)).toNat = value / 262144 + 240 := by
      rw [toNat_ofNat (by omega)]
      omega
    have second : (UInt8.ofNat (value / 4096 % 64 + 128)).toNat = value / 4096 % 64 + 128 :=
      toNat_ofNat (by omega)
    have follows : mayFollow (UInt8.ofNat (value / 262144 % 8 + 240))
        (UInt8.ofNat (value / 4096 % 64 + 128)) = true := by
      apply mayFollow_of <;> omega
    rw [if_neg one, if_neg two, if_neg three]
    refine ⟨_, _, rfl, ?_⟩
    rw [List.cons_append, List.cons_append, List.singleton_append, split_four (by omega) (by omega)
      follows (continued _ (by omega)) (continued _ (by omega)), first, payload_eq _ (by omega),
      payload_eq _ (by omega), payload_eq _ (by omega)]
    have sum : (((value / 262144 + 240 - 240) * 64 + value / 4096 % 64) * 64 + value / 64 % 64) *
      64 +
        value % 64 = value := by
      omega
    rw [sum, again]

theorem parts_encoded (characters : List Char) :
    parts (characters.flatMap String.utf8EncodeChar) = characters.map .character := by
  induction characters with
  | nil => simp [parts]
  | cons character rest ih =>
    obtain ⟨first, others, encoded, read⟩ :=
      split_encoded character (rest.flatMap String.utf8EncodeChar)
    rw [List.flatMap_cons, encoded, List.cons_append, parts, read, ih, List.map_cons]

/-- A text reads as it was. -/
theorem lossy_ofString (text : String) : lossy (Bytes.ofString text) = text := by
  rw [lossy, Bytes.ofString, parts_encoded, List.map_map]
  exact (congrArg String.ofList (List.map_id _)).trans String.ofList_toList

/-- A text is all valid. -/
theorem decode?_ofString (text : String) : decode? (Bytes.ofString text) = some text := by
  have each (characters : List Char) :
      (characters.map Part.character).mapM Part.character? = some characters := by
    induction characters with
    | nil => rfl
    | cons character rest ih =>
      rw [List.map_cons, List.mapM_cons, ih]
      rfl
  rw [decode?, Bytes.ofString, parts_encoded, each]
  exact congrArg some String.ofList_toList

theorem mayFollow_bounds {first second : UInt8} (follows : mayFollow first second = true) :
    128 ≤ second.toNat ∧ second.toNat ≤ 191 ∧ (first.toNat = 224 → 160 ≤ second.toNat) ∧
      (first.toNat = 237 → second.toNat ≤ 159) ∧ (first.toNat = 240 → 144 ≤ second.toNat) ∧
      (first.toNat = 244 → second.toNat ≤ 143) := by
  simp only [mayFollow, ← UInt8.toNat_inj, UInt8.reduceToNat] at follows
  split_ifs at follows <;> simp [isContinuation, UInt8.le_iff_toNat_le] at follows <;> omega

theorem width_bounds (first : UInt8) :
    (width first = 1 → first.toNat < 128) ∧
      (width first = 2 → 194 ≤ first.toNat ∧ first.toNat < 224) ∧
      (width first = 3 → 224 ≤ first.toNat ∧ first.toNat < 240) ∧
      (width first = 4 → 240 ≤ first.toNat ∧ first.toNat < 245) := by
  simp only [width, UInt8.lt_iff_toNat_lt, UInt8.reduceToNat]
  split_ifs <;> simp <;> omega

theorem toNat_character {value : Nat} (valid : value < 55296 ∨ 57343 < value ∧ value < 1114112) :
    (Char.ofNat value).toNat = value := by
  rw [Char.ofNat, dif_pos valid]
  rfl

/-- A part that does not start with an ASCII byte has none, nor is it an ASCII character. -/
theorem split_high {first : UInt8} (high : 128 ≤ first.toNat) (rest : Bytes) :
    ∃ taken, rest = taken ++ (split first rest).2 ∧ (∀ byte ∈ taken, 128 ≤ byte.toNat) ∧
      ∀ c, (split first rest).1 = .character c → 128 ≤ c.toNat := by
  obtain ⟨one, two, three, four⟩ := width_bounds first
  unfold split
  split
  · next single =>
    have := one single
    omega
  · next second rest₁ double =>
    split
    · next continued =>
      have bounds := (isContinuation_iff second).mp continued
      have := two double
      refine ⟨[second], rfl, by simpa using bounds.1, ?_⟩
      rintro _ ⟨⟩
      rw [toNat_character] <;> simp only [payload] <;> omega
    · exact ⟨[], rfl, by simp, by simp⟩
  · next second rest₁ triple =>
    split
    · next follows =>
      have bounds := mayFollow_bounds follows
      have := three triple
      split
      · next third rest₂ =>
        split
        · next continued =>
          have bounds' := (isContinuation_iff third).mp continued
          refine ⟨[second, third], rfl, by simpa using ⟨bounds.1, bounds'.1⟩, ?_⟩
          rintro _ ⟨⟩
          rw [toNat_character] <;> simp only [payload] <;> omega
        · exact ⟨[second], rfl, by simpa using bounds.1, by simp⟩
      · exact ⟨[second], rfl, by simpa using bounds.1, by simp⟩
    · exact ⟨[], rfl, by simp, by simp⟩
  · next second rest₁ quadruple =>
    split
    · next follows =>
      have bounds := mayFollow_bounds follows
      have := four quadruple
      split
      · next third rest₂ =>
        split
        · next continued =>
          have bounds' := (isContinuation_iff third).mp continued
          split
          · next fourth rest₃ =>
            split
            · next ended =>
              have bounds'' := (isContinuation_iff fourth).mp ended
              refine ⟨[second, third, fourth], rfl,
                by simpa using ⟨bounds.1, bounds'.1, bounds''.1⟩, ?_⟩
              rintro _ ⟨⟩
              rw [toNat_character] <;> simp only [payload] <;> omega
            · exact ⟨[second, third], rfl, by simpa using ⟨bounds.1, bounds'.1⟩, by simp⟩
          · exact ⟨[second, third], rfl, by simpa using ⟨bounds.1, bounds'.1⟩, by simp⟩
        · exact ⟨[second], rfl, by simpa using bounds.1, by simp⟩
      · exact ⟨[second], rfl, by simpa using bounds.1, by simp⟩
    · exact ⟨[], rfl, by simp, by simp⟩
  · exact ⟨[], rfl, by simp, by simp⟩

/-- An ASCII character is displayed as often as its byte is there, by induction on the parts. -/
theorem count_lossy (byte : UInt8) (low : byte.toNat < 128) (bytes : Bytes) :
    (lossy bytes).toList.count (Char.ofNat byte.toNat) = bytes.count byte := by
  have value : (Char.ofNat byte.toNat).toNat = byte.toNat :=
    toNat_character (.inl (by omega))
  have other {c : Char} (high : 128 ≤ c.toNat) : c ≠ Char.ofNat byte.toNat := by
    rintro rfl
    omega
  simp only [lossy, String.toList_ofList]
  induction bytes using parts.induct with
  | case1 => simp [parts]
  | case2 first rest ih =>
    rw [parts, List.map_cons, List.count_cons, ih, List.count_cons]
    by_cases ascii : first.toNat < 128
    · rw [split_one ascii]
      have same : Char.ofNat first.toNat = Char.ofNat byte.toNat ↔ first = byte := by
        constructor
        · intro equal
          have := congrArg Char.toNat equal
          rw [value, toNat_character (.inl (by omega))] at this
          exact UInt8.toNat_inj.mp this
        · rintro rfl
          rfl
      simp [same]
    · obtain ⟨taken, whole, high, character⟩ := split_high (Nat.not_lt.mp ascii) rest
      have absent : taken.count byte = 0 := by
        refine List.count_eq_zero.mpr fun present => ?_
        have := high byte present
        omega
      have unequal : first ≠ byte := by
        rintro rfl
        omega
      have later : rest.count byte = (split first rest).2.count byte :=
        (congrArg (List.count byte) whole).trans (by rw [List.count_append, absent, Nat.zero_add])
      rw [later]
      cases part : (split first rest).1 with
      | character c => simp [other (character c part), unequal]
      | invalid bytes => simp [other (c := '\uFFFD') (by decide), unequal]

end Depot.Text.Utf8

namespace Depot.Bytes

theorem ofString_injective : Function.Injective ofString := by
  intro left right same
  rw [← Text.Utf8.lossy_ofString left, same, Text.Utf8.lossy_ofString]

end Depot.Bytes
