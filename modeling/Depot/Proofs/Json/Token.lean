import Depot.Json.Reader
import Mathlib.Data.List.TakeWhile
import Mathlib.Data.Nat.Basic
import Mathlib.Tactic.SplitIfs

set_option autoImplicit false

namespace Depot.Text

theorem digit?_of_isDigit {c : Char} (digit : c.isDigit = true) :
    digit? c = some (c.toNat - 48) := by
  have bounds : '0' ≤ c ∧ c ≤ '9' := by
    simpa [Char.isDigit, Char.le_def, UInt32.le_iff_toNat_le] using digit
  rw [digit?, if_pos bounds]

theorem isDigit_of_mem_decimal {value : Nat} : ∀ c ∈ Nat.toDigits 10 value, c.isDigit = true :=
  fun _ present => Nat.isDigit_of_mem_toDigits (by decide) (by decide) present

theorem digitsFrom?_eq {digits : List Char} (all : ∀ c ∈ digits, c.isDigit = true) (value : Nat) :
    digitsFrom? value digits = some (Nat.ofDigitChars 10 digits value) := by
  induction digits generalizing value with
  | nil => rfl
  | cons c rest ih =>
    obtain ⟨first, later⟩ := List.forall_mem_cons.mp all
    have next := ih later (value * 10 + (c.toNat - 48))
    rw [Nat.mul_comm] at next
    simp only [digitsFrom?, digit?_of_isDigit first, Option.bind_eq_bind, Option.bind_some,
      Nat.ofDigitChars_cons]
    rw [Nat.mul_comm]
    exact next

theorem digits?_decimal (value : Nat) : digits? (Nat.toDigits 10 value) = some value := by
  have read := digitsFrom?_eq (@isDigit_of_mem_decimal value) 0
  rw [Nat.ofDigitChars_ten_toDigits] at read
  obtain ⟨c, rest, digits⟩ := List.exists_cons_of_ne_nil (@Nat.toDigits_ne_nil value 10)
  rw [digits] at read ⊢
  exact read

/-- Only zero starts with a zero. -/
theorem decimal_cases (value : Nat) :
    Nat.toDigits 10 value = ['0'] ∨ ∃ c rest, Nat.toDigits 10 value = c :: rest ∧ c ≠ '0' := by
  induction value using Nat.base_induction 10 (by decide) with
  | single digit small =>
    rw [Nat.toDigits_of_lt_base small]
    by_cases zero : digit = 0
    · exact .inl (by rw [zero]; rfl)
    · exact .inr ⟨_, [], rfl, by revert zero; revert digit; decide⟩
  | digit front last small positive ih =>
    rw [← Nat.toDigits_append_toDigits (by decide) positive small]
    rcases ih with zero | ⟨c, rest, digits, different⟩
    · have value := @Nat.ofDigitChars_ten_toDigits front
      rw [zero] at value
      exact absurd value.symm (Nat.pos_iff_ne_zero.mp positive)
    · exact .inr ⟨c, rest ++ _, by rw [digits, List.cons_append], different⟩

end Depot.Text

namespace Depot.Json.Token

/-- The first character of a quoted text, and then the others. -/
theorem body?_cons (c : Char) (rest : List Char) :
    body? (c :: rest) =
      if c = '"' then some ([], rest)
      else (character? c rest).bind fun read => (body? read.2).map fun more =>
        (read.1 :: more.1, more.2) := by
  rw [body?]
  split
  · rfl
  · cases character? c rest <;> rfl

theorem unescape?_shortEscape {c letter : Char} (short : shortEscape? c = some letter) :
    unescape? letter = some c ∧ letter ≠ 'u' := by
  unfold shortEscape? at short
  split_ifs at short <;> cases short <;> subst_vars <;> decide

theorem plain_of_shortEscape {c : Char} (long : shortEscape? c = none) : c ≠ '"' ∧ c ≠ '\\' := by
  constructor
  all_goals
    rintro rfl
    exact absurd long (by decide)

theorem hexValue?_hexDigit {value : Nat} (small : value < 16) :
    Bytes.hexValue? (Bytes.hexDigit value) = some value := by
  revert small
  revert value
  decide

/-- A character is read as it is written. -/
theorem body?_escaped (c : Char) (rest : List Char) :
    body? (escaped c ++ rest) = (body? rest).map fun more => (c :: more.1, more.2) := by
  cases short : shortEscape? c with
  | some letter =>
    obtain ⟨again, other⟩ := unescape?_shortEscape short
    have read : character? '\\' (letter :: rest) = some (c, rest) := by
      simp [character?, escape?, other, again]
    rw [escaped, short, List.cons_append, List.cons_append, List.nil_append, body?_cons,
      if_neg (by decide), read]
    rfl
  | none =>
    obtain ⟨notQuote, notSlash⟩ := plain_of_shortEscape short
    by_cases control : c.toNat < 32
    · have high := @hexValue?_hexDigit (c.toNat / 16) (by omega)
      have low := @hexValue?_hexDigit (c.toNat % 16) (by omega)
      have zero : Bytes.hexValue? '0' = some 0 := by decide
      have value : c.toNat / 16 * 16 + c.toNat % 16 = c.toNat := by omega
      have read : character? '\\'
          ('u' :: '0' :: '0' :: Bytes.hexDigit (c.toNat / 16) :: Bytes.hexDigit (c.toNat % 16) ::
            rest) =
            some (c, rest) := by
        have small : c.toNat < 0xD800 := by omega
        simp [character?, escape?, unit?, zero, high, low, value, small]
      simp only [escaped, short, if_pos control, List.cons_append, List.nil_append]
      rw [body?_cons, if_neg (by decide), read]
      rfl
    · simp only [escaped, short, if_neg control, List.cons_append, List.nil_append]
      rw [body?_cons, if_neg notQuote, character?, if_neg notSlash, if_neg control]
      rfl

theorem body?_quoted (text : List Char) (rest : List Char) :
    body? (text.flatMap escaped ++ '"' :: rest) = some (text, rest) := by
  induction text with
  | nil => rw [List.flatMap_nil, List.nil_append, body?_cons, if_pos rfl]
  | cons c text ih =>
    rw [List.flatMap_cons, List.append_assoc, body?_escaped, ih]
    rfl

/-- A quoted text is scanned as one token, whatever comes after it. -/
theorem scan?_quoted (text : String) (rest : List Char) :
    scan? (quoted text ++ rest) = (scan? rest).map (string text :: ·) := by
  have whole : quoted text ++ rest = '"' :: (text.toList.flatMap escaped ++ '"' :: rest) := by
    simp [quoted]
  rw [whole, scan?, if_neg (by decide), if_pos rfl]
  split
  · next nothing =>
    rw [body?_quoted] at nothing
    cases nothing
  · next read =>
    rw [body?_quoted] at read
    cases read
    rw [String.ofList_toList]

theorem scan?_mark {c : Char} {mark : Token} (marks : ofMark? c = some mark) (rest : List Char) :
    scan? (c :: rest) = (scan? rest).map (mark :: ·) := by
  have blank : ¬ isBlank c = true := by
    intro blank
    simp only [isBlank, Bool.or_eq_true, decide_eq_true_eq] at blank
    rcases blank with ((rfl | rfl) | rfl) | rfl <;> cases marks
  have quote : c ≠ '"' := by
    rintro rfl
    cases marks
  rw [scan?, if_neg blank, if_neg quote]
  simp only [marks]

theorem isWordPart_mark {c : Char} (part : isWordPart c = true) :
    isBlank c = false ∧ c ≠ '"' ∧ ofMark? c = none := by
  refine ⟨?_, ?_, ?_⟩
  · rw [Bool.eq_false_iff]
    intro blank
    simp only [isBlank, Bool.or_eq_true, decide_eq_true_eq] at blank
    rcases blank with ((rfl | rfl) | rfl) | rfl <;> cases part
  · rintro rfl
    cases part
  · cases marks : ofMark? c with
    | none => rfl
    | some mark =>
      unfold ofMark? at marks
      split_ifs at marks <;> (subst_vars; cases part)

/-- What comes after a word does not continue it. -/
def Ends (rest : List Char) : Prop :=
  ∀ c ∈ rest.head?, isWordPart c = false

theorem scan?_word {word rest : List Char} {token : Token} (filled : word ≠ [])
    (parts : word.all isWordPart = true) (read : ofWord? word = some token) (ends : Ends rest) :
    scan? (word ++ rest) = (scan? rest).map (token :: ·) := by
  obtain ⟨c, word, rfl⟩ := List.exists_cons_of_ne_nil filled
  obtain ⟨first, later⟩ := List.forall_mem_cons.mp (List.all_eq_true.mp parts)
  obtain ⟨blank, quote, mark⟩ := isWordPart_mark first
  have nothing : rest.takeWhile isWordPart = [] ∧ rest.dropWhile isWordPart = rest := by
    cases rest with
    | nil => exact ⟨rfl, rfl⟩
    | cons d rest => simp [ends d rfl]
  have taken : (word ++ rest).takeWhile isWordPart = word := by
    rw [List.takeWhile_append_of_pos later, nothing.1, List.append_nil]
  have left : (word ++ rest).dropWhile isWordPart = rest := by
    rw [List.dropWhile_append_of_pos later, nothing.2]
  rw [List.cons_append, scan?, if_neg (by rw [blank]; decide), if_neg quote]
  simp only [mark, first, if_true, taken, left, read, Option.bind_eq_bind, Option.bind_some]
  rw [Option.map_eq_bind]
  rfl

theorem isDigit_of {c : Char} (digit : c.isDigit = true) : isDigit c = true := by
  rw [isDigit, Text.digit?_of_isDigit digit]
  rfl

theorem isWordPart_of {c : Char} (digit : c.isDigit = true) : isWordPart c = true := by
  simp [isWordPart, Char.isAlphanum, digit]

def Numeral.ofNat (negative : Bool) (value : Nat) : Numeral where
  negative
  whole := Nat.toDigits 10 value
  fraction := none
  exponent := none

theorem Numeral.unsigned?_decimal (negative : Bool) (value : Nat) :
    unsigned? negative (Nat.toDigits 10 value) = some (ofNat negative value) := by
  have digits : ∀ c ∈ Nat.toDigits 10 value, isDigit c = true :=
    fun c present => isDigit_of (Text.isDigit_of_mem_decimal c present)
  have taken : (Nat.toDigits 10 value).takeWhile isDigit = Nat.toDigits 10 value :=
    List.takeWhile_eq_self_iff.mpr digits
  have left : (Nat.toDigits 10 value).dropWhile isDigit = [] := List.dropWhile_eq_nil_iff.mpr digits
  rw [unsigned?, taken, left, ofNat]
  rcases Text.decimal_cases value with zero | ⟨c, rest, several, different⟩
  · rw [zero]
    rfl
  · rw [several]
    split
    · next empty => cases empty
    · next zero =>
      cases zero
      exact absurd rfl different
    · next zero =>
      cases zero
      exact absurd rfl different
    · rfl

/-- Digits of a number with 64 bits are all taken. -/
theorem leading_eq {digits : List Char} (all : ∀ c ∈ digits, c.isDigit = true) (value : Nat)
    (fits : Nat.ofDigitChars 10 digits value < 0x10000000000000000) :
    leading value digits = (Nat.ofDigitChars 10 digits value, []) := by
  induction digits generalizing value with
  | nil => rfl
  | cons c rest ih =>
    obtain ⟨first, later⟩ := List.forall_mem_cons.mp all
    rw [Nat.ofDigitChars_cons] at fits ⊢
    have same : value * 10 + (c.toNat - 48) = 10 * value + (c.toNat - '0'.toNat) := by
      rw [Nat.mul_comm]
      rfl
    have grows : value * 10 + (c.toNat - 48) ≤
        Nat.ofDigitChars 10 rest (10 * value + (c.toNat - '0'.toNat)) := by
      rw [same, Nat.ofDigitChars_eq_ofDigitChars_zero]
      have scaled := Nat.le_mul_of_pos_left (10 * value + (c.toNat - '0'.toNat))
        (Nat.pow_pos (n := rest.length) (by decide : 0 < 10))
      omega
    simp only [leading, Text.digit?_of_isDigit first, if_pos (Nat.lt_of_le_of_lt grows fits)]
    rw [same]
    exact ih later _ fits

theorem Numeral.scaled_ofNat {value : Nat} (fits : value < 0x10000000000000000) (negative : Bool) :
    (ofNat negative value).scaled = (value, 0) := by
  have taken : leading 0 (Nat.toDigits 10 value) = (value, []) := by
    have all := leading_eq (@Text.isDigit_of_mem_decimal value) 0
    rw [Nat.ofDigitChars_ten_toDigits] at all
    exact all fits
  simp [scaled, ofNat, taken, leading]

theorem nearest_le {value : Nat} (positive : value ≠ 0) : nearest value ≤ 2 * value := by
  have unit : 1 <<< (value.log2 - 52) ≤ value := by
    rw [Nat.one_shiftLeft]
    exact Nat.le_trans (Nat.pow_le_pow_right (by decide) (Nat.sub_le _ _))
      (Nat.log2_self_le positive)
  have below := Nat.div_mul_le_self value (1 <<< (value.log2 - 52))
  rw [nearest]
  split
  · rw [Nat.succ_mul]
    omega
  · omega

theorem Numeral.isTooLarge_ofNat {value : Nat} (fits : value < 0x10000000000000000)
    (negative : Bool) :
    (ofNat negative value).isTooLarge = false := by
  rw [isTooLarge, scaled_ofNat fits]
  by_cases zero : value = 0
  · simp [zero]
  · have one : nearest (Nat.pow 10 (0 : Int).toNat) = 1 := by decide
    have large : 0x20000000000000000 ≤ overflow := by decide +kernel
    have small := nearest_le zero
    have inside : ¬ overflow ≤ nearest value := by omega
    have unsigned : ¬ (value = 0 ∨ (0 : Int) < 0) := by omega
    have bounded : ¬ (maxPower : Int) < 0 := by decide
    simp only [if_neg unsigned, if_neg bounded, one, Nat.mul_one, decide_eq_false inside]

theorem Numeral.integer?_ofNat (value : Nat) (negative : Bool) :
    (ofNat negative value).integer? =
      if negative then
        if 0 < value ∧ value ≤ 0x8000000000000000 then some (-(value : Int)) else none
      else if value < 0x10000000000000000 then some (value : Int) else none := by
  simp only [integer?, ofNat, Text.digits?_decimal, Option.bind_eq_bind, Option.bind_some]
  cases negative <;> rfl

end Depot.Json.Token

namespace Depot.Json

/-- An integer that a word of 64 bits holds, with or without a sign. -/
def InWord (value : Int) : Prop :=
  -0x8000000000000000 ≤ value ∧ value < 0x10000000000000000

namespace Token

open Numeral (unsigned?_decimal isTooLarge_ofNat integer?_ofNat)

theorem not_constant {c : Char} {word : List Char} (first : c.isDigit = true ∨ c = '-') :
    c :: word ≠ "null".toList ∧ c :: word ≠ "true".toList ∧ c :: word ≠ "false".toList := by
  refine ⟨?_, ?_, ?_⟩ <;>
    · intro same
      cases same
      revert first
      decide

/-- A number that fits is read as an integer. -/
theorem ofWord?_numeral {word : List Char} (negative : Bool) (magnitude : Nat) {value : Int}
    (first : ∃ c rest, word = c :: rest ∧ (c.isDigit = true ∨ c = '-'))
    (read : Numeral.ofChars? word = some (.ofNat negative magnitude))
    (fits : magnitude < 0x10000000000000000)
    (whole : (Numeral.ofNat negative magnitude).integer? = some value) :
    ofWord? word = some (integer value) := by
  obtain ⟨c, rest, rfl, starts⟩ := first
  obtain ⟨notNull, notTrue, notFalse⟩ := @not_constant c rest starts
  rw [ofWord?, if_neg notNull, if_neg notTrue, if_neg notFalse, read]
  simp only [Option.bind_eq_bind, Option.bind_some, isTooLarge_ofNat fits, whole]
  rfl

/-- The decimal digits of a number start with a digit. -/
theorem exists_digit (value : Nat) :
    ∃ c rest, Nat.toDigits 10 value = c :: rest ∧ c.isDigit = true := by
  obtain ⟨c, rest, digits⟩ := List.exists_cons_of_ne_nil (@Nat.toDigits_ne_nil value 10)
  exact ⟨c, rest, digits, Text.isDigit_of_mem_decimal c (digits ▸ List.mem_cons_self)⟩

theorem toList_ofNat (magnitude : Nat) :
    (toString (Int.ofNat magnitude)).toList = Nat.toDigits 10 magnitude := by
  simp [toString, Int.repr, Nat.repr]

theorem toList_negSucc (below : Nat) :
    (toString (Int.negSucc below)).toList = '-' :: Nat.toDigits 10 (below + 1) := by
  simp [toString, Int.repr, Nat.repr]

theorem ofWord?_integer {value : Int} (fits : InWord value) :
    ofWord? (toString value).toList = some (integer value) := by
  obtain ⟨low, high⟩ := fits
  cases value with
  | ofNat magnitude =>
    obtain ⟨c, rest, digits, first⟩ := exists_digit magnitude
    have unsigned : c ≠ '-' := by
      rintro rfl
      cases first
    have small : magnitude < 0x10000000000000000 := Int.ofNat_lt.mp high
    rw [toList_ofNat]
    refine ofWord?_numeral false magnitude ⟨c, rest, digits, .inl first⟩ ?_ small ?_
    · rw [← unsigned?_decimal, digits]
      unfold Numeral.ofChars?
      split
      · next minus =>
        cases minus
        exact absurd rfl unsigned
      · rfl
    · rw [integer?_ofNat, if_neg (by decide), if_pos small]
      rfl
  | negSucc below =>
    have small : below + 1 ≤ 0x8000000000000000 := by omega
    rw [toList_negSucc]
    refine ofWord?_numeral true (below + 1) ⟨_, _, rfl, .inr rfl⟩ ?_ (by omega) ?_
    · rw [Numeral.ofChars?, unsigned?_decimal]
    · rw [integer?_ofNat, if_pos rfl, if_pos ⟨Nat.succ_pos below, small⟩]
      rfl

theorem isWordPart_integer (value : Int) :
    (toString value).toList ≠ [] ∧ (toString value).toList.all isWordPart = true := by
  have digits (magnitude : Nat) : (Nat.toDigits 10 magnitude).all isWordPart = true :=
    List.all_eq_true.mpr fun c present => isWordPart_of (Text.isDigit_of_mem_decimal c present)
  cases value with
  | ofNat magnitude =>
    rw [toList_ofNat]
    exact ⟨Nat.toDigits_ne_nil, digits magnitude⟩
  | negSucc below =>
    rw [toList_negSucc]
    exact ⟨List.cons_ne_nil _ _, digits _⟩

/-- An integer is scanned as one token, if what comes after it does not continue it. -/
theorem scan?_integer {value : Int} (fits : InWord value) {rest : List Char} (ends : Ends rest) :
    scan? ((toString value).toList ++ rest) = (scan? rest).map (integer value :: ·) :=
  have ⟨filled, parts⟩ := isWordPart_integer value
  scan?_word filled parts (ofWord?_integer fits) ends

end Token

end Depot.Json
