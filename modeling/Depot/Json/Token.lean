import Depot.Bytes
import Depot.Text.Integer

set_option autoImplicit false

namespace Depot.Json

/-- A token. -/
inductive Token where
  | openArray
  | closeArray
  | openObject
  | closeObject
  | comma
  | colon
  | null
  | bool (value : Bool)
  | integer (value : Int)
  | real
  | string (value : String)
deriving Repr, DecidableEq

namespace Token

def isBlank (c : Char) : Bool :=
  c = ' ' || c = '\n' || c = '\t' || c = '\r'

/-- The characters of numbers and of the words for constants. -/
def isWordPart (c : Char) : Bool :=
  c.isAlphanum || c = '+' || c = '-' || c = '.'

def isDigit (c : Char) : Bool :=
  (Text.digit? c).isSome

/-- A number, split into its sign, its digits before and after the point, and its exponent. -/
structure Numeral where
  negative : Bool
  whole : List Char
  fraction : Option (List Char)
  exponent : Option Int
deriving Repr, DecidableEq

def exponent? : List Char → Option (Option Int)
  | [] => some none
  | c :: rest =>
    if c = 'e' ∨ c = 'E' then
      (Text.int? rest).map some
    else none

/-- Reads what follows the digits before the point. -/
def Numeral.finish (negative : Bool) (whole : List Char) : List Char → Option Numeral
  | '.' :: rest =>
    match rest.takeWhile isDigit with
    | [] => none
    | digits => do
      let exponent ← exponent? (rest.dropWhile isDigit)
      some { negative, whole, fraction := some digits, exponent }
  | rest => do
    let exponent ← exponent? rest
    some { negative, whole, fraction := none, exponent }

/-- Reads a number without its sign. Before the point there is a single zero, or digits that do not
start with one. -/
def Numeral.unsigned? (negative : Bool) (text : List Char) : Option Numeral :=
  match text.takeWhile isDigit with
  | [] => none
  | ['0'] => Numeral.finish negative ['0'] (text.dropWhile isDigit)
  | '0' :: _ => none
  | digits => Numeral.finish negative digits (text.dropWhile isDigit)

def Numeral.ofChars? : List Char → Option Numeral
  | '-' :: rest => Numeral.unsigned? true rest
  | text => Numeral.unsigned? false text

/-- The number that some digits continue as long as it fits into a word of 64 bits, and the digits
that are left from there on. -/
def leading (value : Nat) : List Char → Nat × List Char
  | [] => (value, [])
  | c :: rest =>
    match Text.digit? c with
    | some digit =>
      if value * 10 + digit < 0x10000000000000000 then leading (value * 10 + digit) rest
      else (value, c :: rest)
    | none => (value, c :: rest)

/-- The leading digits of a number as a whole number, and the power of ten that it is to be
multiplied with. Digits before the point that are left out count for the power, and those behind it
do not count. -/
def Numeral.scaled (numeral : Numeral) : Nat × Int :=
  let (value, beyond) := leading 0 numeral.whole
  let fraction := numeral.fraction.getD []
  let (value, ignored) := leading value fraction
  let places : Int := fraction.length - ignored.length
  (value, beyond.length - places + numeral.exponent.getD 0)

/-- The number with a significand of 53 bits that is nearest to a whole number. A tie goes to the
even significand. -/
def nearest (value : Nat) : Nat :=
  let extra := value.log2 - 52
  let unit := 1 <<< extra
  let significand := value / unit
  let rest := value % unit
  if unit < rest * 2 ∨ unit = rest * 2 ∧ significand % 2 = 1 then (significand + 1) * unit
  else significand * unit

/-- The largest power of ten that is below the largest number of 64 bits with a binary point. -/
def maxPower : Nat := 308

/-- The least value that is too large for a number of 64 bits with a binary point: the next one
after the largest would be at twice this distance from it. -/
def overflow : Nat := 1 <<< 1024 - 1 <<< 970

/-- Whether a number is too large to be read. It is taken as the product of its digits and a power
of ten, each rounded first, so that some numbers below the largest one are too large as well. -/
def Numeral.isTooLarge (numeral : Numeral) : Bool :=
  let (value, power) := numeral.scaled
  if value = 0 ∨ power < 0 then false
  else if maxPower < power then true
  else decide (overflow ≤ nearest value * nearest (Nat.pow 10 power.toNat))

/-- The integer that a number is, if it is written as one and has a word of 64 bits. -/
def Numeral.integer? (numeral : Numeral) : Option Int :=
  match numeral.fraction, numeral.exponent with
  | none, none => do
    let value ← Text.digits? numeral.whole
    if numeral.negative then
      if 0 < value ∧ value ≤ 0x8000000000000000 then some (-(value : Int)) else none
    else if value < 0x10000000000000000 then some value else none
  | _, _ => none

def ofWord? (word : List Char) : Option Token :=
  if word = "null".toList then some null
  else if word = "true".toList then some (bool true)
  else if word = "false".toList then some (bool false)
  else do
    let numeral ← Numeral.ofChars? word
    if numeral.isTooLarge then none
    else
      match numeral.integer? with
      | some value => some (integer value)
      | none => some real

/-- Reads the number that four hexadecimal digits give. -/
def unit? : List Char → Option (Nat × List Char)
  | a :: b :: c :: d :: rest => do
    let high := (← Bytes.hexValue? a) * 16 + (← Bytes.hexValue? b)
    let low := (← Bytes.hexValue? c) * 16 + (← Bytes.hexValue? d)
    some (high * 256 + low, rest)
  | _ => none

/-- The character that a letter stands for after a backslash. -/
def unescape? (c : Char) : Option Char :=
  if c = '"' then some '"'
  else if c = '\\' then some '\\'
  else if c = '/' then some '/'
  else if c = 'b' then some '\x08'
  else if c = 'f' then some '\x0c'
  else if c = 'n' then some '\n'
  else if c = 'r' then some '\r'
  else if c = 't' then some '\t'
  else none

/-- The character of two halves, if they are a high one and a low one. -/
def joinHalves? (high low : Nat) : Option Char :=
  if 0xD800 ≤ high ∧ high < 0xDC00 ∧ 0xDC00 ≤ low ∧ low < 0xE000 then
    some (Char.ofNat ((high - 0xD800) * 0x400 + (low - 0xDC00) + 0x10000))
  else none

def half? : List Char → Option (Nat × List Char)
  | '\\' :: 'u' :: rest => unit? rest
  | _ => none

/-- Reads what follows a backslash. A character outside the first plane may be given in two halves,
and there are no single halves. -/
def escape? : List Char → Option (Char × List Char)
  | [] => none
  | c :: rest =>
    if c = 'u' then
      match unit? rest with
      | none => none
      | some (value, rest) =>
        if value < 0xD800 ∨ 0xE000 ≤ value then some (Char.ofNat value, rest)
        else
          match half? rest with
          | none => none
          | some (low, rest) => (joinHalves? value low).map fun c => (c, rest)
    else (unescape? c).map fun c => (c, rest)

/-- Reads the first character of a quoted text, with what follows. -/
def character? (c : Char) (rest : List Char) : Option (Char × List Char) :=
  if c = '\\' then escape? rest
  else if c.toNat < 32 then none
  else some (c, rest)

theorem length_of_unit? {text : List Char} {read : Nat × List Char}
    (found : unit? text = some read) : read.2.length ≤ text.length := by
  unfold unit? at found
  split at found
  · simp only [bind, Option.bind_eq_some_iff, Option.some.injEq] at found
    obtain ⟨_, _, _, _, _, _, _, _, rfl⟩ := found
    simp only [List.length_cons]
    omega
  · cases found

theorem length_of_half? {text : List Char} {read : Nat × List Char}
    (found : half? text = some read) : read.2.length ≤ text.length := by
  unfold half? at found
  split at found
  · have := length_of_unit? found
    simp only [List.length_cons]
    omega
  · cases found

theorem length_of_escape? {text : List Char} {read : Char × List Char}
    (found : escape? text = some read) : read.2.length ≤ text.length := by
  cases text with
  | nil => cases found
  | cons c rest =>
    simp only [escape?] at found
    split at found
    · split at found
      · cases found
      · next value rest' first =>
        have shorter := length_of_unit? first
        split at found
        · cases found
          simp only [List.length_cons] at shorter ⊢
          omega
        · split at found
          · cases found
          · next second =>
            have shorter' := length_of_half? second
            obtain ⟨_, _, rfl⟩ := Option.map_eq_some_iff.mp found
            simp only [List.length_cons] at shorter shorter' ⊢
            omega
    · obtain ⟨_, _, rfl⟩ := Option.map_eq_some_iff.mp found
      simp

theorem length_of_character? {c : Char} {rest : List Char} {read : Char × List Char}
    (found : character? c rest = some read) : read.2.length ≤ rest.length := by
  unfold character? at found
  split at found
  · exact length_of_escape? found
  · split at found
    · cases found
    · cases found
      exact Nat.le_refl _

/-- Reads a text up to the quote that ends it, with what follows. -/
def body? : List Char → Option (List Char × List Char)
  | [] => none
  | c :: rest =>
    if c = '"' then some ([], rest)
    else
      match _found : character? c rest with
      | none => none
      | some (c, rest) => (body? rest).map fun (text, rest) => (c :: text, rest)
termination_by text => text.length
decreasing_by
  have := length_of_character? _found
  simp_all only [List.length_cons]
  omega

theorem length_of_body? {text : List Char} {read : List Char × List Char}
    (found : body? text = some read) : read.2.length < text.length := by
  induction text using body?.induct generalizing read with
  | case1 => simp [body?] at found
  | case2 rest =>
    simp only [body?, if_true, Option.some.injEq] at found
    simp [← found]
  | case3 c rest different none =>
    unfold body? at found
    grind
  | case4 c rest different c' rest' first ih =>
    unfold body? at found
    rw [if_neg different] at found
    split at found
    · simp at found
    · next c'' rest'' second =>
      rw [first] at second
      simp only [Option.some.injEq, Prod.mk.injEq] at second
      obtain ⟨rfl, rfl⟩ := second
      simp only [Option.map_eq_some_iff] at found
      obtain ⟨inner, found, rfl⟩ := found
      have shorter := ih found
      have := length_of_character? first
      simp only [List.length_cons]
      simp only at this
      omega

def ofMark? (c : Char) : Option Token :=
  if c = '[' then some openArray
  else if c = ']' then some closeArray
  else if c = '\x7b' then some openObject
  else if c = '\x7d' then some closeObject
  else if c = ',' then some comma
  else if c = ':' then some colon
  else none

def scan? : List Char → Option (List Token)
  | [] => some []
  | c :: rest =>
    if isBlank c then scan? rest
    else if c = '"' then
      match _found : body? rest with
      | none => none
      | some (text, rest) => (scan? rest).map (string (String.ofList text) :: ·)
    else
      match ofMark? c with
      | some mark => (scan? rest).map (mark :: ·)
      | none =>
        if isWordPart c then do
          let token ← ofWord? (c :: rest.takeWhile isWordPart)
          let tokens ← scan? (rest.dropWhile isWordPart)
          some (token :: tokens)
        else none
termination_by text => text.length
decreasing_by
  all_goals simp only [List.length_cons]
  · omega
  · have := length_of_body? _found
    simp only at this
    omega
  · omega
  · have := (List.dropWhile_sublist isWordPart (l := rest)).length_le
    omega

end Token

end Depot.Json
