import Depot.Bytes

set_option autoImplicit false

/-
UTF-8 text that may be damaged. A byte string falls apart into characters and invalid parts, where
an invalid part is the longest beginning of a character's encoding that is not continued, or else
a single byte.
-/

namespace Depot.Text

/-- A piece of a byte string read as UTF-8. -/
inductive Part where
  | character (value : Char)
  | invalid (bytes : Bytes)
deriving Repr, DecidableEq

namespace Utf8

def isContinuation (byte : UInt8) : Bool :=
  0x80 ≤ byte && byte ≤ 0xBF

/-- The second bytes that may follow a given first byte: no overlong form, no surrogate and nothing
above U+10FFFF. -/
def mayFollow (first second : UInt8) : Bool :=
  if first = 0xE0 then 0xA0 ≤ second && second ≤ 0xBF
  else if first = 0xED then 0x80 ≤ second && second ≤ 0x9F
  else if first = 0xF0 then 0x90 ≤ second && second ≤ 0xBF
  else if first = 0xF4 then 0x80 ≤ second && second ≤ 0x8F
  else isContinuation second

/-- How many bytes the encoding that starts with this byte has, zero if none does. -/
def width (first : UInt8) : Nat :=
  if first < 0x80 then 1
  else if first < 0xC2 then 0
  else if first < 0xE0 then 2
  else if first < 0xF0 then 3
  else if first < 0xF5 then 4
  else 0

/-- The six payload bits of a continuation byte. -/
def payload (byte : UInt8) : Nat :=
  byte.toNat % 64

/-- Splits the first part off a byte string that starts with `first`. -/
def split (first : UInt8) (rest : Bytes) : Part × Bytes :=
  match width first, rest with
  | 1, _ => (.character (Char.ofNat first.toNat), rest)
  | 2, second :: rest₁ =>
    if isContinuation second then
      (.character (Char.ofNat ((first.toNat - 0xC0) * 64 + payload second)), rest₁)
    else (.invalid [first], rest)
  | 3, second :: rest₁ =>
    if mayFollow first second then
      match rest₁ with
      | third :: rest₂ =>
        if isContinuation third then
          (.character (Char.ofNat
            (((first.toNat - 0xE0) * 64 + payload second) * 64 + payload third)), rest₂)
        else (.invalid [first, second], rest₁)
      | [] => (.invalid [first, second], rest₁)
    else (.invalid [first], rest)
  | 4, second :: rest₁ =>
    if mayFollow first second then
      match rest₁ with
      | third :: rest₂ =>
        if isContinuation third then
          match rest₂ with
          | fourth :: rest₃ =>
            if isContinuation fourth then
              (.character (Char.ofNat
                ((((first.toNat - 0xF0) * 64 + payload second) * 64 + payload third) * 64
                  + payload fourth)), rest₃)
            else (.invalid [first, second, third], rest₂)
          | [] => (.invalid [first, second, third], rest₂)
        else (.invalid [first, second], rest₁)
      | [] => (.invalid [first, second], rest₁)
    else (.invalid [first], rest)
  | _, _ => (.invalid [first], rest)

theorem length_split_le (first : UInt8) (rest : Bytes) :
    (split first rest).2.length ≤ rest.length := by
  unfold split
  repeat' split
  all_goals simp_all <;> omega

def parts : Bytes → List Part
  | [] => []
  | first :: rest => (split first rest).1 :: parts (split first rest).2
termination_by bytes => bytes.length
decreasing_by
  have := length_split_le first rest
  simp only [List.length_cons]
  omega

def Part.character? : Part → Option Char
  | .character value => some value
  | .invalid _ => none

def decode? (bytes : Bytes) : Option String :=
  ((parts bytes).mapM Part.character?).map String.ofList

/-- The text of a byte string, with U+FFFD in place of each invalid part. -/
def lossy (bytes : Bytes) : String :=
  String.ofList ((parts bytes).map fun
    | .character value => value
    | .invalid _ => '\uFFFD')

end Utf8

end Depot.Text
