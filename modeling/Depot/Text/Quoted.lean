import Depot.Text.Characters
import Depot.Text.Utf8

set_option autoImplicit false

namespace Depot.Text

/-- The digits of a number in base 16, in lower case and without leading zeros. -/
def hexDigits (value : Nat) : List Char :=
  Nat.toDigits 16 value

def isVisible (c : Char) : Bool :=
  !graphemeExtendRanges.covers c && !unprintableRanges.covers c

/-- The code point of a character, as `\u` and hexadecimal digits in braces. -/
def codePointEscape (c : Char) : List Char :=
  ['\\', 'u', '\x7b'] ++ hexDigits c.toNat ++ ['\x7d']

/-- A character outside quotes' own syntax. -/
def visibleForm (c : Char) : List Char :=
  if isVisible c then [c] else codePointEscape c

/-- A character of a quoted text. An apostrophe stays as it is. -/
def quotedChar (c : Char) : List Char :=
  match c with
  | '\x00' => ['\\', '0']
  | '\t' => ['\\', 't']
  | '\r' => ['\\', 'r']
  | '\n' => ['\\', 'n']
  | '"' => ['\\', '"']
  | '\\' => ['\\', '\\']
  | c => visibleForm c

def quoted (text : String) : String :=
  String.ofList ('"' :: text.toList.flatMap quotedChar ++ ['"'])

/-- A byte as `\x` and two hexadecimal digits. -/
def byteEscape (value : Nat) : List Char :=
  ['\\', 'x', Bytes.hexDigit (value / 16), Bytes.hexDigit (value % 16)]

/-- A character of a quoted byte string: ASCII characters that are not printable are shown as
bytes, and both kinds of quotes are escaped. -/
def quotedByteChar (c : Char) : List Char :=
  match c with
  | '\x00' => ['\\', '0']
  | '\t' => ['\\', 't']
  | '\r' => ['\\', 'r']
  | '\n' => ['\\', 'n']
  | '"' => ['\\', '"']
  | '\'' => ['\\', '\'']
  | '\\' => ['\\', '\\']
  | c =>
    if c.toNat < 0x20 ∨ c.toNat = 0x7F then byteEscape c.toNat
    else if c.toNat < 0x80 then [c]
    else visibleForm c

/-- A byte string in double quotes: valid characters as characters, the rest byte by byte. -/
def quotedBytes (bytes : Bytes) : String :=
  String.ofList ('"' :: (Utf8.parts bytes).flatMap (fun
    | .character c => quotedByteChar c
    | .invalid part => part.flatMap fun byte => byteEscape byte.toNat) ++ ['"'])

end Depot.Text
