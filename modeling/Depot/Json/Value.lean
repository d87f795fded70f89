import Depot.Bytes

set_option autoImplicit false

namespace Depot

/-- A JSON value. The members of an object keep their order, and a key may come more than once. -/
inductive Json where
  | null
  | bool (value : Bool)
  /-- A number that is written as an integer. -/
  | integer (value : Int)
  /-- A number with a point or an exponent, a negative zero, or an integer that no word of 64 bits
  holds. Nothing here depends on its value. -/
  | real
  | string (value : String)
  | array (items : List Json)
  | object (members : List (String × Json))

namespace Json

/-- The letter that stands for a character after a backslash. -/
def shortEscape? (c : Char) : Option Char :=
  if c = '"' then some '"'
  else if c = '\\' then some '\\'
  else if c = '\x08' then some 'b'
  else if c = '\x0c' then some 'f'
  else if c = '\n' then some 'n'
  else if c = '\r' then some 'r'
  else if c = '\t' then some 't'
  else none

/-- A character inside a quoted text. -/
def escaped (c : Char) : List Char :=
  match shortEscape? c with
  | some letter => ['\\', letter]
  | none =>
    if c.toNat < 32 then
      ['\\', 'u', '0', '0', Bytes.hexDigit (c.toNat / 16), Bytes.hexDigit (c.toNat % 16)]
    else [c]

def quoted (text : String) : List Char :=
  '"' :: text.toList.flatMap escaped ++ ['"']

def separated : List (List Char) → List Char
  | [] => []
  | [text] => text
  | text :: rest => text ++ ',' :: separated rest

mutual

/-- The characters of a value. A number that is no integer has no text of its own and is written as
a negative zero. -/
def characters : Json → List Char
  | null => "null".toList
  | bool true => "true".toList
  | bool false => "false".toList
  | integer value => (toString value).toList
  | real => "-0".toList
  | string value => quoted value
  | array items => '[' :: separated (charactersEach items) ++ [']']
  | object members => '\x7b' :: separated (charactersMembers members) ++ ['\x7d']

def charactersEach : List Json → List (List Char)
  | [] => []
  | item :: rest => characters item :: charactersEach rest

def charactersMembers : List (String × Json) → List (List Char)
  | [] => []
  | (key, value) :: rest => (quoted key ++ ':' :: characters value) :: charactersMembers rest

end

def text (value : Json) : String :=
  String.ofList (characters value)

end Json

end Depot
