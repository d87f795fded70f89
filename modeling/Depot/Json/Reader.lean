import Depot.Json.Token
import Depot.Json.Value

set_option autoImplicit false

namespace Depot.Json

/-- A container that is still open, with what was read of it, the newest first. -/
inductive Frame where
  | array (before : List Json)
  /-- The value of `key` is being read. -/
  | object (before : List (String × Json)) (key : String)

/-- What may come next. The list holds the containers around it, the innermost first. -/
inductive Reading where
  /-- A value. -/
  | beforeValue (around : List Frame)
  /-- The first item of an array, or its end. -/
  | firstItem (around : List Frame)
  /-- The first key of an object, or its end. -/
  | firstKey (around : List Frame)
  /-- A key. -/
  | beforeKey (around : List Frame) (before : List (String × Json))
  /-- The colon after a key. -/
  | beforeColon (around : List Frame) (before : List (String × Json)) (key : String)
  /-- A comma or an end, after a value. -/
  | afterValue (around : List Frame) (value : Json)

namespace Reading

/-- How many containers may be open at the same time. -/
def maxDepth : Nat := 127

def start (around : List Frame) : Token → Option Reading
  | .null => some (afterValue around .null)
  | .bool value => some (afterValue around (.bool value))
  | .integer value => some (afterValue around (.integer value))
  | .real => some (afterValue around .real)
  | .string value => some (afterValue around (.string value))
  | .openArray => if around.length < maxDepth then some (firstItem around) else none
  | .openObject => if around.length < maxDepth then some (firstKey around) else none
  | .closeArray | .closeObject | .comma | .colon => none

def next : Reading → Token → Option Reading
  | beforeValue around, token => start around token
  | firstItem around, .closeArray => some (afterValue around (.array []))
  | firstItem around, token => start (.array [] :: around) token
  | firstKey around, .closeObject => some (afterValue around (.object []))
  | firstKey around, .string text => some (beforeColon around [] text)
  | beforeKey around before, .string text => some (beforeColon around before text)
  | beforeColon around before text, .colon => some (beforeValue (.object before text :: around))
  | afterValue (.array before :: around) item, .comma =>
    some (beforeValue (.array (item :: before) :: around))
  | afterValue (.array before :: around) item, .closeArray =>
    some (afterValue around (.array (item :: before).reverse))
  | afterValue (.object before text :: around) item, .comma =>
    some (beforeKey around ((text, item) :: before))
  | afterValue (.object before text :: around) item, .closeObject =>
    some (afterValue around (.object ((text, item) :: before).reverse))
  | _, _ => none

/-- The value that has been read, if nothing is missing. -/
def finish? : Reading → Option Json
  | afterValue [] value => some value
  | _ => none

end Reading

def ofTokens? (tokens : List Token) : Option Json := do
  (← tokens.foldlM Reading.next (.beforeValue [])).finish?

def ofText? (text : String) : Option Json := do
  ofTokens? (← Token.scan? text.toList)

/-- A way to write values as texts and to read them. -/
structure Format where
  text : Json → String
  ofText? : String → Option Json

/-- The shortest texts are written, and all texts of values are read. -/
def Format.compact : Format where
  text := Json.text
  ofText? := Json.ofText?

end Depot.Json
