import Depot.Text.Characters
import Depot.Text.Quoted

set_option autoImplicit false

namespace Depot.XPath

/-- What is wrong with a name, a declaration or a reference. -/
inductive Fault where
  | notAReference (text : String)
  | invalidName (text : String)
  | unboundPrefix (text : String)
  | alreadyDeclared (name : String)
deriving Repr, DecidableEq

def Fault.code : Fault → String
  | notAReference _ => "NotAReference"
  | invalidName _ => "InvalidName"
  | unboundPrefix _ => "UnboundPrefix"
  | alreadyDeclared _ => "AlreadyDeclared"

def Fault.message : Fault → String
  | notAReference text => "not a variable reference: " ++ Text.quoted text
  | invalidName text => "invalid name: " ++ Text.quoted text
  | unboundPrefix text => "namespace prefix '" ++ text ++ "' is not bound"
  | alreadyDeclared name => "variable '" ++ name ++ "' is already declared in this scope"

/-- A name with the namespace that its prefix stands for. The namespace of a name without prefix is
empty. -/
structure ExpandedName where
  uri : String
  localPart : String
deriving Repr, DecidableEq

namespace ExpandedName

def ofLocal (localPart : String) : ExpandedName := ⟨"", localPart⟩

/-- The namespace in braces, unless it is empty, and the local part. -/
def display (name : ExpandedName) : String :=
  if name.uri = "" then name.localPart
  else "\x7b" ++ name.uri ++ "\x7d" ++ name.localPart

def precedes (left right : ExpandedName) : Bool :=
  decide (left.uri < right.uri) || left.uri = right.uri && decide (left.localPart < right.localPart)

end ExpandedName

/-- The characters that a part of a name may start with. -/
def isNameStart (c : Char) : Bool :=
  Text.isAlphabetic c || c = '_'

def isNamePart (c : Char) : Bool :=
  Text.isAlphabetic c || Text.isNumeric c || c = '_' || c = '-' || c = '.'

/-- Whether some characters are a name without a colon. -/
def isSimpleName : List Char → Bool
  | [] => false
  | c :: rest => isNameStart c && rest.all isNamePart

/-- A name as it is written, which may have a prefix. -/
structure PrefixedName where
  prefixPart : Option String
  localPart : String
deriving Repr, DecidableEq

namespace PrefixedName

/-- A text cut at its first colon, if it has one. -/
def parts (text : String) : Option (List Char) × List Char :=
  match text.toList.span (· ≠ ':') with
  | (before, ':' :: after) => (some before, after)
  | (before, _) => (none, before)

def ofText (text : String) : Except Fault PrefixedName :=
  let (prefixPart, localPart) := parts text
  if prefixPart.all isSimpleName ∧ isSimpleName localPart then
    .ok { prefixPart := prefixPart.map String.ofList, localPart := String.ofList localPart }
  else .error (.invalidName text)

def display (name : PrefixedName) : String :=
  match name.prefixPart with
  | some prefixPart => prefixPart ++ ":" ++ name.localPart
  | none => name.localPart

end PrefixedName

end Depot.XPath
