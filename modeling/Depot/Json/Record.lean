import Depot.Json.Value

set_option autoImplicit false

/-
Records in JSON: objects whose members are fields, or arrays of their values in the order of the
fields. The kind of a tagged record is told by its member `type`, or by the first item of the array.
-/

namespace Depot.Json

def valuesOf (key : String) (members : List (String × Json)) : List Json :=
  (members.filter fun member => member.1 = key).map Prod.snd

/-- The value of a field, which may be missing but not come twice. -/
def field? (members : List (String × Json)) (key : String) : Option (Option Json) :=
  match valuesOf key members with
  | [] => some none
  | [value] => some (some value)
  | _ => none

/-- The first items of an array, as many as there are fields; all others are missing. -/
def positional : (fields : List String) → List Json → List (Option Json)
  | [], _ => []
  | _ :: fields, [] => none :: positional fields []
  | _ :: fields, item :: rest => some item :: positional fields rest

/-- The values of the fields of a record, if it has no field twice and no item without a field. A
closed record has no member without a field either. -/
def record? (closed : Bool) (fields : List String) : Json → Option (List (Option Json))
  | object members =>
    if closed ∧ members.any fun member => member.1 ∉ fields then none
    else fields.mapM (field? members)
  | array items => if items.length ≤ fields.length then some (positional fields items) else none
  | _ => none

/-- The key of the member that tells the kind of a record. -/
def tagKey : String := "type"

/-- The tag of a tagged record, and the record without it. -/
def tagged? : Json → Option (Json × Json)
  | object members =>
    match valuesOf tagKey members with
    | [tag] => some (tag, object (members.filter fun member => member.1 ≠ tagKey))
    | _ => none
  | array (tag :: items) => some (tag, array items)
  | _ => none

def string? : Json → Option String
  | string value => some value
  | _ => none

def array? : Json → Option (List Json)
  | array items => some items
  | _ => none

end Depot.Json
