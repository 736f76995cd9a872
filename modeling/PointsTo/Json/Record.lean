import PointsTo.Json.Value

/-!
Decoding JSON values into records.

A record is an object with the record's fields as keys, in any order and among unknown keys, or an
array of the fields in their order of declaration, whose last fields may be left out.
-/
namespace PointsTo.Json

def string? : Json → Option String
  | string text => text
  | _ => none

def bool? : Json → Option Bool
  | bool b => some b
  | _ => none

def natural? : Json → Option Nat
  | number (.natural n) => some n
  | _ => none

def list? {α : Type} (item? : Json → Option α) : Json → Option (List α)
  | array items => items.mapM item?
  | _ => none

/-- A value that may be null. -/
def nullable? {α : Type} (item? : Json → Option α) : Json → Option (Option α)
  | null => some none
  | v => (item? v).map some

/-- The value of a key that occurs at most once; nothing when it occurs again. -/
def lookup? (key : String) (members : List (Text × Json)) : Option (Option Json) :=
  match members.filter fun (k, _) => k == some key with
  | [] => some none
  | [(_, v)] => some (some v)
  | _ => none

/-- The values of the given fields in an object, absent where the object has none. -/
def namedFields? (fields : List String) (members : List (Text × Json)) :
    Option (List (Option Json)) :=
  if members.all fun (k, _) => k.isSome then fields.mapM fun f => lookup? f members else none

/-- The values of the given fields in an array, absent beyond its end. -/
def placedFields? (fields : List String) (items : List Json) : Option (List (Option Json)) :=
  if items.length ≤ fields.length then
    some (items.map some ++ List.replicate (fields.length - items.length) none)
  else none

def fields? (fields : List String) : Json → Option (List (Option Json))
  | object members => namedFields? fields members
  | array items => placedFields? fields items
  | _ => none

def required {α : Type} (item? : Json → Option α) (field : Option Json) : Option α :=
  field.bind item?

/-- A field with a value to stand in when it is left out. -/
def optional {α : Type} (item? : Json → Option α) (default : α) : Option Json → Option α
  | none => some default
  | some v => item? v

/-- One of several names, or an object whose only key is a name and whose value is empty. -/
def name? : Json → Option String
  | string text => text
  | object [(key, null)] => key
  | object [(key, object [])] => key
  | _ => none

/-- The tag of a record and the rest of it: the value of the key `tag`, or the first item. -/
def tagged? (tag : String) : Json → Option (String × Json)
  | object members => do
    let name ← (← lookup? tag members).bind string?
    return (name, object (members.filter fun (k, _) => k != some tag))
  | array (first :: rest) => (string? first).map fun name => (name, array rest)
  | _ => none

end PointsTo.Json
