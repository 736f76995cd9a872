/-!
JSON values as they are written, with the marks that a lenient reader has to keep.
-/
namespace PointsTo

namespace Json

/-- A number below `2 ^ 64` without sign, point or exponent, or any other numeral together with
whether its value lies in the range of a double. -/
inductive Number
  | natural (n : Nat)
  | other (numeral : String) (inRange : Bool)
  deriving DecidableEq, Repr

/-- A string, absent when its escapes leave half of a surrogate pair. -/
abbrev Text := Option String

end Json

inductive Json
  | null
  | bool (b : Bool)
  | number (n : Json.Number)
  | string (text : Json.Text)
  | array (items : List Json)
  | object (members : List (Json.Text × Json))
  deriving Repr

namespace Json

instance : Inhabited Json := ⟨null⟩

def ofNat (n : Nat) : Json := number (.natural n)

def ofString (s : String) : Json := string (some s)

/-- An object from keys and values. -/
def ofMembers (members : List (String × Json)) : Json :=
  object (members.map fun (key, value) => (some key, value))

mutual

/-- Whether all strings have a text, all numbers are in range, and at most `depth` arrays and
objects are nested. -/
def regular (depth : Nat) : Json → Bool
  | null => true
  | bool _ => true
  | number (.natural _) => true
  | number (.other _ inRange) => inRange
  | string text => text.isSome
  | array items => depth != 0 && regularItems (depth - 1) items
  | object members => depth != 0 && regularMembers (depth - 1) members

def regularItems (depth : Nat) : List Json → Bool
  | [] => true
  | value :: rest => regular depth value && regularItems depth rest

def regularMembers (depth : Nat) : List (Text × Json) → Bool
  | [] => true
  | (key, value) :: rest => key.isSome && regular depth value && regularMembers depth rest

end

end Json

end PointsTo
