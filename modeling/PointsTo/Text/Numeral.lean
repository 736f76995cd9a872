/-!
Unsigned decimal numerals.
-/
namespace PointsTo.Text

def digit? (c : Char) : Option Nat := if c.isDigit then some (c.toNat - '0'.toNat) else none

/-- The number written by a list of digits. -/
def digits? : List Char → Option Nat :=
  go 0
where
  go (acc : Nat) : List Char → Option Nat
    | [] => some acc
    | c :: s => (digit? c).bind fun d => go (10 * acc + d) s

/-- A number below `bound`: digits, at least one, after an optional plus sign. -/
def natBelow? (bound : Nat) (s : List Char) : Option Nat :=
  let unsigned := match s with
    | '+' :: rest => rest
    | _ => s
  if unsigned.isEmpty then none else (digits? unsigned).filter (· < bound)

/-- The bounds of numbers of 32 and of 64 bits. -/
def bound32 : Nat := Nat.pow 2 32

def bound64 : Nat := Nat.pow 2 64

end PointsTo.Text
