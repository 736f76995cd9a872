import PointsTo.Json.Value
import PointsTo.Text.Cut
import PointsTo.Text.Numeral
import PointsTo.Text.Quotient

/-!
Reading a JSON document.

The grammar is that of RFC 8259. Half surrogates and numbers out of range are marked in the value
and not refused, since a document may hold them where nobody looks.
-/
namespace PointsTo.Json

open Text

def isSpace (c : Char) : Bool := c == ' ' || c == '\t' || c == '\n' || c == '\r'

def skipSpace (s : List Char) : List Char := s.dropWhile isSpace

/-- A part of a quoted string: a character, or the code of a `\u` escape. -/
inductive Piece
  | plain (c : Char)
  | code (n : Nat)

def hexDigit? (c : Char) : Option Nat :=
  let n := c.toNat
  if c.isDigit then some (n - '0'.toNat)
  else if 'a' ≤ c ∧ c ≤ 'f' then some (n - 'a'.toNat + 10)
  else if 'A' ≤ c ∧ c ≤ 'F' then some (n - 'A'.toNat + 10)
  else none

def hexCode? (a b c d : Char) : Option Nat := do
  return (((← hexDigit? a) * 16 + (← hexDigit? b)) * 16 + (← hexDigit? c)) * 16 + (← hexDigit? d)

def simpleEscape? : Char → Option Char
  | '"' => some '"'
  | '\\' => some '\\'
  | '/' => some '/'
  | 'b' => some '\x08'
  | 'f' => some '\x0c'
  | 'n' => some '\n'
  | 'r' => some '\r'
  | 't' => some '\t'
  | _ => none

/-- The pieces up to the closing quote, and what follows it. -/
def quotedPieces : List Char → Option (List Piece × List Char)
  | [] => none
  | '"' :: rest => some ([], rest)
  | '\\' :: 'u' :: a :: b :: c :: d :: rest => do
    let n ← hexCode? a b c d
    let (pieces, rest) ← quotedPieces rest
    return (.code n :: pieces, rest)
  | '\\' :: c :: rest => do
    let c ← simpleEscape? c
    let (pieces, rest) ← quotedPieces rest
    return (.plain c :: pieces, rest)
  | c :: rest => do
    if c.toNat < 0x20 then none
    let (pieces, rest) ← quotedPieces rest
    return (.plain c :: pieces, rest)

def isLead (n : Nat) : Bool := 0xd800 ≤ n && n < 0xdc00

def isTrail (n : Nat) : Bool := 0xdc00 ≤ n && n < 0xe000

/-- The characters that the pieces spell, unless a surrogate lacks its partner. -/
def assemble : List Piece → Option (List Char)
  | [] => some []
  | .plain c :: rest => (assemble rest).map (c :: ·)
  | .code hi :: rest =>
    if isLead hi then
      match rest with
      | .code lo :: rest =>
        if isTrail lo then
          (assemble rest).map (Char.ofNat (0x10000 + (hi - 0xd800) * 0x400 + (lo - 0xdc00)) :: ·)
        else none
      | _ => none
    else if isTrail hi then none
    else (assemble rest).map (Char.ofNat hi :: ·)

/-- The string whose opening quote has been read. -/
def quoted (s : List Char) : Option (Text × List Char) :=
  (quotedPieces s).map fun (pieces, rest) => ((assemble pieces).map String.ofList, rest)

/-- The digits at the start of a text, and the rest. -/
def digitRun (s : List Char) : List Char × List Char := s.span Char.isDigit

/-- Appends digits to a significand as long as it stays below `2 ^ 64`; the digits that are left
over. -/
def significand (start : Nat) : List Char → Nat × List Char
  | [] => (start, [])
  | c :: rest =>
    let longer := 10 * start + (digit? c).getD 0
    if longer < bound64 then significand longer rest else (start, c :: rest)

/-- The significand and the power of ten of a numeral's digits. Digits beyond the significand only
count as places when they are whole ones, and not at all after the point. -/
def parts (whole fraction : List Char) : Nat × Int :=
  let (leading, dropped) := significand 0 whole
  let (all, ignored) := significand leading fraction
  (all, dropped.length - ((fraction.length - ignored.length : Nat) : Int))

/-- The least number that is too large for a double. -/
def doubleBound : Nat := Nat.pow 2 1024 - Nat.pow 2 970

/-- Whether a product of two doubles is one: `mantissa` and `10 ^ exponent`, each rounded to 53
bits. A number below one is always in range, and no double is as large as `10 ^ 309`. -/
def fitsDouble (mantissa : Nat) (exponent : Int) : Bool :=
  if mantissa = 0 ∨ exponent < 0 then true
  else if exponent ≤ 308 then
    decide (leading53 mantissa * leading53 (Nat.pow 10 exponent.toNat) < doubleBound)
  else false

/-- A whole part: zero, or digits that do not start with zero. -/
def wholePart (s : List Char) : Option (List Char × List Char) :=
  match digitRun s with
  | ([], _) => none
  | ('0' :: _ :: _, _) => none
  | (whole, rest) => some (whole, rest)

def fractionPart : List Char → Option (Option (List Char) × List Char)
  | '.' :: s => match digitRun s with
    | ([], _) => none
    | (fraction, rest) => some (some fraction, rest)
  | s => some (none, s)

def exponentPart : List Char → Option (Option Int × List Char)
  | c :: s =>
    if c = 'e' ∨ c = 'E' then
      let (negative, s) := match s with
        | '-' :: s => (true, s)
        | '+' :: s => (false, s)
        | s => (false, s)
      match digitRun s with
      | ([], _) => none
      | (exponent, rest) => (digits? exponent).map fun n =>
        (some (if negative then -(n : Int) else n), rest)
    else some (none, c :: s)
  | [] => some (none, [])

/-- An unsigned numeral: its number, and what follows. -/
def unsigned (negative : Bool) (s : List Char) : Option (Number × List Char) := do
  let (whole, s₁) ← wholePart s
  let (fraction, s₂) ← fractionPart s₁
  let (exponent, rest) ← exponentPart s₂
  let n ← digits? whole
  if negative || fraction.isSome || exponent.isSome || bound64 ≤ n then
    let written := s.take (s.length - rest.length)
    let numeral := String.ofList (if negative then '-' :: written else written)
    let (mantissa, power) := parts whole (fraction.getD [])
    return (.other numeral (fitsDouble mantissa (exponent.getD 0 + power)), rest)
  else return (.natural n, rest)

mutual

/-- The value at the start of a text, after spaces, and the rest. -/
def value : (fuel : Nat) → List Char → Option (Json × List Char)
  | 0, _ => none
  | fuel + 1, s => match skipSpace s with
    | 'n' :: 'u' :: 'l' :: 'l' :: rest => some (null, rest)
    | 't' :: 'r' :: 'u' :: 'e' :: rest => some (bool true, rest)
    | 'f' :: 'a' :: 'l' :: 's' :: 'e' :: rest => some (bool false, rest)
    | '"' :: rest => (quoted rest).map fun (text, rest) => (string text, rest)
    | '[' :: rest => match skipSpace rest with
      | ']' :: rest => some (array [], rest)
      | rest => (items fuel rest).map fun (values, rest) => (array values, rest)
    | '\x7b' :: rest => match skipSpace rest with
      | '\x7d' :: rest => some (object [], rest)
      | rest => (members fuel rest).map fun (pairs, rest) => (object pairs, rest)
    | '-' :: rest => (unsigned true rest).map fun (n, rest) => (number n, rest)
    | rest => (unsigned false rest).map fun (n, rest) => (number n, rest)

/-- The items of an array up to its closing bracket. -/
def items : (fuel : Nat) → List Char → Option (List Json × List Char)
  | 0, _ => none
  | fuel + 1, s => do
    let (first, rest) ← value fuel s
    match skipSpace rest with
    | ',' :: rest =>
      let (others, rest) ← items fuel rest
      return (first :: others, rest)
    | ']' :: rest => return ([first], rest)
    | _ => none

/-- The members of an object up to its closing brace. -/
def members : (fuel : Nat) → List Char → Option (List (Text × Json) × List Char)
  | 0, _ => none
  | fuel + 1, s => match skipSpace s with
    | '"' :: rest => do
      let (key, rest) ← quoted rest
      match skipSpace rest with
      | ':' :: rest =>
        let (first, rest) ← value fuel rest
        match skipSpace rest with
        | ',' :: rest =>
          let (others, rest) ← members fuel rest
          return ((key, first) :: others, rest)
        | '\x7d' :: rest => return ([(key, first)], rest)
        | _ => none
      | _ => none
    | _ => none

end

/-- The value that a whole text denotes. -/
def read? (text : String) : Option Json :=
  let s := text.toList
  match value (2 * s.length + 2) s with
  | some (v, rest) => if (skipSpace rest).isEmpty then some v else none
  | none => none

end PointsTo.Json
