import PointsTo.Json.Value

/-!
Writing JSON values, on one line or laid out over several.
-/
namespace PointsTo.Json

def hexDigit (n : Nat) : Char := (Nat.toDigits 16 n).headD '0'

/-- A character as it stands between quotes. -/
def escaped (c : Char) : String :=
  match c with
  | '"' => "\\\""
  | '\\' => "\\\\"
  | '\n' => "\\n"
  | '\r' => "\\r"
  | '\t' => "\\t"
  | '\x08' => "\\b"
  | '\x0c' => "\\f"
  | c =>
    if c.toNat < 0x20 then
      String.ofList ['\\', 'u', '0', '0', hexDigit (c.toNat / 16), hexDigit (c.toNat % 16)]
    else c.toString

def appendQuoted (out s : String) : String :=
  (s.toList.foldl (fun out c => out ++ escaped c) (out.push '"')).push '"'

def appendText (out : String) (text : Text) : String := appendQuoted out (text.getD "\ufffd")

def Number.numeral : Number → String
  | natural n => toString n
  | other numeral _ => numeral

/-- The line break before an item at a depth, when the layout has line breaks. -/
def appendBreak (out : String) (depth : Option Nat) : String :=
  match depth with
  | none => out
  | some d => out ++ "\n" ++ "".pushn ' ' (2 * d)

mutual

/-- Appends a value. With a depth, every item stands on a line of its own, indented by two spaces
for each level. -/
def append (depth : Option Nat) (out : String) : Json → String
  | null => out ++ "null"
  | bool b => out ++ if b then "true" else "false"
  | number n => out ++ n.numeral
  | string text => appendText out text
  | array [] => out ++ "[]"
  | array (item :: rest) =>
    let inner := depth.map (· + 1)
    let out := append inner (appendBreak (out.push '[') inner) item
    (appendBreak (appendItems inner out rest) depth).push ']'
  | object [] => out ++ "\x7b\x7d"
  | object ((key, item) :: rest) =>
    let inner := depth.map (· + 1)
    let out := appendColon depth (appendText (appendBreak (out.push '\x7b') inner) key)
    (appendBreak (appendMembers inner (append inner out item) rest) depth).push '\x7d'

def appendItems (depth : Option Nat) (out : String) : List Json → String
  | [] => out
  | item :: rest =>
    appendItems depth (append depth (appendBreak (out.push ',') depth) item) rest

def appendMembers (depth : Option Nat) (out : String) : List (Text × Json) → String
  | [] => out
  | (key, item) :: rest =>
    let out := appendColon depth (appendText (appendBreak (out.push ',') depth) key)
    appendMembers depth (append depth out item) rest

def appendColon (depth : Option Nat) (out : String) : String :=
  out ++ if depth.isSome then ": " else ":"

end

/-- The value on one line, without spaces. -/
def compact (v : Json) : String := append none "" v

/-- The value over several lines. -/
def pretty (v : Json) : String := append (some 0) "" v

end PointsTo.Json
