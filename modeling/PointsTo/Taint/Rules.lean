import PointsTo.Ascending
import PointsTo.Fault
import PointsTo.Json.Reader
import PointsTo.Json.Record
import PointsTo.Program.Hierarchy
import PointsTo.Taint.Position

/-!
Taint rules: the methods whose results are tainted, the methods that must not see tainted
arguments, and the methods that carry taint from one variable of a call to another.

Rules are written with the names of methods and types, and are resolved against a program; one
rule that does not fit the program makes the whole table unusable.
-/
namespace PointsTo.Taint

/-- The type of the values that a method yields. -/
structure SourceRule (M T : Type) where
  method : M
  type : T
  deriving DecidableEq, Repr

structure SinkRule (M : Type) where
  method : M
  index : Nat
  deriving DecidableEq, Repr

/-- The type that a value takes on when a method carries it. -/
structure TransferRule (M T : Type) where
  method : M
  source : Position
  target : Position
  type : T
  deriving DecidableEq, Repr

structure RuleTable (M T : Type) where
  sources : List (SourceRule M T) := []
  sinks : List (SinkRule M) := []
  transfers : List (TransferRule M T) := []
  deriving DecidableEq, Repr

/-- Rules as they are written. -/
abbrev WrittenRules := RuleTable String String

/-- Rules resolved against a program. -/
abbrev Rules := RuleTable MethodId TypeId

namespace WrittenRules

open Json

def position? : Json → Option Position
  | .number (.natural n) => some (.arg n)
  | .string (some name) => Position.ofName? name
  | _ => none

def source? (v : Json) : Option (SourceRule String String) := do
  let [method, type] ← fields? ["method", "type"] v | none
  return ⟨← required string? method, ← required string? type⟩

def sink? (v : Json) : Option (SinkRule String) := do
  let [method, index] ← fields? ["method", "index"] v | none
  return ⟨← required string? method, ← required natural? index⟩

def transfer? (v : Json) : Option (TransferRule String String) := do
  let [method, source, target, type] ← fields? ["method", "from", "to", "type"] v | none
  return ⟨← required string? method, ← required position? source, ← required position? target,
    ← required string? type⟩

def ofJson? (v : Json) : Option WrittenRules := do
  let [sources, sinks, transfers] ← fields? ["sources", "sinks", "transfers"] v | none
  return ⟨← optional (list? source?) [] sources, ← optional (list? sink?) [] sinks,
    ← optional (list? transfer?) [] transfers⟩

def read? (text : String) : Option WrittenRules := (Json.read? text).bind ofJson?

end WrittenRules

namespace Rules

def method (p : Program) (signature : String) : Except Fault MethodId :=
  match p.method? signature with
  | some m => pure m
  | none => throw (.config signature "no such method")

def type (p : Program) (key name : String) : Except Fault TypeId :=
  match p.type? name with
  | some t => pure t
  | none => throw (.config key s!"no such type `{name}`")

/-- Whether calls of a method have a variable at a position. -/
def hasPosition (m : MethodDecl) : Position → Bool
  | .base => !m.isStatic
  | .result => m.ref.sub.result.isSome
  | .arg i => decide (i < m.ref.sub.params.length)

def checkPosition (p : Program) (key : String) (m : MethodId) (position : Position) :
    Except Fault Unit :=
  if (p.methods[m]?).any fun decl => hasPosition decl position then pure ()
  else throw (.config key s!"position `{position.name}` does not exist")

def source (p : Program) (r : SourceRule String String) :
    Except Fault (SourceRule MethodId TypeId) := do
  return ⟨← method p r.method, ← type p r.method r.type⟩

def sink (p : Program) (r : SinkRule String) : Except Fault (SinkRule MethodId) := do
  let m ← method p r.method
  checkPosition p r.method m (.arg r.index)
  return ⟨m, r.index⟩

def transfer (p : Program) (r : TransferRule String String) :
    Except Fault (TransferRule MethodId TypeId) := do
  let m ← method p r.method
  checkPosition p r.method m r.source
  checkPosition p r.method m r.target
  return ⟨m, r.source, r.target, ← type p r.method r.type⟩

/-- Resolves a table against a program, first the sources, then the sinks, then the transfers. -/
def resolve (p : Program) (w : WrittenRules) : Except Fault Rules := do
  return ⟨← w.sources.mapM (source p), ← w.sinks.mapM (sink p), ← w.transfers.mapM (transfer p)⟩

/-- The rules that a document holds; `origin` is named when it cannot be read. -/
def read (p : Program) (origin text : String) : Except Fault Rules :=
  match WrittenRules.read? text with
  | some w => resolve p w
  | none => throw (.config origin Fault.malformed)

end Rules

namespace RuleTable

/-- The types of the values that a method yields, in the order of the rules. -/
def sourceTypes (r : Rules) (m : MethodId) : List TypeId :=
  (r.sources.filter fun s => s.method == m).map SourceRule.type

/-- The transfers of a method, in the order of the rules. -/
def transfersOf (r : Rules) (m : MethodId) : List (TransferRule MethodId TypeId) :=
  r.transfers.filter fun t => t.method == m

/-- The methods of some rules, each once, in ascending order. -/
def distinctMethods (ms : List MethodId) : List MethodId :=
  ascending (fun a b => decide (a ≤ b)) ms

/-- The sources, grouped by their methods. -/
def sourcesByMethod (r : Rules) : List (MethodId × List TypeId) :=
  (distinctMethods (r.sources.map SourceRule.method)).map fun m => (m, sourceTypes r m)

/-- The transfers, grouped by their methods. -/
def transfersByMethod (r : Rules) : List (MethodId × List (TransferRule MethodId TypeId)) :=
  (distinctMethods (r.transfers.map TransferRule.method)).map fun m => (m, transfersOf r m)

end RuleTable

end PointsTo.Taint
