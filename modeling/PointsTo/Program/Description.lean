import PointsTo.Json.Reader
import PointsTo.Json.Record
import PointsTo.Program.Basic

/-!
Descriptions of programs: classes with their fields, methods and bodies, all by name.
-/
namespace PointsTo.Description

open Json

structure Var where
  name : String
  type : String
  deriving Repr

structure Handle where
  kind : HandleKind
  method : String
  deriving Repr

/-- How a call with a named target selects its callee. -/
inductive InvokeKind
  | static | special | virtual | interface
  deriving DecidableEq, Repr

inductive Statement
  | new (lhs type : String)
  | assign (lhs rhs : String)
  | cast (lhs rhs type : String)
  | load (lhs base field : String)
  | store (base field rhs : String)
  | loadStatic (lhs field : String)
  | storeStatic (field rhs : String)
  | loadArray (lhs base : String)
  | storeArray (base rhs : String)
  | invoke (kind : InvokeKind) (method : String) (base : Option String) (args : List String)
      (result : Option String)
  | invokeDynamic (bootstrap name ret : String) (handle : Option Handle) (args : List String)
      (result : Option String)
  | ret (var : Option String)
  deriving Repr

structure Field where
  name : String
  type : String
  isStatic : Bool
  deriving Repr

structure Method where
  name : String
  params : List String
  ret : String
  isStatic : Bool
  isAbstract : Bool
  vars : List Var
  body : List Statement
  deriving Repr

structure Class where
  name : String
  superclass : Option String
  interfaces : List String
  isInterface : Bool
  isAbstract : Bool
  fields : List Field
  methods : List Method
  deriving Repr

end Description

structure Description where
  classes : List Description.Class
  entries : List String
  deriving Repr

namespace Description

open Json

def strings? : Json → Option (List String) := list? string?

def InvokeKind.ofJson? (v : Json) : Option InvokeKind := do
  match ← name? v with
  | "static" => some static
  | "special" => some special
  | "virtual" => some virtual
  | "interface" => some interface
  | _ => none

def Handle.ofJson? (v : Json) : Option Handle := do
  let [kind, method] ← fields? ["kind", "method"] v | none
  return ⟨← HandleKind.ofName? (← required name? kind), ← required string? method⟩

def Var.ofJson? (v : Json) : Option Var := do
  let [name, type] ← fields? ["name", "type"] v | none
  return ⟨← required string? name, ← required string? type⟩

def Field.ofJson? (v : Json) : Option Field := do
  let [name, type, isStatic] ← fields? ["name", "type", "static"] v | none
  return ⟨← required string? name, ← required string? type, ← optional bool? false isStatic⟩

/-- How deeply the arrays and objects of a whole document may be nested. -/
def nestingLimit : Nat := 127

/-- The levels that enclose a statement. -/
def statementLevel : Nat := 6

/-- The names of a statement's fields, by its operation, in their order of declaration. -/
def Statement.fieldNames? : String → Option (List String)
  | "new" => some ["lhs", "type"]
  | "assign" => some ["lhs", "rhs"]
  | "cast" => some ["lhs", "rhs", "type"]
  | "load" => some ["lhs", "base", "field"]
  | "store" => some ["base", "field", "rhs"]
  | "load_static" => some ["lhs", "field"]
  | "store_static" => some ["field", "rhs"]
  | "load_array" => some ["lhs", "base"]
  | "store_array" => some ["base", "rhs"]
  | "invoke" => some ["kind", "method", "base", "args", "result"]
  | "invoke_dynamic" => some ["bootstrap", "name", "ret", "handle", "args", "result"]
  | "return" => some ["var"]
  | _ => none

/-- The statement of an operation from the values of its fields. -/
def Statement.ofFields? (op : String) (values : List (Option Json)) : Option Statement :=
  let text := required string?
  let optionalText := optional (nullable? string?) none
  let texts := optional strings? []
  match op, values with
  | "new", [lhs, type] => return new (← text lhs) (← text type)
  | "assign", [lhs, rhs] => return assign (← text lhs) (← text rhs)
  | "cast", [lhs, rhs, type] => return cast (← text lhs) (← text rhs) (← text type)
  | "load", [lhs, base, field] => return load (← text lhs) (← text base) (← text field)
  | "store", [base, field, rhs] => return store (← text base) (← text field) (← text rhs)
  | "load_static", [lhs, field] => return loadStatic (← text lhs) (← text field)
  | "store_static", [field, rhs] => return storeStatic (← text field) (← text rhs)
  | "load_array", [lhs, base] => return loadArray (← text lhs) (← text base)
  | "store_array", [base, rhs] => return storeArray (← text base) (← text rhs)
  | "invoke", [kind, method, base, args, result] =>
    return invoke (← required InvokeKind.ofJson? kind) (← text method) (← optionalText base)
      (← texts args) (← optionalText result)
  | "invoke_dynamic", [bootstrap, name, type, handle, args, result] =>
    return invokeDynamic (← text bootstrap) (← text name) (← optional string? "void" type)
      (← optional (nullable? Handle.ofJson?) none handle) (← texts args) (← optionalText result)
  | "return", [var] => return Statement.ret (← optionalText var)
  | _, _ => none

/-- A statement carries its operation as a tag. Since the tag may stand anywhere in it, all of a
statement is read, its unknown fields included. -/
def Statement.ofJson? (v : Json) : Option Statement := do
  if !v.regular (nestingLimit - statementLevel) then none
  let (op, rest) ← tagged? "op" v
  ofFields? op (← fields? (← fieldNames? op) rest)

def Method.ofJson? (v : Json) : Option Method := do
  let [name, params, ret, isStatic, isAbstract, vars, body] ←
    fields? ["name", "params", "ret", "static", "abstract", "vars", "body"] v | none
  return {
    name := ← required string? name
    params := ← optional strings? [] params
    ret := ← optional string? "void" ret
    isStatic := ← optional bool? false isStatic
    isAbstract := ← optional bool? false isAbstract
    vars := ← optional (list? Var.ofJson?) [] vars
    body := ← optional (list? Statement.ofJson?) [] body }

def Class.ofJson? (v : Json) : Option Class := do
  let [name, superclass, interfaces, isInterface, isAbstract, fields, methods] ←
    fields? ["name", "super", "interfaces", "interface", "abstract", "fields", "methods"] v | none
  return {
    name := ← required string? name
    superclass := ← optional (nullable? string?) none superclass
    interfaces := ← optional strings? [] interfaces
    isInterface := ← optional bool? false isInterface
    isAbstract := ← optional bool? false isAbstract
    fields := ← optional (list? Field.ofJson?) [] fields
    methods := ← optional (list? Method.ofJson?) [] methods }

def ofJson? (v : Json) : Option Description := do
  let [classes, entries] ← fields? ["classes", "entries"] v | none
  return ⟨← required (list? Class.ofJson?) classes, ← optional strings? [] entries⟩

def read? (text : String) : Option Description := (Json.read? text).bind ofJson?

end Description

end PointsTo
