import PointsTo.Json.Value
import PointsTo.Program.Hierarchy

/-!
A program as a JSON document that lists its entities by their ids.
-/
namespace PointsTo

namespace Listing

def id {k : Entity} (i : Id k) : Json := .ofNat i.index

def ids {k : Entity} (is : List (Id k)) : Json := .array (is.map id)

def orNull {α : Type} (f : α → Json) (a : Option α) : Json := (a.map f).getD .null

/-! ### Statements -/

/-- A named operand: the kind of entity and its id. -/
structure Operand where
  name : String
  kind : String
  index : Nat

namespace Operand

def text (o : Operand) : String := s!"{o.name}: {o.kind}({o.index})"

def var (name : String) (v : VarId) : Operand := ⟨name, "VarId", v.index⟩

def field (f : FieldId) : Operand := ⟨"field", "FieldId", f.index⟩

def type (t : TypeId) : Operand := ⟨"ty", "TypeId", t.index⟩

end Operand

def operation (name : String) (operands : List Operand) : String :=
  name ++ " \x7b " ++ ", ".intercalate (operands.map Operand.text) ++ " \x7d"

open Operand in
def statement : Statement → String
  | .new lhs t => operation "New" [var "lhs" lhs, type t]
  | .assign lhs rhs => operation "Assign" [var "lhs" lhs, var "rhs" rhs]
  | .cast lhs rhs t => operation "Cast" [var "lhs" lhs, var "rhs" rhs, type t]
  | .loadField lhs base f => operation "LoadField" [var "lhs" lhs, var "base" base, field f]
  | .storeField base f rhs => operation "StoreField" [var "base" base, field f, var "rhs" rhs]
  | .loadStatic lhs f => operation "LoadStatic" [var "lhs" lhs, field f]
  | .storeStatic f rhs => operation "StoreStatic" [field f, var "rhs" rhs]
  | .loadArray lhs base => operation "LoadArray" [var "lhs" lhs, var "base" base]
  | .storeArray base rhs => operation "StoreArray" [var "base" base, var "rhs" rhs]
  | .invoke s => s!"Invoke(CallSiteId({s.index}))"
  | .ret none => "Return(None)"
  | .ret (some v) => s!"Return(Some(VarId({v.index})))"

/-! ### Rows -/

def type (t : TypeDecl) : Json :=
  .array (.ofString t.name :: match t.form with
    | .nominal s => [.ofString "class", orNull id s.superclass, ids s.interfaces,
        .bool s.isInterface, .bool s.isAbstract]
    | .array elem => [.ofString "array", id elem]
    | .primitive => [.ofString "primitive"]
    | .null => [.ofString "null"])

def field? (c : Catalog) (f : FieldId) (decl : FieldDecl) : Option Json := do
  return .array [.ofString (← c.fieldText? f), id decl.type, .bool decl.isStatic]

def method? (c : Catalog) (m : MethodDecl) : Option Json := do
  return .ofMembers [("sig", .ofString (← c.refSignature? m.ref)), ("static", .bool m.isStatic),
    ("abstract", .bool m.isAbstract), ("ctor", .bool m.isConstructor),
    ("this", orNull id m.receiver), ("params", ids m.params), ("ret_vars", ids m.returns),
    ("stmts", .array (m.body.toList.map fun s => .ofString (statement s)))]

def var (v : VarDecl) : Json := .array [.ofString v.name, id v.type, id v.method]

def pairs {k l : Entity} (ps : List (Id k × Id l)) : Json :=
  .array (ps.map fun (a, b) => .array [id a, id b])

def uses (v : VarId) (u : VarUses) : Json :=
  .array [id v, pairs u.loads, pairs u.stores, ids u.arrayLoads, ids u.arrayStores, ids u.invokes]

def callKind : CallKind → Json
  | .static => .array [.ofString "Static"]
  | .special => .array [.ofString "Special"]
  | .virtual => .array [.ofString "Virtual"]
  | .interface => .array [.ofString "Interface"]
  | .dynamic call => .array [.ofString "Dynamic", .ofString call.bootstrap.name]

def handle? (c : Catalog) : CallKind → Option Json
  | .dynamic ⟨_, some handle⟩ => do
    return .array [.ofString handle.kind.name, .ofString (← c.refSignature? handle.target)]
  | _ => some .null

def callSite? (c : Catalog) (s : CallSiteId) (decl : CallSite) : Option Json := do
  return .ofMembers [("name", .ofString (← c.siteText? s)), ("kind", callKind decl.kind),
    ("dispatched", .bool decl.kind.isDispatched),
    ("ref", .ofString (← c.refSignature? decl.target)), ("base", orNull id decl.base),
    ("args", ids decl.args), ("result", orNull id decl.result),
    ("handle", ← handle? c decl.kind)]

end Listing

def Program.listing? (p : Program) : Option Json := do
  let c := p.toCatalog
  let fields ← p.fields.withIds.mapM fun (f, decl) => Listing.field? c f decl
  let methods ← p.methods.toList.mapM (Listing.method? c)
  let sites ← p.callSites.withIds.mapM fun (s, decl) => Listing.callSite? c s decl
  let uses := p.uses.withIds.filter fun (_, u) => !u.isEmpty
  return .ofMembers [("types", .array (p.types.toList.map Listing.type)),
    ("fields", .array fields), ("methods", .array methods),
    ("vars", .array (p.vars.toList.map Listing.var)),
    ("uses", .array (uses.map fun (v, u) => Listing.uses v u)), ("sites", .array sites),
    ("entries", Listing.ids p.entries),
    ("counts", .array [.ofNat p.methods.size, .ofNat p.callSites.size])]

end PointsTo
