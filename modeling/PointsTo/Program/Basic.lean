import PointsTo.Roster
import PointsTo.Table

/-!
The entities of an analysed program: types, fields, methods with their bodies, variables and call
sites.
-/
namespace PointsTo

/-- What a class or an interface says about its place in the hierarchy. -/
structure ClassShape where
  superclass : Option TypeId
  interfaces : List TypeId
  isInterface : Bool
  isAbstract : Bool
  deriving DecidableEq, Repr

inductive TypeForm
  /-- A class or an interface. -/
  | nominal (shape : ClassShape)
  | array (elem : TypeId)
  | primitive
  /-- The type of the null reference, below every reference type. -/
  | null
  deriving DecidableEq, Repr

structure TypeDecl where
  name : String
  form : TypeForm
  deriving DecidableEq, Repr

structure FieldDecl where
  name : String
  owner : TypeId
  type : TypeId
  isStatic : Bool
  deriving DecidableEq, Repr

/-- What a method must share with another to override it: its name, its parameter types, and its
result type, which a void method lacks. -/
structure Subsignature where
  name : String
  params : List TypeId
  result : Option TypeId
  deriving DecidableEq, Repr

instance : Coded Subsignature :=
  .along (fun s => (s.name, s.params, s.result)) fun {a b} h => by cases a; cases b; simp_all

/-- A method as a call site names it. -/
structure MethodRef where
  owner : TypeId
  sub : Subsignature
  deriving DecidableEq, Repr

instance : Coded MethodRef :=
  .along (fun r => (r.owner, r.sub)) fun {a b} h => by cases a; cases b; simp_all

structure VarDecl where
  name : String
  type : TypeId
  method : MethodId
  deriving DecidableEq, Repr

inductive Statement
  | new (lhs : VarId) (type : TypeId)
  | assign (lhs rhs : VarId)
  | cast (lhs rhs : VarId) (type : TypeId)
  | loadField (lhs base : VarId) (field : FieldId)
  | storeField (base : VarId) (field : FieldId) (rhs : VarId)
  | loadStatic (lhs : VarId) (field : FieldId)
  | storeStatic (field : FieldId) (rhs : VarId)
  | loadArray (lhs base : VarId)
  | storeArray (base rhs : VarId)
  | invoke (site : CallSiteId)
  | ret (var : Option VarId)
  deriving DecidableEq, Repr

structure MethodDecl where
  ref : MethodRef
  isStatic : Bool
  isAbstract : Bool
  /-- The variable of the receiver, absent in static methods. -/
  receiver : Option VarId := none
  params : List VarId := []
  returns : List VarId := []
  body : Array Statement := #[]
  deriving DecidableEq, Repr

namespace MethodDecl

def name (m : MethodDecl) : String := m.ref.sub.name

def isConstructor (m : MethodDecl) : Bool := m.name == "<init>"

end MethodDecl

inductive HandleKind
  | getField | getStatic | putField | putStatic
  | invokeVirtual | invokeStatic | invokeSpecial | newInvokeSpecial | invokeInterface
  deriving DecidableEq, Repr

namespace HandleKind

def name : HandleKind → String
  | getField => "GetField"
  | getStatic => "GetStatic"
  | putField => "PutField"
  | putStatic => "PutStatic"
  | invokeVirtual => "InvokeVirtual"
  | invokeStatic => "InvokeStatic"
  | invokeSpecial => "InvokeSpecial"
  | newInvokeSpecial => "NewInvokeSpecial"
  | invokeInterface => "InvokeInterface"

def all : List HandleKind :=
  [getField, getStatic, putField, putStatic, invokeVirtual, invokeStatic, invokeSpecial,
    newInvokeSpecial, invokeInterface]

def ofName? (name : String) : Option HandleKind := all.find? fun k => k.name == name

theorem ofName?_name (k : HandleKind) : ofName? k.name = some k := by cases k <;> rfl

end HandleKind

/-- The method that a dynamic call site passes to its bootstrap method. -/
structure MethodHandle where
  kind : HandleKind
  target : MethodRef
  deriving DecidableEq, Repr

/-- The method that links a dynamic call site at run time. -/
inductive Bootstrap
  | lambda
  | stringConcat
  | other (name : String)
  deriving DecidableEq, Repr

def Bootstrap.name : Bootstrap → String
  | lambda => "LambdaMetafactory"
  | stringConcat => "StringConcatFactory"
  | other name => name

structure DynamicCall where
  bootstrap : Bootstrap
  handle : Option MethodHandle
  deriving DecidableEq, Repr

inductive CallKind
  | static
  /-- Constructors, private methods and calls to a super class: there is a receiver, but the
  target does not depend on it. -/
  | special
  | virtual
  | interface
  /-- A call site that a bootstrap method links at run time. -/
  | dynamic (call : DynamicCall)
  deriving DecidableEq, Repr

namespace CallKind

/-- Whether the target depends on the receiver's type. -/
def isDispatched : CallKind → Bool
  | virtual | interface => true
  | _ => false

def hasReceiver : CallKind → Bool
  | special | virtual | interface => true
  | _ => false

end CallKind

structure CallSite where
  container : MethodId
  /-- The position among the call sites of the container. -/
  index : Nat
  kind : CallKind
  target : MethodRef
  base : Option VarId
  args : List VarId
  result : Option VarId
  deriving DecidableEq, Repr

/-- Where a variable is the base of an access or the receiver of a dispatched call. -/
structure VarUses where
  /-- The field and the left-hand side of every load. -/
  loads : List (FieldId × VarId) := []
  /-- The field and the right-hand side of every store. -/
  stores : List (FieldId × VarId) := []
  arrayLoads : List VarId := []
  arrayStores : List VarId := []
  invokes : List CallSiteId := []
  deriving DecidableEq, Repr

namespace VarUses

instance : Inhabited VarUses := ⟨{}⟩

def hasAccesses (u : VarUses) : Bool :=
  !(u.loads.isEmpty && u.stores.isEmpty && u.arrayLoads.isEmpty && u.arrayStores.isEmpty)

def isEmpty (u : VarUses) : Bool := !u.hasAccesses && u.invokes.isEmpty

end VarUses

/-- The declarations of a program. -/
structure Catalog where
  types : Table .type TypeDecl.name := ∅
  fields : Roster .field FieldDecl := ∅
  methods : Roster .method MethodDecl := ∅
  vars : Roster .var VarDecl := ∅
  callSites : Roster .callSite CallSite := ∅
  /-- The methods that an analysis starts from. -/
  entries : List MethodId := []

namespace Catalog

instance : Inhabited Catalog := ⟨{}⟩

def typeName? (c : Catalog) (t : TypeId) : Option String := c.types[t]?.map TypeDecl.name

def type? (c : Catalog) (name : String) : Option TypeId := c.types.find? name

def shape? (c : Catalog) (t : TypeId) : Option ClassShape :=
  match c.types[t]? with
  | some ⟨_, .nominal shape⟩ => some shape
  | _ => none

def isInterface (c : Catalog) (t : TypeId) : Bool := (c.shape? t).any (·.isInterface)

/-- Whether the values of a type are references. -/
def isReference (c : Catalog) (t : TypeId) : Bool :=
  match c.types[t]? with
  | some ⟨_, .primitive⟩ | none => false
  | some _ => true

/-- The reference `<owner: result name(params)>` as it is written. -/
def refSignature? (c : Catalog) (r : MethodRef) : Option String := do
  let owner ← c.typeName? r.owner
  let result ← match r.sub.result with
    | none => some "void"
    | some t => c.typeName? t
  let params := ",".intercalate (← r.sub.params.mapM c.typeName?)
  return s!"<{owner}: {result} {r.sub.name}({params})>"

def signature? (c : Catalog) (m : MethodId) : Option String := do
  c.refSignature? (← c.methods[m]?).ref

/-- A call site as `<container>[index]name`. -/
def siteText? (c : Catalog) (s : CallSiteId) : Option String := do
  let site ← c.callSites[s]?
  let container ← c.signature? site.container
  return s!"{container}[{site.index}]{site.target.sub.name}"

def fieldText? (c : Catalog) (f : FieldId) : Option String := do
  let field ← c.fields[f]?
  let owner ← c.typeName? field.owner
  return s!"{owner}.{field.name}"

end Catalog

end PointsTo
