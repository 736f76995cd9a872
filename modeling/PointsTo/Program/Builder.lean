import PointsTo.Log
import PointsTo.Program.Hierarchy

/-!
Building a program declaration by declaration.

A declaration that contradicts another one, or a statement that does not fit its method, is noted
as a problem and does not stop the construction; `Builder.build` refuses a program with problems.
Only an id that names nothing stops a step.
-/
namespace PointsTo

structure Builder where
  catalog : Catalog := {}
  problems : List String := []

/-- A step of a construction. What was declared before a fault stays declared. -/
abbrev Build := ExceptT Fault (StateM Builder)

namespace Builder

instance : Inhabited Builder := ⟨{}⟩

def known {α : Type} (entity : Option α) : Build α :=
  match entity with
  | some a => pure a
  | none => throw .unknownId

def note (problem : String) : Build Unit :=
  modify fun b => { b with problems := b.problems ++ [problem] }

def modifyCatalog (f : Catalog → Catalog) : Build Unit :=
  modify fun b => { b with catalog := f b.catalog }

def declarations : Build Catalog := return (← get).catalog

/-! ### Types -/

def addType (name : String) (form : TypeForm) : Build TypeId := do
  let c ← declarations
  let (id, types) := c.types.intern ⟨name, form⟩
  modifyCatalog fun c => { c with types }
  if c.types[id]?.any fun t => t.form != form then
    note s!"type `{name}` is declared twice"
  return id

def addClass (name : String) (superclass : Option TypeId) (interfaces : List TypeId) :
    Build TypeId :=
  addType name (.nominal ⟨superclass, interfaces, false, false⟩)

def addAbstractClass (name : String) (superclass : Option TypeId) (interfaces : List TypeId) :
    Build TypeId :=
  addType name (.nominal ⟨superclass, interfaces, false, true⟩)

def addInterface (name : String) (interfaces : List TypeId) : Build TypeId :=
  addType name (.nominal ⟨none, interfaces, true, true⟩)

def addPrimitive (name : String) : Build TypeId := addType name .primitive

def arrayOf (elem : TypeId) : Build TypeId := do
  let name ← known ((← declarations).typeName? elem)
  addType (name ++ "[]") (.array elem)

def nullType : Build TypeId := addType "null" .null

/-! ### Fields -/

def addField (owner : TypeId) (name : String) (type : TypeId) (isStatic : Bool) :
    Build FieldId := do
  let id := (← declarations).fields.nextId
  modifyCatalog fun c => { c with fields := c.fields.push ⟨name, owner, type, isStatic⟩ }
  return id

/-- The field of a name that a class or one of its super classes declares. -/
def field? (owner : TypeId) (name : String) : Build (Option FieldId) := do
  let c ← declarations
  let classes := c.superclasses owner
  match classes.findSome? fun t => c.fields.find? fun f => f.owner == t && f.name == name with
  | some field => return some field
  | none =>
    if classes.all fun t => t.index < c.types.size then return none else throw .unknownId

/-! ### Methods and variables -/

def addVar (method : MethodId) (name : String) (type : TypeId) : Build VarId := do
  let id := (← declarations).vars.nextId
  modifyCatalog fun c => { c with vars := c.vars.push ⟨name, type, method⟩ }
  return id

/-- The first variable of a name in a method. -/
def var? (method : MethodId) (name : String) : Build (Option VarId) :=
  return (← declarations).vars.find? fun v => v.method == method && v.name == name

/-- Declares a method; its receiver is the variable `this`, its parameters are `p0`, `p1`, … -/
def addMethod (ref : MethodRef) (isStatic isAbstract : Bool) : Build MethodId := do
  let id := (← declarations).methods.nextId
  let receiver ← if isStatic then pure none else some <$> addVar id "this" ref.owner
  let params ← ref.sub.params.zipIdx.mapM fun (type, i) => addVar id s!"p{i}" type
  let method := { ref, isStatic, isAbstract, receiver, params : MethodDecl }
  modifyCatalog fun c => { c with methods := c.methods.push method }
  return id

def method (id : MethodId) : Build MethodDecl := do known (← declarations).methods[id]?

def modifyMethod (id : MethodId) (f : MethodDecl → MethodDecl) : Build Unit := do
  let _ ← method id
  modifyCatalog fun c => { c with methods := c.methods.modify id f }

/-! ### Statements -/

def checkVars (method : MethodId) (vars : List VarId) : Build Unit :=
  vars.forM fun v => do
    let var ← known (← declarations).vars[v]?
    if var.method != method then
      note s!"variable `{var.name}` of method #{var.method.index} is used in method #{method.index}"

def checkField (field : FieldId) (isStatic : Bool) : Build Unit := do
  let f ← known (← declarations).fields[field]?
  if f.isStatic != isStatic then
    let access := if isStatic then "a static" else "an instance"
    note s!"field `{f.name}` is accessed as {access} field"

def addStatement (id : MethodId) (s : Statement) : Build Unit := do
  if (← method id).isAbstract then note s!"abstract method #{id.index} cannot have a body"
  modifyMethod id fun m => { m with body := m.body.push s }

/-- The variables that a statement mentions, a call's apart. -/
def mentioned : Statement → List VarId
  | .new lhs _ | .loadStatic lhs _ => [lhs]
  | .assign lhs rhs | .cast lhs rhs _ => [lhs, rhs]
  | .loadField lhs base _ | .loadArray lhs base => [lhs, base]
  | .storeField base _ rhs | .storeArray base rhs => [base, rhs]
  | .storeStatic _ rhs => [rhs]
  | .ret var => var.toList
  | .invoke _ => []

/-- The field that a statement accesses, and whether as a static one. -/
def accessed? : Statement → Option (FieldId × Bool)
  | .loadField _ _ field | .storeField _ field _ => some (field, false)
  | .loadStatic _ field | .storeStatic field _ => some (field, true)
  | _ => none

/-- Adds a statement other than a call. -/
def add (id : MethodId) (s : Statement) : Build Unit := do
  checkVars id (mentioned s)
  if let some (field, isStatic) := accessed? s then checkField field isStatic
  if let .ret (some v) := s then modifyMethod id fun m => { m with returns := m.returns ++ [v] }
  addStatement id s

def addCall (container : MethodId) (kind : CallKind) (target : MethodRef) (base : Option VarId)
    (args : List VarId) (result : Option VarId) : Build CallSiteId := do
  checkVars container (args ++ base.toList ++ result.toList)
  if kind.hasReceiver != base.isSome then
    let fault := if kind.hasReceiver then "lacks" else "must not have"
    note s!"call to `{target.sub.name}` in method #{container.index} {fault} a receiver"
  let sites := (← declarations).callSites
  let index := sites.toList.countP (·.container == container)
  modifyCatalog fun c =>
    { c with callSites := c.callSites.push ⟨container, index, kind, target, base, args, result⟩ }
  addStatement container (.invoke sites.nextId)
  return sites.nextId

/-- Adds a call site that is linked at run time; its parameters are the captured values. -/
def addDynamicCall (container : MethodId) (call : DynamicCall) (name : String)
    (resultType : Option TypeId) (captured : List VarId) (result : Option VarId) :
    Build CallSiteId := do
  let owner := (← method container).ref.owner
  let c ← declarations
  let params ← captured.mapM fun v => known (c.vars[v]?.map VarDecl.type)
  addCall container (.dynamic call) ⟨owner, name, params, resultType⟩ none captured result

def addEntry (id : MethodId) : Build Unit :=
  modifyCatalog fun c =>
    if c.entries.contains id then c else { c with entries := c.entries ++ [id] }

end Builder

namespace Catalog

/-- Notes what a statement uses of its base or receiver. -/
def recordUse (c : Catalog) (uses : Roster .var VarUses) : Statement → Roster .var VarUses
  | .loadField lhs base field =>
    uses.modify base fun u => { u with loads := u.loads ++ [(field, lhs)] }
  | .storeField base field rhs =>
    uses.modify base fun u => { u with stores := u.stores ++ [(field, rhs)] }
  | .loadArray lhs base =>
    uses.modify base fun u => { u with arrayLoads := u.arrayLoads ++ [lhs] }
  | .storeArray base rhs =>
    uses.modify base fun u => { u with arrayStores := u.arrayStores ++ [rhs] }
  | .invoke s =>
    match c.callSites[s]? with
    | some site =>
      match site.base with
      | some base =>
        if site.kind.isDispatched then
          uses.modify base fun u => { u with invokes := u.invokes ++ [s] }
        else uses
      | none => uses
    | none => uses
  | _ => uses

def useIndex (c : Catalog) : Roster .var VarUses :=
  c.methods.toList.foldl (fun uses m => m.body.toList.foldl c.recordUse uses)
    (.replicate c.vars.size {})

/-- The first declaration of every reference. -/
def declarationIndex (c : Catalog) : Index MethodRef MethodId :=
  c.methods.withIds.foldl (fun index (id, m) => index.insertIfNew m.ref id) ∅

/-- The last method of every signature, and the signatures that occur again, in order. -/
def signatureIndex (c : Catalog) (signatures : List String) :
    Index String MethodId × List String :=
  (c.methods.ids.zip signatures).foldl
    (fun (index, repeated) (id, signature) =>
      (index.insert signature id,
        if index.contains signature then repeated ++ [signature] else repeated))
    (∅, [])

end Catalog

namespace Builder

/-- The signatures of all methods, when all types that the program links to exist. -/
def signatures? (b : Builder) : Option (List String) :=
  if b.catalog.linksKnown then b.catalog.methods.toList.mapM fun m => b.catalog.refSignature? m.ref
  else none

/-- All problems of the program: those noted on the way, then the repeated methods. -/
def allProblems (b : Builder) : List String :=
  b.problems ++ (b.catalog.signatureIndex (b.signatures?.getD [])).2.map fun signature =>
    s!"method `{signature}` is declared twice"

/-- The program with its indices, unless it has problems. -/
def build (b : Builder) : Except Fault Program :=
  match b.signatures? with
  | none => throw .unknownId
  | some signatures =>
    match b.allProblems with
    | [] => pure
      { b.catalog with
        uses := b.catalog.useIndex
        signatures := (b.catalog.signatureIndex signatures).1
        declared := b.catalog.declarationIndex
        supertypeTable := .ofList (b.catalog.types.ids.map b.catalog.supertypes) }
    | first :: others =>
      throw (.program s!"{first} ({others.length + 1} problem(s) in total)")

/-- The program, with a message for each problem when it is refused. -/
def logged (b : Builder) : Logged Program :=
  let problems := if b.signatures?.isSome then b.allProblems else []
  ⟨b.build, problems.map fun text => ⟨.error, text⟩⟩

end Builder

end PointsTo
