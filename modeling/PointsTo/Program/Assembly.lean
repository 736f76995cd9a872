import PointsTo.Log
import PointsTo.Program.Builder
import PointsTo.Program.Description
import PointsTo.Program.Signature

/-!
From the description of a program to the program: every name is replaced by the entity it names.

Classes are declared with their super types before them, so a description may list them in any
order; a class that is named but not described stands for one outside the program.
-/
namespace PointsTo.Description

open Builder Text

def primitiveTypes : List String :=
  ["boolean", "byte", "char", "short", "int", "long", "float", "double"]

/-- The description of a class; the last one counts when there are several. -/
def class? (d : Description) (name : String) : Option Class :=
  d.classes.reverse.find? fun c => c.name == name

/-- Declares a class after its super types. Classes outside `unopened` are already being declared
further up, so that meeting one of them again closes a cycle. -/
def declareClass (d : Description) (unopened : List String) (name : String) : Build TypeId := do
  if let some id := (← declarations).type? name then return id
  match d.class? name with
  | none => addClass name none []
  | some c =>
    if _h : name ∈ unopened then
      let superclass ← c.superclass.mapM fun s => declareClass d (unopened.erase name) s
      let interfaces ← c.interfaces.mapM fun i => declareClass d (unopened.erase name) i
      if c.isInterface then addInterface name interfaces
      else if c.isAbstract then addAbstractClass name superclass interfaces
      else addClass name superclass interfaces
    else throw (.program s!"cyclic class hierarchy at `{name}`")
  termination_by unopened.length
  decreasing_by
    all_goals
      have := List.length_erase_of_mem _h
      have := List.length_pos_of_mem _h
      omega

theorem length_trim_le (s : List Char) : (trim s).length ≤ s.length := by
  have shorter (t : List Char) : (t.dropWhile isBlank).length ≤ t.length :=
    (List.dropWhile_suffix isBlank).length_le
  have h₁ := shorter s
  have h₂ := shorter (trimLeft s).reverse
  simp only [trim, trimRight, trimLeft, List.length_reverse] at *
  omega

/-- The type of a written name: an element type followed by brackets, a primitive type, the null
type, or a declared class. -/
def resolveType (name : List Char) : Build TypeId := do
  match _h : before? ['[', ']'] (trim name) with
  | some elem => arrayOf (← resolveType elem)
  | none =>
    let name := String.ofList (trim name)
    if primitiveTypes.contains name then addPrimitive name
    else if name = "null" then nullType
    else match (← declarations).type? name with
      | some id => return id
      | none => throw (.program s!"unknown type `{name}`")
  termination_by name.length
  decreasing_by
    have h := congrArg List.length (before?_eq_some_iff.1 _h)
    have := length_trim_le name
    simp only [List.length_append, List.length_cons, List.length_nil] at h
    omega

def typeNamed (name : String) : Build TypeId := resolveType name.toList

def resultNamed (name : String) : Build (Option TypeId) :=
  if name = "void" then pure none else some <$> typeNamed name

def refNamed (text : String) : Build MethodRef := do
  let s ← Signature.read text
  let owner ← typeNamed s.owner
  let params ← s.params.mapM typeNamed
  let result ← s.result.mapM typeNamed
  return ⟨owner, s.name, params, result⟩

/-- The field written as `Class.name`, declared by the class or inherited from its super classes. -/
def fieldNamed (text : String) : Build FieldId := do
  match cutLast? '.' text.toList with
  | none => throw (.program s!"field `{text}` is not qualified by its class")
  | some (owner, name) =>
    match ← field? (← resolveType owner) (String.ofList name) with
    | some field => return field
    | none => throw (.program s!"unknown field `{text}`")

/-- The variables in sight in a method. -/
abbrev Scope := List (String × VarId)

def varNamed (m : Method) (scope : Scope) (name : String) : Build VarId :=
  match scope.lookup name with
  | some v => pure v
  | none => throw (.program s!"unknown variable `{name}` in `{m.name}`")

/-- Declares the local variables of a method beside its receiver and its parameters. -/
def declareVars (id : MethodId) (m : Method) : Build Scope := do
  let decl ← method id
  let receiver := decl.receiver.toList.map fun v => ("this", v)
  let params := decl.params.zipIdx.map fun (v, i) => (s!"p{i}", v)
  m.vars.foldlM (fun scope var => do
    let v ← addVar id var.name (← typeNamed var.type)
    if (scope.lookup var.name).isSome then
      throw (.program s!"variable `{var.name}` of `{m.name}` is declared twice")
    return (var.name, v) :: scope) (receiver ++ params)

def callKind : InvokeKind → CallKind
  | .static => .static
  | .special => .special
  | .virtual => .virtual
  | .interface => .interface

def bootstrapNamed : String → Bootstrap
  | "LambdaMetafactory" => .lambda
  | "StringConcat" | "StringConcatFactory" => .stringConcat
  | name => .other name

/-- Adds a statement to a method. Types, fields and methods are looked up before variables. -/
def addDescribed (id : MethodId) (m : Method) (scope : Scope) (s : Statement) : Build Unit := do
  let var := varNamed m scope
  match s with
  | .new lhs type =>
    let type ← typeNamed type
    add id (.new (← var lhs) type)
  | .assign lhs rhs => add id (.assign (← var lhs) (← var rhs))
  | .cast lhs rhs type =>
    let type ← typeNamed type
    add id (.cast (← var lhs) (← var rhs) type)
  | .load lhs base field =>
    let field ← fieldNamed field
    add id (.loadField (← var lhs) (← var base) field)
  | .store base field rhs =>
    let field ← fieldNamed field
    add id (.storeField (← var base) field (← var rhs))
  | .loadStatic lhs field =>
    let field ← fieldNamed field
    add id (.loadStatic (← var lhs) field)
  | .storeStatic field rhs =>
    let field ← fieldNamed field
    add id (.storeStatic field (← var rhs))
  | .loadArray lhs base => add id (.loadArray (← var lhs) (← var base))
  | .storeArray base rhs => add id (.storeArray (← var base) (← var rhs))
  | .invoke kind target base args result =>
    let target ← refNamed target
    let base ← base.mapM var
    let args ← args.mapM var
    let result ← result.mapM var
    let _ ← addCall id (callKind kind) target base args result
  | .invokeDynamic bootstrap name ret handle args result =>
    let handle ← handle.mapM fun h => do return ⟨h.kind, ← refNamed h.method⟩
    let type ← resultNamed ret
    let args ← args.mapM var
    let result ← result.mapM var
    let _ ← addDynamicCall id ⟨bootstrapNamed bootstrap, handle⟩ name type args result
  | .ret v => add id (.ret (← v.mapM var))

def declareMethod (owner : TypeId) (m : Method) : Build MethodId := do
  let params ← m.params.mapM typeNamed
  let result ← resultNamed m.ret
  addMethod ⟨owner, m.name, params, result⟩ (m.isStatic && !m.isAbstract) m.isAbstract

/-- Declares the fields and methods of a class, and gives the methods whose bodies are to come. -/
def declareMembers (c : Class) : Build (List (MethodId × Method)) := do
  let owner ← typeNamed c.name
  c.fields.forM fun f => do
    let type ← typeNamed f.type
    let _ ← addField owner f.name type f.isStatic
  c.methods.mapM fun m => do return (← declareMethod owner m, m)

def addBody (id : MethodId) (m : Method) : Build Unit := do
  let scope ← declareVars id m
  m.body.forM (addDescribed id m scope)

def addEntryNamed (text : String) : Build Unit := do
  let ref ← refNamed text
  match (← declarations).methods.find? fun m => m.ref == ref with
  | some id => addEntry id
  | none => throw (.program s!"entry method `{text}` is not declared")

/-- Declares everything that is described. -/
def declareAll (d : Description) : Build Unit := do
  let names := (d.classes.map Class.name).eraseDups
  d.classes.forM fun c => do
    let _ ← declareClass d names c.name
  let bodies ← d.classes.mapM declareMembers
  bodies.flatten.forM fun (id, m) => addBody id m
  d.entries.forM addEntryNamed

/-- The described program. All problems of a program that is refused are logged. -/
def assemble (d : Description) : Logged Program :=
  match (declareAll d).run.run {} with
  | (.error fault, _) => ⟨.error fault, []⟩
  | (.ok (), b) => b.logged

end PointsTo.Description

namespace PointsTo.Program

/-- The program that a document describes. -/
def read (document : String) : Logged Program :=
  match Description.read? document with
  | some d => d.assemble
  | none => ⟨.error (.document Fault.malformed), []⟩

end PointsTo.Program
