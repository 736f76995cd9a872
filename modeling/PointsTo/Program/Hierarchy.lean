import PointsTo.Ascending
import PointsTo.Program.Basic
import PointsTo.Program.Signature

/-!
The class hierarchy: super types, assignability, and the methods that references and calls select.
-/
namespace PointsTo

/-- Name of the root of the class hierarchy. -/
def rootClass : String := "java.lang.Object"

/-- Types that arrays are assignable to besides the root class. -/
def arraySupertypes : List String := ["java.lang.Cloneable", "java.io.Serializable"]

namespace Catalog

/-- The super class and the super interfaces that a type names. -/
def directSupertypes (c : Catalog) (t : TypeId) : List TypeId :=
  match c.shape? t with
  | some shape => shape.superclass.toList ++ shape.interfaces
  | none => []

/-- Whether all types named by declarations exist. -/
def linksKnown (c : Catalog) : Bool :=
  c.types.ids.all fun t => (c.directSupertypes t).all fun s => s.index < c.types.size

/-- Some types and the super types that they name, in ascending order. -/
def widen (c : Catalog) (ts : List TypeId) : List TypeId :=
  ascending (fun a b => decide (a ≤ b)) (ts ++ ts.flatMap c.directSupertypes)

/-- Widens types until that adds nothing, at most `rounds` times. -/
def widenWithin (c : Catalog) : (rounds : Nat) → List TypeId → List TypeId
  | 0, ts => ts
  | rounds + 1, ts =>
    let wider := c.widen ts
    if wider = ts then ts else c.widenWithin rounds wider

/-- All super types of a type, itself included, in ascending order. -/
def supertypes (c : Catalog) (t : TypeId) : List TypeId := c.widenWithin c.types.size [t]

/-- A type and at most `limit` super classes above it, the nearest first. -/
def superclassesWithin (c : Catalog) : (limit : Nat) → TypeId → List TypeId
  | 0, t => [t]
  | limit + 1, t => t :: match (c.shape? t).bind (·.superclass) with
    | some s => c.superclassesWithin limit s
    | none => []

/-- A type and the chain of its super classes. -/
def superclasses (c : Catalog) (t : TypeId) : List TypeId := c.superclassesWithin c.types.size t

end Catalog

/-- A complete program: its declarations, and what follows from them. -/
structure Program extends Catalog where
  uses : Roster .var VarUses := ∅
  signatures : Index String MethodId := ∅
  /-- The methods that the types declare. -/
  declared : Index MethodRef MethodId := ∅
  /-- All super types of each type, in ascending order. -/
  supertypeTable : Roster .type (List TypeId) := ∅

namespace Program

instance : Inhabited Program := ⟨{}⟩

def supertypesOf (p : Program) (t : TypeId) : List TypeId := (p.supertypeTable[t]?).getD []

def method? (p : Program) (signature : String) : Option MethodId := p.signatures[signature]?

def varUses (p : Program) (v : VarId) : VarUses := (p.uses[v]?).getD {}

/-- Whether arrays are assignable to the class of this name. -/
def isArraySupertype (name : String) : Bool := name == rootClass || arraySupertypes.contains name

/-- Assignability of types that are arrays of at most `depth` dimensions. -/
def isSubtypeWithin (p : Program) (depth : Nat) (sub sup : TypeId) : Bool :=
  sub == sup ||
    match p.types[sub]?, p.types[sup]? with
    | some ⟨_, .null⟩, some _ => p.isReference sup
    | some ⟨_, .nominal _⟩, some ⟨_, .nominal _⟩ => (p.supertypesOf sub).contains sup
    | some ⟨_, .array _⟩, some ⟨name, .nominal _⟩ => isArraySupertype name
    | some ⟨_, .array subElem⟩, some ⟨_, .array supElem⟩ =>
      match depth with
      | 0 => false
      | depth + 1 => p.isReference subElem && p.isReference supElem
        && p.isSubtypeWithin depth subElem supElem
    | _, _ => false

/-- The reference that a signature writes down, its types being looked up by their names. -/
def ref? (p : Program) (s : Signature) : Option MethodRef := do
  return ⟨← p.type? s.owner, s.name, ← s.params.mapM p.type?, ← s.result.mapM p.type?⟩

/-- Whether a value of type `sub` can be assigned to `sup`. -/
def isSubtype (p : Program) (sub sup : TypeId) : Bool := p.isSubtypeWithin p.types.size sub sup

/-- The method with a subsignature that a type itself declares. -/
def declared? (p : Program) (owner : TypeId) (sub : Subsignature) : Option MethodId :=
  p.declared[(⟨owner, sub⟩ : MethodRef)]?

/-- The same, abstract methods left out. -/
def implemented? (p : Program) (owner : TypeId) (sub : Subsignature) : Option MethodId :=
  (p.declared? owner sub).filter fun m => (p.methods[m]?).any fun d => !d.isAbstract

/-- The interfaces among the super types of a type, in ascending order. -/
def interfacesOf (p : Program) (t : TypeId) : List TypeId :=
  (p.supertypesOf t).filter p.isInterface

/-- The class where the search for a method invoked on a value of this type starts. -/
def dispatchStart? (p : Program) (receiver : TypeId) : Option TypeId :=
  match p.types[receiver]? with
  | some ⟨_, .nominal shape⟩ => if shape.isInterface then none else some receiver
  | some ⟨_, .array _⟩ => p.type? rootClass
  | _ => none

/-- The implementation of a method invoked on a value whose dynamic type is `receiver`: that of the
nearest class, else that of the first interface. -/
def dispatch (p : Program) (receiver : TypeId) (sub : Subsignature) : Option MethodId := do
  let start ← p.dispatchStart? receiver
  (p.superclasses start).findSome? (p.implemented? · sub)
    <|> (p.interfacesOf start).findSome? (p.implemented? · sub)

/-- The declaration that a reference names: that of the nearest class, else that of the first
interface. -/
def resolve (p : Program) (r : MethodRef) : Option MethodId :=
  (p.superclasses r.owner).findSome? (p.declared? · r.sub)
    <|> (p.interfacesOf r.owner).findSome? (p.declared? · r.sub)

end Program

end PointsTo
