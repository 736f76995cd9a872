import PointsTo.Program.Basic

/-!
Abstract objects: one for every allocation, and one for every value that a mechanism of a given
description makes up at a call site.
-/
namespace PointsTo

inductive Origin
  /-- Made by a statement of a method, counted from zero. -/
  | allocation (method : MethodId) (statement : Nat)
  /-- Made up for a value that arises at a call site, such as a function value. -/
  | mock (description : String) (site : CallSiteId)
  deriving DecidableEq, Repr

namespace Origin

/-- A description, which only made-up objects have, and two numbers. -/
def parts : Origin → Option String × Nat × Nat
  | allocation method statement => (none, method.index, statement)
  | mock description site => (some description, site.index, 0)

theorem parts_injective {a b : Origin} (h : a.parts = b.parts) : a = b := by
  cases a <;> cases b <;> simp_all [parts, Id.ext_iff]

instance : Coded Origin := .along parts parts_injective

end Origin

structure AbstractObject where
  origin : Origin
  type : TypeId
  /-- The method that contains the allocation. -/
  container : Option MethodId
  deriving DecidableEq, Repr

namespace AbstractObject

/-- What tells an object from others: its origin, and for a made-up object also its type. -/
def identity (o : AbstractObject) : Origin × Option TypeId :=
  match o.origin with
  | .allocation .. => (o.origin, none)
  | .mock .. => (o.origin, some o.type)

def isMock (o : AbstractObject) (description : String) : Bool :=
  match o.origin with
  | .mock d _ => d == description
  | .allocation .. => false

def mockSite? (o : AbstractObject) : Option CallSiteId :=
  match o.origin with
  | .mock _ site => some site
  | .allocation .. => none

end AbstractObject

/-- The objects met so far. -/
abbrev Heap := Table .object AbstractObject.identity

namespace Heap

def allocate (h : Heap) (method : MethodId) (statement : Nat) (type : TypeId) : ObjectId × Heap :=
  h.intern ⟨.allocation method statement, type, some method⟩

def mock (h : Heap) (description : String) (site : CallSiteId) (type : TypeId)
    (container : Option MethodId) : ObjectId × Heap :=
  h.intern ⟨.mock description site, type, container⟩

end Heap

/-- An object as it is shown to users. -/
def Catalog.objectText? (c : Catalog) (o : AbstractObject) : Option String := do
  let type ← c.typeName? o.type
  match o.origin with
  | .allocation method statement =>
    let method ← c.signature? method
    return s!"NewObj\x7b{method}[{statement}]new {type}\x7d"
  | .mock description site =>
    let site ← c.siteText? site
    return s!"MockObj\x7b<{description}>,{type}@{site}\x7d"

end PointsTo
