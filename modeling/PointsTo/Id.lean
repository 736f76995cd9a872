/-!
Ids: the entities of one kind are numbered from zero in the order in which they come up.
-/
namespace PointsTo

/-- The kinds of entity that are numbered: the parts of a program, what an analysis makes of them,
and the parts taken in a context. -/
inductive Entity
  | type | field | method | var | callSite
  | context | object | node | flow | reached | call
  | contextVar | contextObject | contextMethod | contextSite

structure Id (kind : Entity) where
  index : Nat
  deriving DecidableEq, Repr

namespace Id

variable {kind : Entity}

theorem ext_iff {a b : Id kind} : a = b ↔ a.index = b.index := by
  cases a; cases b; simp

instance : Inhabited (Id kind) := ⟨⟨0⟩⟩

instance : LE (Id kind) := ⟨fun a b => a.index ≤ b.index⟩

instance : LT (Id kind) := ⟨fun a b => a.index < b.index⟩

theorem lt_iff {a b : Id kind} : a < b ↔ a.index < b.index := Iff.rfl

instance (a b : Id kind) : Decidable (a ≤ b) := inferInstanceAs (Decidable (a.index ≤ b.index))

instance (a b : Id kind) : Decidable (a < b) := inferInstanceAs (Decidable (a.index < b.index))

/-- The first `n` ids of a kind. -/
def firsts (n : Nat) : List (Id kind) := (List.range n).map Id.mk

@[simp] theorem mem_firsts {n : Nat} {a : Id kind} : a ∈ firsts n ↔ a.index < n := by
  cases a; simp [firsts]

end Id

abbrev TypeId := Id .type
abbrev FieldId := Id .field
abbrev MethodId := Id .method
abbrev VarId := Id .var
abbrev CallSiteId := Id .callSite
abbrev ContextId := Id .context
abbrev ObjectId := Id .object
abbrev NodeId := Id .node

/-- Ids of variables, objects, methods and call sites in a context. -/
abbrev ContextVarId := Id .contextVar
abbrev ContextObjectId := Id .contextObject
abbrev ContextMethodId := Id .contextMethod
abbrev ContextSiteId := Id .contextSite

end PointsTo
