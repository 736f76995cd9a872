import PointsTo.Fault
import PointsTo.Table

/-!
Calling contexts, and the ids that stand for them.
-/
namespace PointsTo

inductive ContextElement
  | callSite (site : CallSiteId)
  | object (object : ObjectId)
  | type (type : TypeId)
  deriving DecidableEq, Repr

namespace ContextElement

/-- The kind of an element, and its number. -/
def numbers : ContextElement → Nat × Nat
  | callSite s => (0, s.index)
  | object o => (1, o.index)
  | type t => (2, t.index)

theorem numbers_injective {a b : ContextElement} (h : a.numbers = b.numbers) : a = b := by
  cases a <;> cases b <;> simp_all [numbers, Id.ext_iff]

instance : Coded ContextElement := .along numbers numbers_injective

end ContextElement

/-- The elements of a context, the most recent one first. -/
abbrev Context := List ContextElement

def ContextElement.render : ContextElement → String
  | callSite s => s!"CallSite(CallSiteId({s.index}))"
  | object o => s!"Object(ObjId({o.index}))"
  | type t => s!"Type(TypeId({t.index}))"

namespace Context

def render (c : Context) : String := "[" ++ ", ".intercalate (c.map ContextElement.render) ++ "]"

/-- The context with a new element in front, cut to the `k` most recent elements. -/
def pushWithin (k : Nat) (element : ContextElement) (c : Context) : Context := (element :: c).take k

/-- The least limit that leaves no room for a context: `k` elements of eight bytes each are set aside
in advance, and a block of memory has less than `2 ^ 63` bytes. -/
def limitBound : Nat := Nat.pow 2 60

/-- `pushWithin`, under a limit that leaves room for a context. -/
def extend (k : Nat) (element : ContextElement) (c : Context) : Except Fault Context :=
  if k < limitBound then pure (pushWithin k element c) else throw .noRoom

theorem extend_eq_ok_iff {k : Nat} {element : ContextElement} {c d : Context} :
    extend k element c = .ok d ↔ k < limitBound ∧ pushWithin k element c = d := by
  unfold extend
  split
  next h => simp [h, pure, Except.pure]
  next h => simp [h, throw, throwThe, MonadExceptOf.throw]

end Context

/-- The contexts met so far. The empty context always comes first. -/
structure ContextTable where
  table : DistinctTable .context Context
  first_eq : table.get? ⟨0⟩ = some []

namespace ContextTable

/-- The id of the empty context. -/
def emptyId : ContextId := ⟨0⟩

def initial : ContextTable where
  table := Table.empty.push [] (by simp [Table.empty])
  first_eq := by simp [Table.get?, Table.push, Table.empty]

instance : Inhabited ContextTable := ⟨initial⟩

def size (t : ContextTable) : Nat := t.table.size

def get? (t : ContextTable) (id : ContextId) : Option Context := t.table.get? id

/-- The context of an id; an unknown id stands for the empty context. -/
def context (t : ContextTable) (id : ContextId) : Context := (t.get? id).getD []

def intern (t : ContextTable) (c : Context) : ContextId × ContextTable :=
  let r := t.table.intern c
  (r.1, ⟨r.2, Table.get?_intern_of_get? t.first_eq⟩)

def toList (t : ContextTable) : List Context := t.table.toList

end ContextTable

end PointsTo
