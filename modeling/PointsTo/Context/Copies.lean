import PointsTo.Context.Basic

/-!
Entities in contexts: every pair of a context and an entity gets an id of its own.
-/
namespace PointsTo

structure InContext (kind : Entity) where
  context : ContextId
  entity : Id kind
  deriving DecidableEq, Repr

instance {kind : Entity} : Coded (InContext kind) :=
  .along (fun pair => (pair.context, pair.entity)) fun {a b} h => by cases a; cases b; simp_all

/-- The ids of the pairs of an entity, in the order of their issue. -/
def pairsOf {kind copy : Entity} (t : DistinctTable copy (InContext kind)) (e : Id kind) :
    List (Id copy) :=
  t.ids.filter fun i => (t.get? i).any fun pair => pair.entity == e

theorem pairsOf_push {kind copy : Entity} (t : DistinctTable copy (InContext kind))
    (pair : InContext kind) (fresh : t.positions[pair]? = none) (e : Id kind) :
    pairsOf (t.push pair fresh) e =
      pairsOf t e ++ if pair.entity = e then [⟨t.size⟩] else [] := by
  have pushed := t.idsWhere_push pair fresh fun pair => pair.entity == e
  simp only [beq_iff_eq] at pushed
  exact pushed

/-- The pairs met so far, and for each entity the ids of its pairs, the latest first. -/
structure CopyTable (kind copy : Entity) where
  table : DistinctTable copy (InContext kind)
  copies : Index (Id kind) (List (Id copy))
  copies_eq : ∀ e, copies.getD e [] = (pairsOf table e).reverse

namespace CopyTable

variable {kind copy : Entity}

def empty : CopyTable kind copy where
  table := ∅
  copies := ∅
  copies_eq _ := by simp [pairsOf]

instance : EmptyCollection (CopyTable kind copy) := ⟨empty⟩

instance : Inhabited (CopyTable kind copy) := ⟨empty⟩

def size (t : CopyTable kind copy) : Nat := t.table.size

def get? (t : CopyTable kind copy) (i : Id copy) : Option (InContext kind) := t.table.get? i

def find? (t : CopyTable kind copy) (context : ContextId) (e : Id kind) : Option (Id copy) :=
  t.table.find? ⟨context, e⟩

/-- The ids of an entity in all contexts, in the order of their issue. -/
def copiesOf (t : CopyTable kind copy) (e : Id kind) : List (Id copy) :=
  (t.copies.getD e []).reverse

def push (t : CopyTable kind copy) (pair : InContext kind)
    (fresh : t.table.positions[pair]? = none) : CopyTable kind copy :=
  let id : Id copy := ⟨t.size⟩
  let older := t.copies.getD pair.entity []
  { table := t.table.push pair fresh
    copies := t.copies.insert pair.entity (id :: older)
    copies_eq := fun e => by
      rw [Std.TreeMap.getD_insert, pairsOf_push, List.reverse_append]
      by_cases he : pair.entity = e
      · subst he
        simp [older, id, t.copies_eq, size]
      · simp [he, t.copies_eq] }

theorem copiesOf_eq (t : CopyTable kind copy) (e : Id kind) : t.copiesOf e = pairsOf t.table e := by
  rw [copiesOf, t.copies_eq, List.reverse_reverse]

def intern (t : CopyTable kind copy) (context : ContextId) (e : Id kind) :
    Id copy × CopyTable kind copy :=
  let pair : InContext kind := ⟨context, e⟩
  match h : t.table.positions[pair]? with
  | some i => (⟨i⟩, t)
  | none => (⟨t.size⟩, t.push pair h)

end CopyTable

end PointsTo
