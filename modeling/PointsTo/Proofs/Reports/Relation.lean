import PointsTo.Proofs.Construction.Orderly
import PointsTo.Proofs.Grouping
import PointsTo.Proofs.Safety.Runs
import PointsTo.Report.Relation

/-!
The points-to relation without contexts. Whether a variable is asked for the objects of its copies, or the
pointers of the flow graph are gone through and what the copies of a variable have is put together, it is
the same relation.
-/
namespace PointsTo

open Facts

/-! ### Pairs in order -/

section Pairs

variable {k l : Entity}

theorem pairLe_iff {a b : Id k × Id l} :
    pairLe a b = true ↔ a.1.index < b.1.index ∨ a.1.index = b.1.index ∧ a.2.index ≤ b.2.index := by
  rw [pairLe, Bool.or_eq_true, Bool.and_eq_true, decide_eq_true_iff, decide_eq_true_iff, beq_iff_eq,
    Id.ext_iff]
  rfl

theorem pairLe_antisymm (a b : Id k × Id l) (ab : pairLe a b = true) (ba : pairLe b a = true) :
    a = b := by
  rw [pairLe_iff] at ab ba
  exact Prod.ext (Id.ext_iff.2 (by omega)) (Id.ext_iff.2 (by omega))

theorem ascends_pairs (pairs : List (Id k × Id l)) : Ascends pairLe (ascending pairLe pairs) := by
  apply ascends_ascending
  · intro a b
    rw [Bool.or_eq_true, pairLe_iff, pairLe_iff]
    omega
  · intro a b c ab bc
    rw [pairLe_iff] at ab bc ⊢
    omega
  · exact pairLe_antisymm

/-- Ascending ids, each with its ascending partners, make ascending pairs. -/
theorem ascends_flatMap {ids : List (Id k)} {partners : Id k → List (Id l)}
    (ordered : ids.Pairwise (· < ·)) (each : ∀ i, (partners i).Pairwise (· < ·)) :
    Ascends pairLe (ids.flatMap fun i => (partners i).map (i, ·)) := by
  refine List.pairwise_flatMap.2 ⟨fun i _ => List.pairwise_map.2 ?_, ordered.imp fun {i j} before => ?_⟩
  · refine (each i).imp fun {a b} before => ⟨pairLe_iff.2 (.inr ⟨rfl, Nat.le_of_lt before⟩), ?_⟩
    intro same
    exact Nat.ne_of_lt before (congrArg (·.2.index) same)
  · intro x hx y hy
    obtain ⟨a, -, rfl⟩ := List.mem_map.1 hx
    obtain ⟨b, -, rfl⟩ := List.mem_map.1 hy
    exact ⟨pairLe_iff.2 (.inl before), fun same => Nat.ne_of_lt before (congrArg (·.1.index) same)⟩

end Pairs

/-! ### The relation -/

namespace Solver

variable {s : Solver} {v : VarId} {o : ObjectId}

/-- A copy of a variable has a copy of an object. -/
def Refers (s : Solver) (v : VarId) (o : ObjectId) : Prop :=
  ∃ x c, s.elements.vars.get? x = some ⟨c, v⟩ ∧
    ∃ co ∈ s.varObjects x, ∃ c', s.elements.objects.get? co = some ⟨c', o⟩

/-- The pointers that have objects are those that are gone through. -/
theorem mem_inhabited {q : Pointer} {objects : Objects} :
    (q, objects) ∈ s.inhabited ↔ objects = s.pointsTo q ∧ ∃ o, o ∈ objects := by
  simp only [inhabited, List.mem_filter, List.mem_map, Prod.mk.injEq, Bool.not_eq_true',
    Bool.eq_false_iff, ne_eq, HybridSet.isEmpty_iff, not_forall, not_not]
  constructor
  · rintro ⟨⟨q, -, rfl, rfl⟩, filled⟩
    exact ⟨rfl, filled⟩
  · rintro ⟨rfl, o, mem⟩
    obtain ⟨n, hn, -⟩ := mem_pointsTo_iff.1 mem
    exact ⟨⟨q, Table.mem_toList_iff.2 ⟨n, hn⟩, rfl, rfl⟩, o, mem⟩

end Solver

/-! ### Answers -/

namespace Grounded

open Solver

variable {p : Program} {sel : Selector} {s : Solver} (hs : Grounded p sel none s)
include hs

theorem exists_copy {q : Pointer} {o : ContextObjectId} (mem : o ∈ s.pointsTo q) :
    ∃ pair, s.elements.objects.get? o = some pair := by
  obtain ⟨n, -, mem⟩ := mem_pointsTo_iff.1 mem
  exact (hs.points n o mem).2

/-- Objects are in variables only of methods that are reached. -/
theorem exists_owner {x : ContextVarId} {o : ContextObjectId} (mem : o ∈ s.varObjects x) :
    ∃ c v decl, s.elements.vars.get? x = some ⟨c, v⟩ ∧ p.vars[v]? = some decl ∧
      decl.method.index < p.methods.size := by
  obtain ⟨n, hn, mem⟩ := mem_pointsTo_iff.1 mem
  obtain ⟨⟨q, hq, admitted⟩, -⟩ := hs.points n o mem
  cases hn.symm.trans hq
  obtain ⟨c, v, hx, m, ⟨decl, hd, rfl⟩, absent | ⟨cm, hm, -⟩⟩ := admitted
  · cases absent
  · exact ⟨c, v, decl, hx, hd, (hs.elements.methods cm _ hm).2⟩

theorem exists_decl {v : VarId} {o : ObjectId} (refers : s.Refers v o) :
    ∃ decl, p.vars[v]? = some decl ∧ decl.method.index < p.methods.size := by
  obtain ⟨x, c, hx, co, mem, -⟩ := refers
  obtain ⟨c', v', decl, hx', hd, lt⟩ := hs.exists_owner mem
  cases hx.symm.trans hx'
  exact ⟨decl, hd, lt⟩

theorem exists_object {v : VarId} {o : ObjectId} (refers : s.Refers v o) :
    ∃ a, s.elements.heap.get? o = some a := by
  obtain ⟨-, -, -, co, -, c, hco⟩ := refers
  exact (hs.elements.objects co _ hco).2

/-- The answer for a variable lists the objects that it refers to. -/
theorem objectsOf? (v : VarId) :
    ∃ l, s.objectsOf? v = some l ∧ l.Pairwise (· < ·) ∧ ∀ o, o ∈ l ↔ s.Refers v o := by
  have known : ∀ co ∈ (s.elements.vars.copiesOf v).flatMap fun x => (s.varObjects x).toList,
      ∃ o, (s.elements.objects.get? co).map InContext.entity = some o := by
    intro co mem
    obtain ⟨x, -, mem⟩ := List.mem_flatMap.1 mem
    obtain ⟨pair, found⟩ := hs.exists_copy (HybridSet.mem_toList.1 mem)
    exact ⟨pair.entity, by rw [found]; rfl⟩
  obtain ⟨l, found, ordered, mem⟩ := exists_ascending known
  refine ⟨l, found, ordered, fun o => (mem o).trans ?_⟩
  constructor
  · rintro ⟨co, found, entity⟩
    obtain ⟨x, copy, among⟩ := List.mem_flatMap.1 found
    obtain ⟨⟨c, _⟩, hx, rfl⟩ := CopyTable.mem_copiesOf.1 copy
    obtain ⟨⟨c', _⟩, hco, rfl⟩ := Option.map_eq_some_iff.1 entity
    exact ⟨x, c, hx, co, HybridSet.mem_toList.1 among, c', hco⟩
  · rintro ⟨x, c, hx, co, among, c', hco⟩
    have copy : x ∈ s.elements.vars.copiesOf v := CopyTable.mem_copiesOf.2 ⟨_, hx, rfl⟩
    exact ⟨co, List.mem_flatMap.2 ⟨x, copy, HybridSet.mem_toList.2 among⟩, by rw [hco]; rfl⟩

/-- A pointer that has objects contributes what the variable refers to through it. -/
theorem pairsAt? {q : Pointer} {objects : Objects} (here : (q, objects) ∈ s.inhabited) :
    ∃ l, s.pairsAt? q objects = some l ∧ ∀ v o, (v, o) ∈ l ↔
      ∃ x c, q = .var x ∧ s.elements.vars.get? x = some ⟨c, v⟩ ∧
        ∃ co ∈ s.varObjects x, ∃ c', s.elements.objects.get? co = some ⟨c', o⟩ := by
  obtain ⟨rfl, first, mem⟩ := mem_inhabited.1 here
  cases q with
  | var x =>
    obtain ⟨c, w, -, hx, -⟩ := hs.exists_owner mem
    have known : ∀ co ∈ (s.pointsTo (.var x)).toList, ∃ pair,
        (do return (w, (← s.elements.objects.get? co).entity) : Option (VarId × ObjectId)) =
          some pair := by
      intro co mem
      obtain ⟨pair, found⟩ := hs.exists_copy (HybridSet.mem_toList.1 mem)
      exact ⟨(w, pair.entity), by rw [found]; rfl⟩
    obtain ⟨l, found, mem⟩ := exists_mapM known
    refine ⟨l, by rw [Solver.pairsAt?, hx]; exact found, fun v o => (mem (v, o)).trans ?_⟩
    constructor
    · rintro ⟨co, among, entity⟩
      obtain ⟨⟨c', _⟩, hco, same⟩ := Option.bind_eq_some_iff.1 entity
      cases same
      exact ⟨x, c, rfl, hx, co, HybridSet.mem_toList.1 among, c', hco⟩
    · rintro ⟨_, c', ⟨⟩, hx', co, among, c'', hco⟩
      cases hx.symm.trans hx'
      exact ⟨co, HybridSet.mem_toList.2 among, by rw [hco]; rfl⟩
  | field | array | static => exact ⟨[], rfl, by simp⟩

/-- All pairs that are listed, once each. -/
theorem pairs? : ∃ l, s.pairs? = some l ∧ Ascends pairLe l ∧ ∀ v o, (v, o) ∈ l ↔ s.Refers v o := by
  obtain ⟨lists, found, mem⟩ := exists_mapM fun entry here => (hs.pairsAt? here).imp fun _ => And.left
  refine ⟨_, by rw [Solver.pairs?, found]; rfl, ascends_pairs _, fun v o => ?_⟩
  rw [mem_ascending, List.mem_flatten]
  constructor
  · rintro ⟨l, among, listed⟩
    obtain ⟨⟨q, objects⟩, here, contributed⟩ := (mem l).1 among
    obtain ⟨l', contributed', mem⟩ := hs.pairsAt? here
    cases contributed.symm.trans contributed'
    obtain ⟨x, c, -, refers⟩ := (mem v o).1 listed
    exact ⟨x, c, refers⟩
  · rintro ⟨x, c, hx, co, among, rest⟩
    have here : (.var x, s.varObjects x) ∈ s.inhabited := mem_inhabited.2 ⟨rfl, co, among⟩
    obtain ⟨l, contributed, mem'⟩ := hs.pairsAt? here
    exact ⟨l, (mem l).2 ⟨_, here, contributed⟩, (mem' v o).2 ⟨x, c, rfl, hx, co, among, rest⟩⟩

/-- The pairs are what the variables of the program answer, one variable after the other. -/
theorem pairs_eq {answers : VarId → List ObjectId} (asked : ∀ v, s.objectsOf? v = some (answers v)) :
    s.pairs? = some (p.vars.ids.flatMap fun v => (answers v).map (v, ·)) := by
  have answer (v : VarId) : (answers v).Pairwise (· < ·) ∧ ∀ o, o ∈ answers v ↔ s.Refers v o := by
    obtain ⟨l, found, described⟩ := hs.objectsOf? v
    cases (asked v).symm.trans found
    exact described
  obtain ⟨l, found, ascends, mem⟩ := hs.pairs?
  rw [found, Option.some.injEq]
  have ordered : p.vars.ids.Pairwise (· < ·) := Id.pairwise_firsts
  refine ascends.ext pairLe_antisymm (ascends_flatMap ordered fun v => (answer v).1) ?_
  rintro ⟨v, o⟩
  rw [mem, List.mem_flatMap]
  constructor
  · intro refers
    obtain ⟨decl, hd, -⟩ := hs.exists_decl refers
    exact ⟨v, Id.mem_firsts.2 (Roster.lt_size hd),
      List.mem_map.2 ⟨o, ((answer v).2 o).2 refers, rfl⟩⟩
  · rintro ⟨w, -, listed⟩
    obtain ⟨o', listed, same⟩ := List.mem_map.1 listed
    cases same
    exact ((answer v).2 o).1 listed

end Grounded
end PointsTo
