import PointsTo.Id

/-!
Taint flows: values of a source call that reach an argument of a sink call.
-/
namespace PointsTo.Taint

structure TaintFlow where
  source : CallSiteId
  sink : CallSiteId
  index : Nat
  deriving DecidableEq, Repr

namespace TaintFlow

/-- The order by source, then by sink, then by argument. -/
def le (a b : TaintFlow) : Bool :=
  decide (a.source < b.source) || a.source == b.source &&
    (decide (a.sink < b.sink) || a.sink == b.sink && decide (a.index ≤ b.index))

theorem le_iff {a b : TaintFlow} : a.le b ↔ a.source < b.source ∨
    a.source = b.source ∧ (a.sink < b.sink ∨ a.sink = b.sink ∧ a.index ≤ b.index) := by
  simp [le]

theorem le_total (a b : TaintFlow) : a.le b || b.le a := by
  rw [Bool.or_eq_true, le_iff, le_iff]
  simp only [Id.ext_iff, Id.lt_iff]
  omega

theorem le_trans (a b c : TaintFlow) (ab : a.le b) (bc : b.le c) : a.le c := by
  rw [le_iff] at *
  simp only [Id.ext_iff, Id.lt_iff] at *
  omega

theorem le_antisymm (a b : TaintFlow) (ab : a.le b) (ba : b.le a) : a = b := by
  obtain ⟨source, sink, index⟩ := a
  obtain ⟨source', sink', index'⟩ := b
  rw [le_iff] at *
  simp only [Id.ext_iff, Id.lt_iff, mk.injEq] at *
  omega

end TaintFlow

end PointsTo.Taint
