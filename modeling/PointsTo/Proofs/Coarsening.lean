import PointsTo.Proofs.Answers
import PointsTo.Proofs.Translation

/-!
Coarser selectors. A map of situations that agrees with what two selectors choose is a translation
of a program to itself, so that every solution of the constraints for the coarser selector gives one for
the finer selector.
-/
namespace PointsTo

/-- How the situations of a finer selector are blurred by a coarser one. Situations of methods and
of objects are blurred apart, since those of objects are kept shorter. -/
structure Coarsening (p : Catalog) (fine coarse : Selector) where
  situation : Situation → Situation
  heap : Situation → Situation
  situation_nil : situation [] = []
  heap_nil : heap [] = []
  callee : ∀ c site,
    situation (fine.calleeSituation c site) = coarse.calleeSituation (situation c) site
  dispatch : ∀ c site (v : Value), situation (fine.dispatchSituation p c site v) =
    coarse.dispatchSituation p (situation c) site ⟨heap v.context, v.object⟩
  allocation : ∀ c, heap (fine.heapSituation c) = coarse.heapSituation (situation c)

namespace Coarsening

/-- Blurred, a program stays the same. -/
def translation {p : Program} {fine coarse : Selector} (h : Coarsening p.toCatalog fine coarse) :
    Translation p fine p coarse where
  situation := h.situation
  heap := h.heap
  object o := o
  situation_nil := h.situation_nil
  heap_nil := h.heap_nil
  type _ := rfl
  mock _ _ _ _ := rfl
  callee := h.callee
  dispatch := h.dispatch
  allocation := h.allocation
  entries _ := id
  callSites := rfl
  resolve := rfl
  dispatches := rfl
  isSubtype := rfl
  methods _ d hd := ⟨d, hd, rfl, rfl, fun _ => id, fun i _ hs => ⟨i, hs, fun _ => rfl⟩⟩

/-! ### The selectors of a family -/

variable {p : Catalog}

theorem take_cons_take {α : Type} {k k' : Nat} (le : k ≤ k') (x : α) (l : List α) :
    ((x :: l).take k').take k = (x :: l.take k).take k := by
  rw [List.take_take, Nat.min_eq_left le]
  cases k with
  | zero => rfl
  | succ k => rw [List.take_succ_cons, List.take_succ_cons, List.take_take,
      Nat.min_eq_left (Nat.le_succ k)]

theorem take_cons_take_pred {α : Type} {k k' : Nat} (le : k ≤ k') (x : α) (l : List α) :
    ((x :: l).take k').take k = (x :: l.take (k - 1)).take k := by
  rw [List.take_take, Nat.min_eq_left le]
  cases k with
  | zero => rfl
  | succ k => rw [List.take_succ_cons, List.take_succ_cons, Nat.add_sub_cancel, List.take_take,
      Nat.min_self]

/-- A smaller depth forgets the older elements. -/
def truncate (kind : Sensitivity) {k k' : Nat} (le : k ≤ k') :
    Coarsening p (.ofSensitivity k' kind) (.ofSensitivity k kind) where
  situation := List.take k
  heap := List.take (k - 1)
  situation_nil := List.take_nil
  heap_nil := List.take_nil
  callee c site := by
    cases kind with
    | insensitive => exact List.take_nil
    | callSite => exact take_cons_take le _ c
    | object | type => rfl
  dispatch c site v := by
    cases kind with
    | insensitive => exact List.take_nil
    | callSite => exact take_cons_take le _ c
    | object | type => exact take_cons_take_pred le _ _
  allocation c := by
    have limit (n : Nat) : (Selector.ofSensitivity n kind).limit = if kind = .insensitive then 0
        else n := by
      cases kind <;> rfl
    unfold Selector.heapSituation
    rw [limit, limit, List.take_take, List.take_take]
    congr 1
    split <;> omega

/-- Depth zero forgets everything. -/
def collapse (fine : Selector) (kind : Sensitivity) :
    Coarsening p fine (.ofSensitivity 0 kind) where
  situation _ := []
  heap _ := []
  situation_nil := rfl
  heap_nil := rfl
  callee c site := by cases kind <;> rfl
  dispatch c site v := by cases kind <;> rfl
  allocation c := (List.take_nil).symm

end Coarsening
end PointsTo
