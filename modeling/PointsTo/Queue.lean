/-!
First-in first-out queues.
-/
namespace PointsTo

structure Queue (α : Type) where
  front : List α := []
  back : List α := []

namespace Queue

variable {α : Type}

instance : Inhabited (Queue α) := ⟨{}⟩

instance : EmptyCollection (Queue α) := ⟨{}⟩

/-- The elements in the order in which they leave. -/
def toList (q : Queue α) : List α := q.front ++ q.back.reverse

def push (q : Queue α) (a : α) : Queue α := { q with back := a :: q.back }

def pop? (q : Queue α) : Option (α × Queue α) :=
  match q.front with
  | a :: front => some (a, { q with front })
  | [] => match q.back.reverse with
    | a :: front => some (a, ⟨front, []⟩)
    | [] => none

@[simp] theorem toList_empty : (∅ : Queue α).toList = [] := rfl

@[simp] theorem toList_push (q : Queue α) (a : α) : (q.push a).toList = q.toList ++ [a] := by
  simp [toList, push]

theorem toList_of_pop? {q r : Queue α} {a : α} (h : q.pop? = some (a, r)) :
    q.toList = a :: r.toList := by
  rcases q with ⟨_ | ⟨b, front⟩, back⟩
  · cases hb : back.reverse <;> simp_all [pop?, toList]
    obtain ⟨rfl, rfl⟩ := h
    simp
  · simp [pop?] at h
    obtain ⟨rfl, rfl⟩ := h
    simp [toList]

theorem pop?_eq_none_iff {q : Queue α} : q.pop? = none ↔ q.toList = [] := by
  rcases q with ⟨_ | ⟨b, front⟩, back⟩
  · cases hb : back.reverse <;> simp_all [pop?, toList]
  · simp [pop?, toList]

end Queue

end PointsTo
