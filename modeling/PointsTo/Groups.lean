/-!
Lists of pairs, gathered by their first components.
-/
namespace PointsTo

variable {α β : Type} [BEq α]

/-- One group for each run of pairs with equal first components. -/
def groups : List (α × β) → List (α × List β)
  | [] => []
  | (a, b) :: rest => match groups rest with
    | [] => [(a, [b])]
    | (c, bs) :: more => if a == c then (c, b :: bs) :: more else (a, [b]) :: (c, bs) :: more

/-- Gathering loses and reorders nothing. -/
theorem flatMap_groups [LawfulBEq α] (xs : List (α × β)) :
    ((groups xs).flatMap fun (a, bs) => bs.map (a, ·)) = xs := by
  fun_induction groups xs <;> simp_all

end PointsTo
