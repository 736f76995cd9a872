/-!
Lists in ascending order without repetitions.
-/
namespace PointsTo

variable {α : Type} [BEq α]

/-- Merges `x`, followed by what `rest` merges its argument with, and an ascending list. -/
def mergeBehind (le : α → α → Bool) (x : α) (rest : List α → List α) : List α → List α
  | [] => x :: rest []
  | y :: ys =>
    if x == y then x :: rest ys
    else if le x y then x :: rest (y :: ys)
    else y :: mergeBehind le x rest ys

/-- Merges two ascending lists, an element of both being kept once. -/
def mergeAscending (le : α → α → Bool) : List α → List α → List α
  | [], ys => ys
  | x :: xs, ys => mergeBehind le x (mergeAscending le xs) ys

def mergePairs (le : α → α → Bool) : List (List α) → List (List α)
  | xs :: ys :: rest => mergeAscending le xs ys :: mergePairs le rest
  | lists => lists

/-- Merges ascending lists pair by pair, in at most `rounds` rounds, and what is left then from the
right. -/
def mergeAll (le : α → α → Bool) : (rounds : Nat) → List (List α) → List α
  | 0, lists => lists.foldr (mergeAscending le) []
  | _ + 1, [] => []
  | _ + 1, [xs] => xs
  | rounds + 1, lists => mergeAll le rounds (mergePairs le lists)

/-- The elements of `xs` in the order `le`, each once. -/
def ascending (le : α → α → Bool) (xs : List α) : List α := mergeAll le xs.length (xs.map ([·]))

section Members

variable [LawfulBEq α] {le : α → α → Bool} {a : α}

theorem mem_mergeBehind {x : α} {xs ys : List α} {rest : List α → List α}
    (mem_rest : ∀ zs, a ∈ rest zs ↔ a ∈ xs ∨ a ∈ zs) :
    a ∈ mergeBehind le x rest ys ↔ a ∈ x :: xs ∨ a ∈ ys := by
  induction ys with
  | nil => simp [mergeBehind, mem_rest]
  | cons y ys ih =>
    unfold mergeBehind
    split
    next same =>
      rw [eq_of_beq same]
      simp [mem_rest, or_assoc, or_left_comm]
    next =>
      split
      · simp [mem_rest, or_assoc]
      · simp only [List.mem_cons, ih]
        exact or_left_comm

theorem mem_mergeAscending {xs ys : List α} :
    a ∈ mergeAscending le xs ys ↔ a ∈ xs ∨ a ∈ ys := by
  induction xs generalizing ys with
  | nil => simp [mergeAscending]
  | cons x xs ih => exact mem_mergeBehind fun _ => ih

theorem mem_flatten_mergePairs {lists : List (List α)} :
    a ∈ (mergePairs le lists).flatten ↔ a ∈ lists.flatten := by
  fun_induction mergePairs le lists with
  | case1 xs ys rest ih => simp only [List.flatten_cons, List.mem_append, mem_mergeAscending, ih,
      or_assoc]
  | case2 => rfl

theorem mem_mergeAll {rounds : Nat} {lists : List (List α)} :
    a ∈ mergeAll le rounds lists ↔ a ∈ lists.flatten := by
  fun_induction mergeAll le rounds lists with
  | case1 lists =>
    induction lists with
    | nil => rfl
    | cons xs lists ih => simp only [List.foldr_cons, mem_mergeAscending, ih, List.flatten_cons,
        List.mem_append]
  | case2 => simp
  | case3 => simp
  | case4 rounds lists _ _ ih => rw [ih, mem_flatten_mergePairs]

@[simp] theorem mem_ascending {xs : List α} : a ∈ ascending le xs ↔ a ∈ xs := by
  rw [ascending, mem_mergeAll, ← List.flatMap_def]
  simp

end Members

section Order

variable [LawfulBEq α] {le : α → α → Bool}

/-- Strictly ascending lists. -/
def Ascends (le : α → α → Bool) (xs : List α) : Prop := xs.Pairwise fun a b => le a b ∧ a ≠ b

theorem ascends_mergeAscending (total : ∀ a b, le a b || le b a)
    (trans : ∀ a b c, le a b → le b c → le a c) (antisymm : ∀ a b, le a b → le b a → a = b)
    {xs ys : List α} (hx : Ascends le xs) (hy : Ascends le ys) :
    Ascends le (mergeAscending le xs ys) := by
  induction xs generalizing ys with
  | nil => exact hy
  | cons x xs ihx =>
    have ⟨least, hx'⟩ := List.pairwise_cons.1 hx
    change Ascends le (mergeBehind le x (mergeAscending le xs) ys)
    induction ys with
    | nil => exact List.pairwise_cons.2 ⟨by simpa [mem_mergeAscending] using least, ihx hx' .nil⟩
    | cons y ys ihy =>
      have ⟨first, hy'⟩ := List.pairwise_cons.1 hy
      unfold mergeBehind
      split
      next same =>
        cases eq_of_beq same
        refine List.pairwise_cons.2 ⟨fun c hc => ?_, ihx hx' hy'⟩
        exact (mem_mergeAscending.1 hc).elim (least c) (first c)
      next differ =>
        have ne : x ≠ y := fun h => differ (by simp [h])
        split
        next before =>
          refine List.pairwise_cons.2 ⟨fun c hc => ?_, ihx hx' hy⟩
          rcases mem_mergeAscending.1 hc with hc | hc
          · exact least c hc
          · rcases List.mem_cons.1 hc with rfl | hc
            · exact ⟨before, ne⟩
            · refine ⟨trans _ _ _ before (first c hc).1, ?_⟩
              rintro rfl
              exact ne (antisymm _ _ before (first _ hc).1)
        next behind =>
          have before : le y x := by simpa [behind] using total x y
          refine List.pairwise_cons.2 ⟨fun c hc => ?_, ihy hy'⟩
          rcases (mem_mergeBehind fun _ => mem_mergeAscending).1 hc with hc | hc
          · rcases List.mem_cons.1 hc with rfl | hc
            · exact ⟨before, ne.symm⟩
            · refine ⟨trans _ _ _ before (least c hc).1, ?_⟩
              rintro rfl
              exact ne (antisymm _ _ (least _ hc).1 before)
          · exact first c hc

theorem ascends_mergePairs (total : ∀ a b, le a b || le b a)
    (trans : ∀ a b c, le a b → le b c → le a c) (antisymm : ∀ a b, le a b → le b a → a = b)
    {lists : List (List α)} (h : ∀ xs ∈ lists, Ascends le xs) :
    ∀ xs ∈ mergePairs le lists, Ascends le xs := by
  fun_induction mergePairs le lists with
  | case1 xs ys rest ih =>
    rintro zs (_ | ⟨_, hz⟩)
    · exact ascends_mergeAscending total trans antisymm (h xs (by simp)) (h ys (by simp))
    · exact ih (fun xs hx => h xs (by simp [hx])) zs hz
  | case2 => exact h

theorem ascends_mergeAll (total : ∀ a b, le a b || le b a)
    (trans : ∀ a b c, le a b → le b c → le a c) (antisymm : ∀ a b, le a b → le b a → a = b)
    {rounds : Nat} {lists : List (List α)} (h : ∀ xs ∈ lists, Ascends le xs) :
    Ascends le (mergeAll le rounds lists) := by
  fun_induction mergeAll le rounds lists with
  | case1 lists =>
    induction lists with
    | nil => exact .nil
    | cons xs lists ih =>
      exact ascends_mergeAscending total trans antisymm (h xs (by simp))
        (ih fun ys hy => h ys (by simp [hy]))
  | case2 => exact .nil
  | case3 rounds xs => exact h xs (by simp)
  | case4 rounds lists _ _ ih => exact ih (ascends_mergePairs total trans antisymm h)

theorem ascends_ascending (total : ∀ a b, le a b || le b a)
    (trans : ∀ a b c, le a b → le b c → le a c) (antisymm : ∀ a b, le a b → le b a → a = b)
    (xs : List α) : Ascends le (ascending le xs) :=
  ascends_mergeAll total trans antisymm fun ys hy => by
    obtain ⟨a, _, rfl⟩ := List.mem_map.1 hy
    exact List.pairwise_singleton _ a

end Order

end PointsTo
