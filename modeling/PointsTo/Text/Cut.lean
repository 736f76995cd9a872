/-!
Cutting texts at separators.
-/
namespace PointsTo.Text

/-- What follows `start` in a text that begins with it. -/
def after? : (start s : List Char) → Option (List Char)
  | [], s => some s
  | _ :: _, [] => none
  | p :: start, c :: s => if p = c then after? start s else none

/-- What precedes `tail` in a text that ends with it. -/
def before? (tail s : List Char) : Option (List Char) :=
  (after? tail.reverse s.reverse).map List.reverse

/-- The two sides of the first occurrence of `sep`. -/
def cut? (sep : List Char) : List Char → Option (List Char × List Char)
  | [] => if sep.isEmpty then some ([], []) else none
  | c :: s => match after? sep (c :: s) with
    | some rest => some ([], rest)
    | none => (cut? sep s).map fun (left, right) => (c :: left, right)

/-- The two sides of the last occurrence of a character. -/
def cutLast? (sep : Char) (s : List Char) : Option (List Char × List Char) :=
  (cut? [sep] s.reverse).map fun (right, left) => (left.reverse, right.reverse)

/-- The pieces of a text between the occurrences of a character; always at least one. -/
def pieces (sep : Char) : List Char → List (List Char)
  | [] => [[]]
  | c :: s =>
    if c = sep then [] :: pieces sep s
    else match pieces sep s with
      | [] => [[c]]
      | piece :: rest => (c :: piece) :: rest

theorem after?_eq_some_iff {start s rest : List Char} :
    after? start s = some rest ↔ s = start ++ rest := by
  fun_induction after? start s with
  | case1 s => simp [eq_comm]
  | case2 => simp
  | case3 p start s ih => simp [ih]
  | case4 p start c s h => simp [Ne.symm h]

theorem before?_eq_some_iff {tail s rest : List Char} :
    before? tail s = some rest ↔ s = rest ++ tail := by
  simp only [before?, Option.map_eq_some_iff, after?_eq_some_iff]
  constructor
  · rintro ⟨r, h, rfl⟩
    simpa using congrArg List.reverse h
  · rintro rfl
    exact ⟨rest.reverse, by simp, by simp⟩

theorem eq_append_of_cut? {sep s left right : List Char} (h : cut? sep s = some (left, right)) :
    s = left ++ sep ++ right := by
  induction s generalizing left right with
  | nil => cases sep <;> simp_all [cut?]
  | cons c s ih =>
    rw [cut?] at h
    split at h
    next rest hr =>
      cases h
      simpa using after?_eq_some_iff.1 hr
    next =>
      obtain ⟨⟨l, r⟩, hl, heq⟩ := Option.map_eq_some_iff.1 h
      cases heq
      simp [ih hl]

end PointsTo.Text
