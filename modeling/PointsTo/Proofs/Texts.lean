import Mathlib.Data.List.DropRight
import PointsTo.Text.Blank
import PointsTo.Text.Cut

/-!
Texts are trimmed until they neither begin nor end with a blank, and they are cut at the first place
that will do. Pieces that hold no separator are found again between the separators.
-/
namespace PointsTo.Text

variable {s t left right : List Char} {a b c : Char}

/-! ### Blanks at the ends -/

/-- The text neither begins nor ends with a blank. -/
structure Bare (s : List Char) : Prop where
  first : ∀ c, s.head? = some c → isBlank c = false
  last : ∀ c, s.getLast? = some c → isBlank c = false

theorem isBlank_of_head?_dropWhile (h : (s.dropWhile isBlank).head? = some c) :
    isBlank c = false := by
  have first := List.head?_dropWhile_not isBlank s
  rwa [h] at first

theorem isPrefix_trimRight (s : List Char) : trimRight s <+: s := List.rdropWhile_prefix isBlank s

theorem isInfix_trim (s : List Char) : trim s <:+: s :=
  (isPrefix_trimRight _).isInfix.trans (List.dropWhile_suffix isBlank).isInfix

theorem bare_trim (s : List Char) : Bare (trim s) where
  first c h := by
    obtain ⟨rest, split⟩ := isPrefix_trimRight (trimLeft s)
    apply isBlank_of_head?_dropWhile (s := s)
    change (trimLeft s).head? = some c
    rw [← split, List.head?_append]
    exact Option.or_eq_some_iff.2 (.inl h)
  last c h := by
    rw [trim, trimRight, List.getLast?_reverse] at h
    exact isBlank_of_head?_dropWhile h

theorem Bare.trim_eq (h : Bare s) : trim s = s := by
  have left : trimLeft s = s := List.dropWhile_eq_self_iff.2 fun pos => by
    rw [Bool.not_eq_true]
    exact h.first _ (List.head?_eq_getElem?.trans (List.getElem?_eq_getElem pos))
  have right : trimRight s = s := List.rdropWhile_eq_self_iff.2 fun ne => by
    rw [Bool.not_eq_true]
    exact h.last _ (List.getLast?_eq_some_getLast ne)
  rw [trim, left, right]

/-- Nothing is left of blanks only. -/
theorem trim_eq_nil_iff : trim s = [] ↔ ∀ c ∈ s, isBlank c = true := by
  rw [trim, trimRight, List.reverse_eq_nil_iff, List.dropWhile_eq_nil_iff]
  simp only [List.mem_reverse]
  refine ⟨fun blank => ?_, fun blank c mem => blank c ((List.dropWhile_suffix isBlank).mem mem)⟩
  refine List.dropWhile_eq_nil_iff.1 (List.eq_nil_iff_forall_not_mem.2 fun c mem => ?_)
  have first := List.dropWhile_get_zero_not isBlank s (List.length_pos_of_mem mem)
  exact first (blank _ (List.get_mem _ _))

theorem bare_of_blankless (h : ∀ c ∈ s, isBlank c = false) : Bare s where
  first c hc := h c (List.mem_of_head? hc)
  last c hc := h c (List.mem_of_getLast? hc)

/-- It is enough to look at the ends. -/
theorem bare_of_ends (first : isBlank a = false) (last : isBlank b = false) :
    Bare (a :: (s ++ [b])) where
  first c h := by
    cases h
    exact first
  last c h := by
    rw [← List.cons_append, List.getLast?_append] at h
    cases h
    exact last

/-! ### First occurrences -/

theorem after?_isSome_iff {start : List Char} : (after? start s).isSome = true ↔ start <+: s := by
  rw [Option.isSome_iff_exists]
  exact ⟨fun ⟨rest, h⟩ => ⟨rest, (after?_eq_some_iff.1 h).symm⟩,
    fun ⟨rest, h⟩ => ⟨rest, after?_eq_some_iff.2 h.symm⟩⟩

/-- A text is cut at its start, or else behind its first character. -/
theorem cut?_cons {sep : List Char} : cut? sep (c :: s) = some (left, right) ↔
    left = [] ∧ c :: s = sep ++ right ∨
      ¬ sep <+: c :: s ∧ ∃ rest, left = c :: rest ∧ cut? sep s = some (rest, right) := by
  rw [cut?]
  split
  next found h =>
    rw [after?_eq_some_iff] at h
    simp [h, eq_comm]
  next none =>
    have elsewhere : ¬ sep <+: c :: s := by simp [← after?_isSome_iff, none]
    have differs : c :: s ≠ sep ++ right := fun h => elsewhere ⟨right, h.symm⟩
    simp only [elsewhere, differs, not_false_eq_true, and_false, false_or, true_and]
    constructor
    · intro h
      obtain ⟨⟨rest, _⟩, found, pair⟩ := Option.map_eq_some_iff.1 h
      cases pair
      exact ⟨rest, rfl, found⟩
    · rintro ⟨rest, rfl, found⟩
      rw [found]
      rfl

/-- A text is cut at the first occurrence of a character. -/
theorem cut?_singleton : cut? [c] s = some (left, right) ↔ s = left ++ c :: right ∧ c ∉ left := by
  induction s generalizing left with
  | nil => simp [cut?]
  | cons d s ih =>
    rw [cut?_cons]
    cases left with
    | nil => simp
    | cons e left =>
      simp only [List.cons_prefix_cons, List.nil_prefix, ih, List.cons_append, List.cons.injEq,
        List.mem_cons, not_or]
      grind

/-- A text is cut at the first occurrence of two different characters in a row. -/
theorem cut?_pair (apart : a ≠ b) :
    cut? [a, b] s = some (left, right) ↔ s = left ++ a :: b :: right ∧ ¬ [a, b] <:+: left := by
  induction s generalizing left with
  | nil => simp [cut?]
  | cons d s ih =>
    rw [cut?_cons]
    cases left with
    | nil => simp
    | cons e left =>
      -- the two characters do not begin inside `left` and end outside, as they differ
      have inside : [a, b] <+: e :: (left ++ a :: b :: right) ↔ [a, b] <+: e :: left := by
        cases left with
        | nil => simp [List.cons_prefix_cons, apart.symm]
        | cons => simp [List.cons_prefix_cons]
      rw [List.infix_cons_iff, not_or, ← inside]
      simp only [ih, List.cons_append, List.cons.injEq]
      grind

/-! ### Pieces -/

theorem pieces_of_notMem (h : c ∉ s) : pieces c s = [s] := by
  induction s with
  | nil => rfl
  | cons d s ih =>
    rw [List.mem_cons, not_or] at h
    rw [pieces, if_neg (Ne.symm h.1), ih h.2]

theorem pieces_append (h : c ∉ s) : pieces c (s ++ c :: t) = s :: pieces c t := by
  induction s with
  | nil => simp [pieces]
  | cons d s ih =>
    rw [List.mem_cons, not_or] at h
    rw [List.cons_append, pieces, if_neg (Ne.symm h.1), ih h.2]

/-- Pieces that do not hold the character between them are found again. -/
theorem pieces_intercalate {texts : List (List Char)} (ne : texts ≠ [])
    (apart : ∀ s ∈ texts, c ∉ s) : pieces c ([c].intercalate texts) = texts := by
  induction texts with
  | nil => exact absurd rfl ne
  | cons s texts ih =>
    obtain ⟨first, rest⟩ := List.forall_mem_cons.1 apart
    cases texts with
    | nil => rw [List.intercalate_singleton, pieces_of_notMem first]
    | cons t texts =>
      rw [List.intercalate_cons_cons, List.append_assoc, List.singleton_append,
        pieces_append first, ih (List.cons_ne_nil t texts) rest]

theorem notMem_of_mem_pieces (h : s ∈ pieces c t) : c ∉ s := by
  induction t generalizing s with
  | nil => simp_all [pieces]
  | cons d t ih =>
    rw [pieces] at h
    split at h
    next =>
      obtain rfl | h := List.mem_cons.1 h
      · exact List.not_mem_nil
      · exact ih h
    next other =>
      split at h
      next =>
        cases List.mem_singleton.1 h
        simp [Ne.symm other]
      next piece rest found =>
        rw [found] at ih
        obtain rfl | h := List.mem_cons.1 h
        · simp [Ne.symm other, ih List.mem_cons_self]
        · exact ih (List.mem_cons_of_mem piece h)

end PointsTo.Text
