import Mathlib.Data.List.Basic
import PointsTo.Groups
import PointsTo.Id

/-!
Lists of pairs that are gathered by their keys. Where the keys ascend, there is one group for each key
that has pairs, and sorting by keys does not move pairs of one key past each other.
-/
namespace PointsTo

variable {κ β : Type}

/-! ### Groups -/

section Groups

variable [BEq κ] [LawfulBEq κ] {k : κ} {b : β} {bs : List β} {rest : List (κ × β)}

/-- The first group is that of the first key. -/
theorem exists_groups_cons (k : κ) (b : β) (rest : List (κ × β)) :
    ∃ bs more, groups ((k, b) :: rest) = (k, bs) :: more := by
  rw [groups]
  split
  next => exact ⟨_, _, rfl⟩
  next c cs more _ =>
    split
    next same => exact ⟨b :: cs, more, by rw [eq_of_beq same]⟩
    next => exact ⟨_, _, rfl⟩

/-- The pairs of a key that does not come again are a group. -/
theorem groups_map_append (ne : bs ≠ []) (fresh : ∀ pair ∈ rest, pair.1 ≠ k) :
    groups (bs.map (k, ·) ++ rest) = (k, bs) :: groups rest := by
  induction bs with
  | nil => exact absurd rfl ne
  | cons b bs ih =>
    rw [List.map_cons, List.cons_append, groups]
    cases bs with
    | nil =>
      cases rest with
      | nil => rfl
      | cons pair rest =>
        obtain ⟨c, d⟩ := pair
        obtain ⟨cs, more, first⟩ := exists_groups_cons c d rest
        have other : (k == c) = false := beq_eq_false_iff_ne.2 (fresh (c, d) List.mem_cons_self).symm
        simp [first, other]
    | cons d bs => rw [ih (List.cons_ne_nil d bs)]; simp

/-- Distinct keys, each with its pairs, are gathered into a group for each key that has any. -/
theorem groups_flatMap {keys : List κ} (apart : keys.Nodup) (f : κ → List β) :
    groups (keys.flatMap fun k => (f k).map (k, ·)) =
      (keys.filter fun k => f k ≠ []).map fun k => (k, f k) := by
  induction keys with
  | nil => rfl
  | cons k keys ih =>
    obtain ⟨fresh, apart⟩ := List.nodup_cons.1 apart
    rw [List.flatMap_cons]
    by_cases none : f k = []
    · rw [none, List.map_nil, List.nil_append, ih apart, List.filter_cons_of_neg (by simpa using none)]
    · rw [groups_map_append none, ih apart, List.filter_cons_of_pos (by simpa using none),
        List.map_cons]
      rintro pair mem rfl
      obtain ⟨k', hk, mem⟩ := List.mem_flatMap.1 mem
      obtain ⟨b, -, rfl⟩ := List.mem_map.1 mem
      exact fresh hk

end Groups

/-! ### Sorting by keys -/

/-- Elements that are tied keep their order. -/
theorem filter_mergeSort {α : Type} {le : α → α → Bool} {p : α → Bool} (l : List α)
    (trans : ∀ a b c, le a b → le b c → le a c) (total : ∀ a b, le a b || le b a)
    (tied : ∀ a b, p a → p b → le a b) : (l.mergeSort le).filter p = l.filter p := by
  have ordered : (l.filter p).Pairwise fun a b => le a b :=
    List.pairwise_of_forall_mem_list fun a ha b hb =>
      tied a b (List.mem_filter.1 ha).2 (List.mem_filter.1 hb).2
  have inside := (List.sublist_mergeSort trans total ordered List.filter_sublist).filter p
  rw [List.filter_filter] at inside
  simp only [Bool.and_self] at inside
  exact (inside.eq_of_length ((List.mergeSort_perm l le).filter p).length_eq.symm).symm

section Sorted

variable {kind : Entity} {k : Id kind} {keys : List (Id kind)} {l : List (Id kind × β)}

theorem Id.nodup_of_pairwise (ordered : keys.Pairwise (· < ·)) : keys.Nodup :=
  ordered.imp fun before same => Nat.ne_of_lt before (congrArg Id.index same)

/-- In a sorted list the pairs of the least key come first. -/
theorem filter_append_filter_of_sorted (sorted : l.Pairwise fun a b => a.1 ≤ b.1)
    (least : ∀ pair ∈ l, k ≤ pair.1) :
    (l.filter fun pair => pair.1 = k) ++ (l.filter fun pair => pair.1 ≠ k) = l := by
  induction l with
  | nil => rfl
  | cons a l ih =>
    obtain ⟨first, sorted⟩ := List.pairwise_cons.1 sorted
    by_cases same : a.1 = k
    · rw [List.filter_cons_of_pos (by simpa using same), List.filter_cons_of_neg (by simpa using same),
        List.cons_append, ih sorted fun pair mem => least pair (List.mem_cons_of_mem a mem)]
    · have behind : ∀ pair ∈ a :: l, pair.1 ≠ k := by
        refine List.forall_mem_cons.2 ⟨same, fun pair mem eq => same ?_⟩
        exact Id.ext_iff.2 (Nat.le_antisymm (eq ▸ first pair mem) (least a List.mem_cons_self))
      rw [List.filter_eq_nil_iff.2 (by simpa using behind), List.nil_append,
        List.filter_eq_self.2 (by simpa using behind)]

theorem flatMap_filter_of_sorted (ordered : keys.Pairwise (· < ·))
    (sorted : l.Pairwise fun a b => a.1 ≤ b.1) (all : ∀ pair ∈ l, pair.1 ∈ keys) :
    (keys.flatMap fun k => l.filter fun pair => pair.1 = k) = l := by
  induction keys generalizing l with
  | nil => exact (List.eq_nil_iff_forall_not_mem.2 fun pair mem => List.not_mem_nil (all pair mem)).symm
  | cons k keys ih =>
    obtain ⟨first, ordered⟩ := List.pairwise_cons.1 ordered
    have least : ∀ pair ∈ l, k ≤ pair.1 := fun pair mem => by
      obtain same | later := List.mem_cons.1 (all pair mem)
      · exact same ▸ Nat.le_refl _
      · exact Nat.le_of_lt (first _ later)
    have others := ih ordered (sorted.filter fun pair => pair.1 ≠ k) fun pair mem => by
      obtain ⟨mem, other⟩ := List.mem_filter.1 mem
      exact (List.mem_cons.1 (all pair mem)).resolve_left (of_decide_eq_true other)
    rw [List.flatMap_cons]
    conv_rhs => rw [← filter_append_filter_of_sorted sorted least, ← others]
    congr 1
    refine List.flatMap_congr fun k' later => ?_
    rw [List.filter_filter]
    refine List.filter_congr fun pair _ => ?_
    by_cases same : pair.1 = k'
    · have other : k' ≠ k := fun eq => Nat.lt_irrefl _ (eq ▸ first k' later)
      simp [same, other]
    · simp [same]

/-- Sorting by ascending keys lists the pairs of each key in the order that they had. -/
theorem mergeSort_eq_flatMap (ordered : keys.Pairwise (· < ·)) (all : ∀ pair ∈ l, pair.1 ∈ keys) :
    (l.mergeSort fun a b => decide (a.1 ≤ b.1)) =
      keys.flatMap fun k => l.filter fun pair => pair.1 = k := by
  have trans : ∀ a b c : Id kind × β, decide (a.1 ≤ b.1) → decide (b.1 ≤ c.1) →
      decide (a.1 ≤ c.1) := fun a b c ab bc =>
    decide_eq_true (Nat.le_trans (of_decide_eq_true ab) (of_decide_eq_true bc))
  have total : ∀ a b : Id kind × β, decide (a.1 ≤ b.1) || decide (b.1 ≤ a.1) := fun a b => by
    rw [Bool.or_eq_true, decide_eq_true_iff, decide_eq_true_iff]
    exact Nat.le_total a.1.index b.1.index
  have sorted := (List.pairwise_mergeSort trans total l).imp of_decide_eq_true
  rw [← flatMap_filter_of_sorted ordered sorted fun pair mem => all pair (List.mem_mergeSort.1 mem)]
  refine List.flatMap_congr fun k _ => filter_mergeSort l trans total fun a b ha hb => ?_
  rw [of_decide_eq_true ha, of_decide_eq_true hb]
  exact decide_eq_true (Nat.le_refl _)

/-- What is sorted by its key and gathered then has a group for each key that occurs, in which
everything keeps its order. -/
theorem groups_mergeSort {α : Type} {items : List α} {key : α → Id kind} (f : α → β)
    (ordered : keys.Pairwise (· < ·)) (all : ∀ a ∈ items, key a ∈ keys) :
    groups ((items.map fun a => (key a, f a)).mergeSort fun a b => decide (a.1 ≤ b.1)) =
      (keys.filter fun k => items.filter (key · = k) ≠ []).map fun k =>
        (k, (items.filter (key · = k)).map f) := by
  have listed : ∀ pair ∈ items.map fun a => (key a, f a), pair.1 ∈ keys := List.forall_mem_map.2 all
  have together (k : Id kind) : (items.map fun a => (key a, f a)).filter (fun pair => pair.1 = k) =
      ((items.filter (key · = k)).map f).map (k, ·) := by
    rw [List.filter_map, List.map_map]
    refine List.map_congr_left fun a mem => ?_
    have here : key a = k := of_decide_eq_true (List.mem_filter.1 mem).2
    exact congrArg (·, f a) here
  rw [mergeSort_eq_flatMap ordered listed, List.flatMap_congr fun k _ => together k,
    groups_flatMap (Id.nodup_of_pairwise ordered)]
  simp only [ne_eq, List.map_eq_nil_iff]

end Sorted

end PointsTo
