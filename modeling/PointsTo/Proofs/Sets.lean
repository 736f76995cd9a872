import Mathlib.Data.List.Perm.Subperm
import Mathlib.Tactic.Push
import PointsTo.Facts.Pending
import PointsTo.Proofs.Facts.Bits

/-!
Both forms of a hybrid set are finite sets with the same members, and a pending store keeps for each
key the elements that are still to be passed on apart from those that have been.
-/
namespace PointsTo.Facts

namespace HybridSet

theorem index_injective {α : Type} [Indexed α] {a b : α}
    (h : Indexed.index a = Indexed.index b) : a = b := by
  rw [← Indexed.ofIndex_index a, h, Indexed.ofIndex_index]

theorem exists_index {α : Type} [Indexed α] {p : Nat → Prop} :
    (∃ i, p i) ↔ ∃ a : α, p (Indexed.index a) :=
  ⟨fun ⟨i, h⟩ => ⟨Indexed.ofIndex i, by rwa [Indexed.index_ofIndex]⟩, fun ⟨_, h⟩ => ⟨_, h⟩⟩

theorem mem_map_index {α : Type} [Indexed α] {a : α} {elems : List α} :
    Indexed.index a ∈ elems.map Indexed.index ↔ a ∈ elems :=
  List.mem_map_of_injective fun _ _ => index_injective

theorem mem_dense {α : Type} [Indexed α] {a : α} {elems : List α} :
    Indexed.index a ∈ dense elems ↔ a ∈ elems :=
  BitSet.mem_ofList.trans mem_map_index

variable {α : Type} [DecidableEq α] [Indexed α] {s t : HybridSet α} {a b : α}

@[simp] theorem mem_small {elems : List α} {nodup length_le} :
    a ∈ small elems nodup length_le ↔ a ∈ elems := decide_eq_true_iff

@[simp] theorem mem_large {bits : BitSet} : a ∈ large bits ↔ Indexed.index a ∈ bits := Iff.rfl

theorem contains_iff : s.contains a = true ↔ a ∈ s := Iff.rfl

@[simp] theorem not_mem_empty : a ∉ (∅ : HybridSet α) := fun h => List.not_mem_nil (mem_small.1 h)

theorem mem_toList : a ∈ s.toList ↔ a ∈ s := by
  cases s with
  | small elems => simp [toList]
  | large bits =>
    simp only [toList, List.mem_map, mem_large, BitSet.mem_toList]
    constructor
    · rintro ⟨i, hi, rfl⟩
      rwa [Indexed.index_ofIndex]
    · exact fun h => ⟨_, h, Indexed.ofIndex_index a⟩

theorem isEmpty_iff : s.isEmpty = true ↔ ∀ a, a ∉ s := by
  cases s with
  | small elems => simp [isEmpty, List.eq_nil_iff_forall_not_mem]
  | large bits =>
    simp only [isEmpty, BitSet.isEmpty_iff, mem_large]
    exact ⟨fun h a => h _, fun h i => by simpa [Indexed.index_ofIndex] using h (Indexed.ofIndex i)⟩

theorem mem_insert : b ∈ (s.insert a).2 ↔ b = a ∨ b ∈ s := by
  unfold insert
  split
  next elems nodup length_le =>
    split
    next mem => grind [mem_small]
    next =>
      split
      · simp [or_comm]
      · simp [mem_dense, or_comm]
  next bits =>
    simp only [mem_large, BitSet.mem_insert]
    exact or_congr_left ⟨index_injective, congrArg _⟩

theorem insert_fst : (s.insert a).1 = true ↔ a ∉ s := by
  unfold insert
  split
  next elems nodup length_le =>
    split
    next mem => simp [mem]
    next mem => split <;> simp [mem]
  next bits => exact BitSet.insert_fst

theorem insertAll_cons {elems : List α} :
    s.insertAll (a :: elems) = (((s.insert a).1 || ((s.insert a).2.insertAll elems).1),
      ((s.insert a).2.insertAll elems).2) := by
  have flag (elems : List α) (c : Bool) (s : HybridSet α) :
      elems.foldl (fun r a => ((r.1 || (r.2.insert a).1), (r.2.insert a).2)) (c, s) =
        (c || (s.insertAll elems).1, (s.insertAll elems).2) := by
    induction elems generalizing c s with
    | nil => simp [insertAll]
    | cons b elems ih =>
      rw [insertAll, List.foldl_cons, List.foldl_cons, ih, ih]
      simp [Bool.or_assoc]
  exact flag elems (s.insert a).1 (s.insert a).2

theorem mem_insertAll {elems : List α} : a ∈ (s.insertAll elems).2 ↔ a ∈ s ∨ a ∈ elems := by
  induction elems generalizing s with
  | nil => simp [insertAll]
  | cons b elems ih =>
    rw [insertAll_cons, ih, mem_insert, List.mem_cons]
    exact ⟨fun h => by grind, fun h => by grind⟩

theorem insertAll_fst {elems : List α} :
    (s.insertAll elems).1 = true ↔ ∃ a ∈ elems, a ∉ s := by
  induction elems generalizing s with
  | nil => simp [insertAll]
  | cons b elems ih =>
    rw [insertAll_cons, Bool.or_eq_true, insert_fst, ih]
    simp only [mem_insert]
    constructor
    · rintro (h | ⟨a, ha, h⟩)
      · exact ⟨b, by simp, h⟩
      · exact ⟨a, by simp [ha], fun h' => h (.inr h')⟩
    · rintro ⟨a, ha, h⟩
      by_cases hb : b ∈ s
      · refine .inr ⟨a, ?_, ?_⟩ <;> grind
      · exact .inl hb

theorem mem_ofList {elems : List α} : a ∈ ofList elems ↔ a ∈ elems := by
  simp [ofList, mem_insertAll]

theorem mem_filter {p : α → Bool} : a ∈ s.filter p ↔ a ∈ s ∧ p a = true := by
  simp [filter, mem_ofList, mem_toList]

theorem mem_union : a ∈ (s.union t).2 ↔ a ∈ s ∨ a ∈ t := by
  unfold union
  split
  next => simp [mem_insertAll]
  next => simp [BitSet.mem_union]
  next => simp [BitSet.mem_insertAll, mem_map_index, or_comm]

theorem mem_subtract : a ∈ (s.subtract t).2 ↔ a ∈ s ∧ a ∉ t := by
  unfold subtract
  split
  next ours theirs => exact BitSet.mem_subtract
  next ours theirs _ _ =>
    rw [mem_large, mem_large, mem_small, BitSet.mem_removeAll, mem_map_index]
  next _ ours nodup length_le =>
    refine Iff.trans (b := a ∈ ours.filter fun a => !t.contains a) decide_eq_true_iff ?_
    rw [mem_small, List.mem_filter, Bool.not_eq_true', ← Bool.not_eq_true]
    exact Iff.rfl

theorem nodup_toList : s.toList.Nodup := by
  cases s with
  | small elems nodup => exact nodup
  | large bits =>
    refine List.Pairwise.map _ (fun i j lt eq => ?_) bits.pairwise_toList
    have := congrArg (Indexed.index (α := α)) eq
    rw [Indexed.index_ofIndex, Indexed.index_ofIndex] at this
    omega

theorem length_toList : s.toList.length = s.count := by
  cases s with
  | small elems => rfl
  | large bits => exact (List.length_map _).trans bits.length_toList

theorem union_fst : (s.union t).1 = true ↔ ∃ a ∈ t, a ∉ s := by
  unfold union
  split
  next => simp [insertAll_fst]
  next ours theirs =>
    simp only [mem_large, BitSet.union_fst]
    exact exists_index
  next ours nodup length_le theirs =>
    -- the united set has as many elements as the short one exactly when it has no others
    let united : HybridSet α := large (theirs.insertAll (ours.map Indexed.index))
    have mem (a : α) : a ∈ united.toList ↔ a ∈ large theirs ∨ a ∈ ours := by
      rw [mem_toList, mem_large, BitSet.mem_insertAll, mem_map_index, mem_large]
    have sub : ours.Subperm united.toList :=
      List.subperm_of_subset nodup fun a ha => (mem a).2 (.inr ha)
    have count : (theirs.insertAll (ours.map Indexed.index)).count = united.toList.length :=
      (length_toList (s := united)).symm
    rw [bne_iff_ne, count]
    constructor
    · intro ne
      by_contra none
      push Not at none
      refine ne (Nat.le_antisymm ?_ sub.length_le)
      refine (List.subperm_of_subset nodup_toList fun a ha => ?_).length_le
      exact ((mem a).1 ha).elim (fun h => mem_small.1 (none a h)) id
    · rintro ⟨a, ha, fresh⟩ same
      have := (sub.perm_of_length_le (Nat.le_of_eq same)).mem_iff.2 ((mem a).2 (.inl ha))
      exact fresh (mem_small.2 this)

theorem subtract_fst : (s.subtract t).1 = true ↔ ∃ a ∈ t, a ∈ s := by
  unfold subtract
  split
  next ours theirs =>
    simp only [BitSet.subtract_fst, mem_large]
    exact exists_index
  next ours theirs _ _ => simp [BitSet.removeAll_fst]
  next _ ours nodup length_le =>
    rw [bne_iff_ne, Ne, List.length_filter_eq_length_iff]
    push Not
    refine exists_congr fun a => ?_
    rw [Ne, Bool.not_eq_true', Bool.not_eq_false, mem_small, and_comm]
    exact Iff.rfl

theorem superset_iff : s.superset t = true ↔ ∀ a ∈ t, a ∈ s := by
  unfold superset
  split
  next ours theirs =>
    rw [BitSet.superset_iff]
    exact ⟨fun h a => h _, fun h i => by
      simpa only [mem_large, Indexed.index_ofIndex] using h (Indexed.ofIndex i)⟩
  next => simp only [List.all_eq_true, mem_toList, contains_iff]

end HybridSet

namespace PendingStore

variable {κ α : Type} [Coded κ] [DecidableEq α] [Indexed α] {d : PendingStore κ α} {k l : κ}
  {a b : α} {elems : HybridSet α}

theorem mem_all : a ∈ d.all k ↔ a ∈ d.pendingOf k ∨ a ∈ d.propagatedOf k := by
  unfold all pendingOf
  rw [Std.TreeMap.getD_eq_getD_getElem?]
  split
  next new h => rw [h, HybridSet.mem_union, or_comm, Option.getD_some]
  next h => rw [h, Option.getD_none]; simp

@[simp] theorem propagatedOf_add : (d.add k a).2.propagatedOf l = d.propagatedOf l := by
  unfold add
  split <;> rfl

theorem mem_pendingOf_add :
    b ∈ (d.add k a).2.pendingOf l ↔ b ∈ d.pendingOf l ∨ l = k ∧ b = a ∧ a ∉ d.propagatedOf k := by
  unfold add
  split
  next old => simp [HybridSet.contains_iff.1 old]
  next new =>
    have new : a ∉ d.propagatedOf k := new
    simp only [pendingOf, Std.TreeMap.getD_insert, Coded.compare_eq_iff]
    by_cases same : k = l
    · subst same
      simp [HybridSet.mem_insert, new, or_comm]
    · simp [same, Ne.symm same]

/-- The flag of `add` is set exactly when `k` gains a pending element. -/
theorem add_fst : (d.add k a).1 = true ↔ a ∉ d.all k := by
  rw [mem_all, not_or]
  unfold add
  split
  next old => simp [HybridSet.contains_iff.1 old]
  next new =>
    have new : a ∉ d.propagatedOf k := new
    simp [HybridSet.insert_fst, new]

theorem mem_all_add : b ∈ (d.add k a).2.all l ↔ b ∈ d.all l ∨ l = k ∧ b = a := by
  rw [mem_all, mem_all, propagatedOf_add, mem_pendingOf_add]
  by_cases old : a ∈ d.propagatedOf k
  · constructor
    · rintro ((h | ⟨-, -, h⟩) | h)
      · exact .inl (.inl h)
      · exact absurd old h
      · exact .inl (.inr h)
    · rintro ((h | h) | ⟨rfl, rfl⟩)
      · exact .inl (.inl h)
      · exact .inr h
      · exact .inr old
  · simp only [old, not_false_iff, and_true]
    exact or_right_comm

/-- The elements of a set that `k` has not yet passed on. -/
def unseen (d : PendingStore κ α) (k : κ) (elems : HybridSet α) : HybridSet α :=
  match d.propagated[k]? with
  | some old => (elems.subtract old).2
  | none => elems

theorem mem_unseen : a ∈ d.unseen k elems ↔ a ∈ elems ∧ a ∉ d.propagatedOf k := by
  unfold unseen propagatedOf
  rw [Std.TreeMap.getD_eq_getD_getElem?]
  split
  next old h => rw [h, HybridSet.mem_subtract, Option.getD_some]
  next h => rw [h, Option.getD_none]; simp

theorem union_eq : d.union k elems =
    if (d.unseen k elems).isEmpty then (false, d)
    else (((d.pendingOf k).union (d.unseen k elems)).1,
      { d with pending := d.pending.insert k ((d.pendingOf k).union (d.unseen k elems)).2 }) := rfl

@[simp] theorem propagatedOf_union : (d.union k elems).2.propagatedOf l = d.propagatedOf l := by
  rw [union_eq]
  split <;> rfl

theorem mem_pendingOf_union :
    a ∈ (d.union k elems).2.pendingOf l ↔
      a ∈ d.pendingOf l ∨ l = k ∧ a ∈ elems ∧ a ∉ d.propagatedOf k := by
  rw [union_eq, ← mem_unseen]
  split
  next none => simp [HybridSet.isEmpty_iff.1 none a]
  next =>
    simp only [pendingOf, Std.TreeMap.getD_insert, Coded.compare_eq_iff]
    by_cases same : k = l
    · subst same
      simp [HybridSet.mem_union]
    · simp [same, Ne.symm same]

/-- The flag of `union` is set exactly when `k` gains a pending element. -/
theorem union_fst : (d.union k elems).1 = true ↔ ∃ a ∈ elems, a ∉ d.all k := by
  have fresh : (∃ a ∈ elems, a ∉ d.all k) ↔ ∃ a ∈ d.unseen k elems, a ∉ d.pendingOf k := by
    simp only [mem_all, not_or, mem_unseen]
    exact exists_congr fun a => ⟨fun ⟨h, q, p⟩ => ⟨⟨h, p⟩, q⟩, fun ⟨⟨h, p⟩, q⟩ => ⟨h, q, p⟩⟩
  rw [union_eq, fresh]
  split
  next none => simp [HybridSet.isEmpty_iff.1 none]
  next => exact HybridSet.union_fst

theorem mem_all_union : a ∈ (d.union k elems).2.all l ↔ a ∈ d.all l ∨ l = k ∧ a ∈ elems := by
  rw [mem_all, mem_all, propagatedOf_union, mem_pendingOf_union]
  by_cases old : a ∈ d.propagatedOf l
  · simp [old]
  · by_cases same : l = k
    · subst same
      simp [old]
    · simp [same]

/-- What `flush` hands out: all pending elements, unless there are none. -/
theorem mem_of_flush {new : HybridSet α} (h : (d.flush k).1 = some new) :
    a ∈ new ↔ a ∈ d.pendingOf k := by
  unfold flush at h
  unfold pendingOf
  rw [Std.TreeMap.getD_eq_getD_getElem?]
  split at h
  next => cases h
  next some =>
    split at h
    next => cases h
    next => rw [some, ← Option.some.inj h, Option.getD_some]

/-- What is handed out is never empty. -/
theorem exists_mem_of_flush {new : HybridSet α} (h : (d.flush k).1 = some new) : ∃ a, a ∈ new := by
  unfold flush at h
  split at h
  next => cases h
  next =>
    split at h
    next => cases h
    next filled =>
      cases h
      rw [HybridSet.isEmpty_iff] at filled
      exact not_forall_not.1 filled

theorem pendingOf_of_flush (h : (d.flush k).1 = none) : a ∉ d.pendingOf k := by
  unfold flush at h
  unfold pendingOf
  rw [Std.TreeMap.getD_eq_getD_getElem?]
  split at h
  next none => simp [none]
  next some =>
    split at h
    next empty =>
      rw [some, Option.getD_some]
      exact HybridSet.isEmpty_iff.1 empty a
    next => cases h

theorem flush_eq_of_none (h : (d.flush k).1 = none) : (d.flush k).2 = d := by
  unfold flush at h ⊢
  split
  next => rfl
  next some =>
    simp only [some] at h
    split at h
    next empty => rw [if_pos empty]
    next => cases h

theorem mem_pendingOf_flush : a ∈ (d.flush k).2.pendingOf l ↔ l ≠ k ∧ a ∈ d.pendingOf l := by
  cases h : (d.flush k).1 with
  | none =>
    rw [flush_eq_of_none h]
    refine ⟨fun ha => ⟨?_, ha⟩, And.right⟩
    rintro rfl
    exact pendingOf_of_flush h ha
  | some new =>
    unfold flush at h ⊢
    split at h
    next => cases h
    next some =>
      split at h
      next => cases h
      next nonempty =>
        simp only [if_neg nonempty, pendingOf, Std.TreeMap.getD_insert, Coded.compare_eq_iff]
        by_cases same : k = l
        · simp [same]
        · simp [same, Ne.symm same]

theorem mem_propagatedOf_flush :
    a ∈ (d.flush k).2.propagatedOf l ↔
      a ∈ d.propagatedOf l ∨ l = k ∧ a ∈ d.pendingOf k := by
  cases h : (d.flush k).1 with
  | none =>
    rw [flush_eq_of_none h]
    simp [pendingOf_of_flush h]
  | some new =>
    have handed := mem_of_flush (a := a) h
    unfold flush at h ⊢
    split at h
    next => cases h
    next some =>
      split at h
      next => cases h
      next nonempty =>
        rw [← Option.some.inj h] at handed
        simp only [if_neg nonempty, propagatedOf, Std.TreeMap.getD_insert, Coded.compare_eq_iff]
        by_cases same : k = l
        · subst same
          simp [HybridSet.mem_union, handed]
        · simp [same, Ne.symm same]

theorem mem_all_flush : a ∈ (d.flush k).2.all l ↔ a ∈ d.all l := by
  rw [mem_all, mem_all, mem_pendingOf_flush, mem_propagatedOf_flush]
  by_cases same : l = k
  · subst same
    simp [or_comm]
  · simp [same]

end PendingStore
end PointsTo.Facts
