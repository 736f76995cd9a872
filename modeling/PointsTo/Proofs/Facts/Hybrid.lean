import Mathlib.Data.Finset.Card
import Mathlib.Data.Finset.SDiff
import PointsTo.Proofs.Sets

/-!
Hybrid sets are finite sets: whatever is done to any number of them, each one has the elements that
the same operations give to a finite set, and tells the truth about them.

The sets stand in registers. Two references are carried along: the finite sets themselves, and for
each register a list of its elements in the order in which they came in. A set in short form is that
list; the order of a dense one is that of the indices, so nothing is said there about the list but
its elements.
-/
namespace PointsTo.Facts

/-- What can be done to the sets in a family of registers. -/
inductive HybridSet.Operation (ρ α : Type)
  | insert (r : ρ) (a : α)
  | collect (r : ρ) (elems : List α)
  | union (r s : ρ)
  | subtract (r s : ρ)
  | superset (r s : ρ)
  | contains (r : ρ) (a : α)
  | count (r : ρ)
  | isEmpty (r : ρ)
  | clear (r : ρ)
  | clone (r s : ρ)
  | elements (r : ρ)

/-- What an operation tells its caller. -/
inductive Answer (α : Type)
  | done
  | flag (b : Bool)
  | number (n : Nat)
  | listing (elems : List α)

/-- Elements come in one after the other; one that is there already keeps its place. -/
def arrive {α : Type} [DecidableEq α] (order elems : List α) : List α :=
  elems.foldl (fun order a => if a ∈ order then order else order ++ [a]) order

namespace HybridSet.Operation

variable {ρ α : Type} [DecidableEq ρ] [DecidableEq α]

/-- The operation on hybrid sets. -/
def perform [Indexed α] (sets : ρ → HybridSet α) :
    Operation ρ α → Answer α × (ρ → HybridSet α)
  | insert r a => let (fresh, s) := (sets r).insert a; (.flag fresh, Function.update sets r s)
  | collect r elems => (.done, Function.update sets r (.ofList elems))
  | union r s => let (grew, u) := (sets r).union (sets s); (.flag grew, Function.update sets r u)
  | subtract r s =>
    let (shrank, d) := (sets r).subtract (sets s); (.flag shrank, Function.update sets r d)
  | superset r s => (.flag ((sets r).superset (sets s)), sets)
  | contains r a => (.flag ((sets r).contains a), sets)
  | count r => (.number (sets r).count, sets)
  | isEmpty r => (.flag (sets r).isEmpty, sets)
  | clear r => (.done, Function.update sets r ∅)
  | clone r s => (.done, Function.update sets r (sets s))
  | elements r => (.listing (sets r).toList, sets)

/-- The operation on finite sets. -/
def denote (sets : ρ → Finset α) : Operation ρ α → ρ → Finset α
  | insert r a => Function.update sets r (Insert.insert a (sets r))
  | collect r elems => Function.update sets r elems.toFinset
  | union r s => Function.update sets r (sets r ∪ sets s)
  | subtract r s => Function.update sets r (sets r \ sets s)
  | clear r => Function.update sets r ∅
  | clone r s => Function.update sets r (sets s)
  | superset .. | contains .. | count _ | isEmpty _ | elements _ => sets

/-- The operation on lists in the order of arrival. -/
def line (orders : ρ → List α) : Operation ρ α → ρ → List α
  | insert r a => Function.update orders r (arrive (orders r) [a])
  | collect r elems => Function.update orders r (arrive [] elems)
  | union r s => Function.update orders r (arrive (orders r) (orders s))
  | subtract r s => Function.update orders r ((orders r).filter (· ∉ orders s))
  | clear r => Function.update orders r []
  | clone r s => Function.update orders r (orders s)
  | superset .. | contains .. | count _ | isEmpty _ | elements _ => orders

/-- What the answer has to say, given the sets before and after the operation. -/
def Truthful (before after : ρ → Finset α) : Operation ρ α → Answer α → Prop
  | insert r _, .flag changed | union r _, .flag changed | subtract r _, .flag changed =>
    changed = true ↔ after r ≠ before r
  | superset r s, .flag covers => covers = true ↔ before s ⊆ before r
  | contains r a, .flag found => found = true ↔ a ∈ before r
  | count r, .number n => n = (before r).card
  | isEmpty r, .flag empty => empty = true ↔ before r = ∅
  | elements r, .listing elems => elems.Nodup ∧ elems.toFinset = before r
  | collect .., .done | clear _, .done | clone .., .done => True
  | _, _ => False

/-- The operation gives the register a new value instead of changing the one that it has. -/
def Assigns (r : ρ) : Operation ρ α → Prop
  | collect t _ | clear t | clone t _ => t = r
  | _ => False

/-- The sets after a sequence of operations, all of them empty at first. -/
def run [Indexed α] (ops : List (Operation ρ α)) : ρ → HybridSet α :=
  ops.foldl (fun sets op => (op.perform sets).2) fun _ => ∅

/-- The finite sets after a sequence of operations. -/
def denotes (ops : List (Operation ρ α)) : ρ → Finset α := ops.foldl denote fun _ => ∅

/-- The order of arrival after a sequence of operations. -/
def lines (ops : List (Operation ρ α)) : ρ → List α := ops.foldl line fun _ => []

end HybridSet.Operation

/-! ### The order of arrival -/

section Arrive

variable {α : Type} [DecidableEq α] {order elems : List α} {a b : α}

theorem arrive_cons :
    arrive order (a :: elems) = arrive (if a ∈ order then order else order ++ [a]) elems := rfl

theorem mem_arrive : b ∈ arrive order elems ↔ b ∈ order ∨ b ∈ elems := by
  induction elems generalizing order with
  | nil => simp [arrive]
  | cons a elems ih =>
    rw [arrive_cons, ih, List.mem_cons]
    split
    next old =>
      rw [or_left_comm]
      exact ⟨.inr, fun h => h.elim (fun eq => .inl (eq ▸ old)) id⟩
    next new => rw [List.mem_append, List.mem_singleton, or_assoc]

theorem nodup_arrive (nodup : order.Nodup) : (arrive order elems).Nodup := by
  induction elems generalizing order with
  | nil => exact nodup
  | cons a elems ih =>
    rw [arrive_cons]
    split
    next => exact ih nodup
    next new => exact ih (nodup_append_singleton nodup new)

theorem toFinset_arrive : (arrive order elems).toFinset = order.toFinset ∪ elems.toFinset := by
  ext b
  simp [mem_arrive]

end Arrive

/-! ### One set -/

namespace HybridSet

variable {α : Type} [DecidableEq α] [Indexed α] {s t : HybridSet α} {order elems : List α} {a : α}

def Short : HybridSet α → Prop
  | small .. => True
  | large _ => False

/-- The elements have come in in this order, and a short set lists them so. -/
structure Lines (s : HybridSet α) (order : List α) : Prop where
  nodup : order.Nodup
  mem_iff : ∀ a, a ∈ s ↔ a ∈ order
  toList_eq : s.Short → s.toList = order

theorem Lines.toFinset_toList (h : s.Lines order) : s.toList.toFinset = order.toFinset := by
  ext a
  rw [List.mem_toFinset, List.mem_toFinset, mem_toList, h.mem_iff]

theorem Lines.count_eq (h : s.Lines order) : s.count = order.toFinset.card := by
  rw [← length_toList, ← List.toFinset_card_of_nodup nodup_toList, h.toFinset_toList]

theorem lines_empty : (∅ : HybridSet α).Lines [] where
  nodup := .nil
  mem_iff _ := iff_of_false not_mem_empty List.not_mem_nil
  toList_eq _ := rfl

theorem Lines.insert (h : s.Lines order) :
    (s.insert a).2.Lines (if a ∈ order then order else order ++ [a]) where
  nodup := show (arrive order [a]).Nodup from nodup_arrive h.nodup
  mem_iff b := by
    rw [mem_insert, h.mem_iff, or_comm, ← List.mem_singleton]
    exact mem_arrive.symm
  toList_eq := by
    cases s with
    | large bits => exact False.elim
    | small elems nodup length_le =>
      obtain rfl : elems = order := h.toList_eq trivial
      unfold HybridSet.insert
      by_cases old : a ∈ elems
      · simp [old, toList]
      · by_cases room : elems.length < smallCapacity
        · simp [old, room, toList]
        · simp [old, room, Short]

theorem Lines.insertAll (h : s.Lines order) : (s.insertAll elems).2.Lines (arrive order elems) := by
  induction elems generalizing s order with
  | nil => exact h
  | cons a elems ih =>
    rw [insertAll_cons, arrive_cons]
    exact ih h.insert

/-- What is united with a dense set is dense. -/
theorem not_short_union_large {bits : BitSet} : ¬ (s.union (large bits)).2.Short := by
  cases s <;> exact id

theorem Lines.union {theirs : List α} (h : s.Lines order) (k : t.Lines theirs) :
    (s.union t).2.Lines (arrive order theirs) := by
  -- A dense set adds its elements in the order of their indices and not in that of `theirs`, but
  -- what comes of it is dense.
  cases t with
  | small elems nodup length_le =>
    obtain rfl : elems = theirs := k.toList_eq trivial
    cases s <;> exact h.insertAll
  | large bits =>
    exact
      { nodup := nodup_arrive h.nodup
        mem_iff := fun a => by rw [mem_union, h.mem_iff, k.mem_iff, mem_arrive]
        toList_eq := fun short => absurd short not_short_union_large }

theorem Lines.subtract {theirs : List α} (h : s.Lines order) (k : t.Lines theirs) :
    (s.subtract t).2.Lines (order.filter (· ∉ theirs)) where
  nodup := h.nodup.filter _
  mem_iff a := by
    rw [mem_subtract, h.mem_iff, k.mem_iff, List.mem_filter, decide_eq_true_iff]
  toList_eq := by
    cases s with
    | large bits => cases t <;> exact False.elim
    | small elems nodup length_le =>
      intro _
      obtain rfl : elems = order := h.toList_eq trivial
      have rest : ((small elems nodup length_le).subtract t).2.toList =
          elems.filter fun a => !t.contains a := by cases t <;> rfl
      rw [rest]
      refine List.filter_congr fun a _ => ?_
      rw [Bool.eq_iff_iff, Bool.not_eq_true', ← Bool.not_eq_true, contains_iff, k.mem_iff,
        decide_eq_true_iff]

/-- A dense set lists its elements in ascending order. -/
theorem ascending_toList (dense : ¬ s.Short) :
    (s.toList.map Indexed.index).Pairwise (· < ·) := by
  cases s with
  | small => exact absurd trivial dense
  | large bits =>
    have same : (bits.toList.map (Indexed.ofIndex (α := α))).map Indexed.index = bits.toList := by
      rw [List.map_map]
      exact (List.map_congr_left fun i _ => Indexed.index_ofIndex i).trans (List.map_id _)
    rw [toList, same]
    exact bits.pairwise_toList

theorem not_short_insert (dense : ¬ s.Short) : ¬ (s.insert a).2.Short := by
  cases s with
  | small => exact absurd trivial dense
  | large bits => exact id

theorem not_short_insertAll (dense : ¬ s.Short) : ¬ (s.insertAll elems).2.Short := by
  induction elems generalizing s with
  | nil => exact dense
  | cons a elems ih =>
    rw [insertAll_cons]
    exact ih (not_short_insert dense)

theorem not_short_union (dense : ¬ s.Short) : ¬ (s.union t).2.Short := by
  cases t with
  | small elems nodup length_le => cases s <;> exact not_short_insertAll dense
  | large bits => exact not_short_union_large

theorem not_short_subtract (dense : ¬ s.Short) : ¬ (s.subtract t).2.Short := by
  cases s with
  | small => exact absurd trivial dense
  | large bits => cases t <;> exact id

/-- The set has these members and lists each of them once: in short form there are few of them, in
the order of arrival, in dense form they ascend. -/
structure Faithful (s : HybridSet α) (order : List α) (members : Finset α) : Prop where
  nodup_toList : s.toList.Nodup
  toFinset_toList : s.toList.toFinset = members
  nodup_order : order.Nodup
  toFinset_order : order.toFinset = members
  short : s.Short → s.toList = order ∧ s.toList.length ≤ smallCapacity
  dense : ¬ s.Short → (s.toList.map Indexed.index).Pairwise (· < ·)

theorem Lines.faithful {members : Finset α} (h : s.Lines order)
    (same : order.toFinset = members) : s.Faithful order members where
  nodup_toList := nodup_toList
  toFinset_toList := h.toFinset_toList.trans same
  nodup_order := h.nodup
  toFinset_order := same
  short is_short := by
    refine ⟨h.toList_eq is_short, ?_⟩
    cases s with
    | small elems nodup length_le => exact length_le
    | large bits => exact is_short.elim
  dense := ascending_toList

end HybridSet

/-! ### All sets -/

namespace HybridSet.Operation

variable {ρ α : Type} [DecidableEq ρ] [DecidableEq α] [Indexed α] {sets : ρ → HybridSet α}
  {orders : ρ → List α} {members : ρ → Finset α} {op : Operation ρ α}

/-- In every register the two references describe the set. -/
def Agree (sets : ρ → HybridSet α) (orders : ρ → List α) (members : ρ → Finset α) : Prop :=
  ∀ r, (sets r).Lines (orders r) ∧ (orders r).toFinset = members r

theorem Agree.update (h : Agree sets orders members) {r : ρ} {s : HybridSet α} {order : List α}
    {elems : Finset α} (lines : s.Lines order) (same : order.toFinset = elems) :
    Agree (Function.update sets r s) (Function.update orders r order)
      (Function.update members r elems) := by
  intro t
  by_cases here : t = r
  · subst here
    simpa only [Function.update_self] using ⟨lines, same⟩
  · simpa only [Function.update_of_ne here] using h t

/-- An operation leaves the sets and the references in agreement. -/
theorem Agree.perform (h : Agree sets orders members) :
    Agree (op.perform sets).2 (op.line orders) (op.denote members) := by
  cases op with
  | insert r a =>
    refine h.update (h r).1.insert ?_
    rw [← (h r).2]
    refine toFinset_arrive.trans ?_
    rw [List.toFinset_cons, List.toFinset_nil, insert_empty_eq, Finset.union_comm,
      Finset.insert_eq]
  | collect r elems => exact h.update lines_empty.insertAll (by simp [toFinset_arrive])
  | union r s =>
    refine h.update ((h r).1.union (h s).1) ?_
    rw [toFinset_arrive, (h r).2, (h s).2]
  | subtract r s =>
    refine h.update ((h r).1.subtract (h s).1) ?_
    rw [← (h r).2, ← (h s).2]
    ext b
    simp
  | clear r => exact h.update lines_empty rfl
  | clone r s => exact h.update (h s).1 (h s).2
  | superset | contains | count | isEmpty | elements => exact h

/-- The answers are those of the finite sets. -/
theorem Agree.truthful (h : Agree sets orders members) :
    op.Truthful members (op.denote members) (op.perform sets).1 := by
  have mem (r : ρ) (a : α) : a ∈ sets r ↔ a ∈ members r := by
    rw [(h r).1.mem_iff, ← (h r).2, List.mem_toFinset]
  cases op with
  | insert r a =>
    change _ ↔ Function.update members r (Insert.insert a (members r)) r ≠ _
    rw [Function.update_self, Ne, Finset.insert_eq_self, ← mem]
    exact insert_fst
  | collect => trivial
  | union r s =>
    change _ ↔ Function.update members r (members r ∪ members s) r ≠ _
    rw [Function.update_self, Ne, Finset.union_eq_left, Finset.not_subset]
    simp only [← mem]
    exact union_fst
  | subtract r s =>
    change _ ↔ Function.update members r (members r \ members s) r ≠ _
    rw [Function.update_self, Ne, Finset.sdiff_eq_self_iff_disjoint, Finset.not_disjoint_iff]
    simp only [← mem]
    exact subtract_fst.trans (exists_congr fun _ => and_comm)
  | superset r s =>
    refine superset_iff.trans ?_
    simp only [mem]
    exact Iff.rfl
  | contains r a => exact mem r a
  | count r => exact (h r).1.count_eq.trans (congrArg Finset.card (h r).2)
  | isEmpty r =>
    change (sets r).isEmpty = true ↔ _
    rw [HybridSet.isEmpty_iff, Finset.eq_empty_iff_forall_notMem]
    simp only [mem]
  | clear => trivial
  | clone => trivial
  | elements r => exact ⟨nodup_toList, (h r).1.toFinset_toList.trans (h r).2⟩

/-- Only a new value is short where a dense one was. -/
theorem assigns_of_short {r : ρ} (dense : ¬ (sets r).Short)
    (short : ((op.perform sets).2 r).Short) : op.Assigns r := by
  have stays {t : ρ} {s : HybridSet α} (keeps : ¬ (sets t).Short → ¬ s.Short) :
      ¬ (Function.update sets t s r).Short := by
    by_cases here : r = t
    · subst here
      rw [Function.update_self]
      exact keeps dense
    · rwa [Function.update_of_ne here]
  have gives {t : ρ} {s : HybridSet α} (short : (Function.update sets t s r).Short) : t = r := by
    by_contra elsewhere
    rw [Function.update_of_ne (Ne.symm elsewhere)] at short
    exact dense short
  cases op with
  | insert t a => exact absurd short (stays not_short_insert)
  | union t s => exact absurd short (stays not_short_union)
  | subtract t s => exact absurd short (stays not_short_subtract)
  | collect | clear | clone => exact gives short
  | superset | contains | count | isEmpty | elements => exact absurd short dense

theorem run_concat {history : List (Operation ρ α)} :
    run (history ++ [op]) = (op.perform (run history)).2 := List.foldl_concat ..

theorem agree_run (history : List (Operation ρ α)) :
    Agree (run history) (lines history) (denotes history) := by
  induction history using List.reverseRecOn with
  | nil => exact fun r => ⟨lines_empty, rfl⟩
  | append_singleton history op ih =>
    unfold lines denotes
    rw [run_concat, List.foldl_concat, List.foldl_concat]
    exact ih.perform

/-- After any history every set is faithful to its references, whatever is done next is answered
truthfully, and only a new value brings a dense set back into short form. -/
theorem faithful_run (history : List (Operation ρ α)) (next : Operation ρ α) :
    (∀ r, (run history r).Faithful (lines history r) (denotes history r)) ∧
      next.Truthful (denotes history) (denotes (history ++ [next]))
        (next.perform (run history)).1 ∧
      ∀ r, ¬ (run history r).Short → (run (history ++ [next]) r).Short → next.Assigns r := by
  have agree := agree_run history
  refine ⟨fun r => (agree r).1.faithful (agree r).2, ?_, fun r dense short => ?_⟩
  · have after : denotes (history ++ [next]) = next.denote (denotes history) := List.foldl_concat ..
    rw [after]
    exact agree.truthful
  · rw [run_concat] at short
    exact assigns_of_short dense short

end HybridSet.Operation
end PointsTo.Facts
