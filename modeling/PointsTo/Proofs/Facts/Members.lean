import Mathlib.Data.Finset.Card
import Mathlib.Data.Finset.SDiff
import PointsTo.Proofs.Facts.Bits
import PointsTo.Proofs.Facts.Hybrid

/-!
Bit sets are finite sets: whatever is done to any number of them, each one has the members that the
same operations give to a finite set, and tells the truth about them.

A block of words stands for the positions of its set bits. Blocks of different lengths may stand for
the same set, and are combined with one another whatever their lengths are.
-/
namespace PointsTo.Facts

namespace BitSet

variable {s t : BitSet} {i : Nat}

/-- The positions of the bits that are set; there are none behind the last word. -/
def members (s : BitSet) : Finset Nat :=
  (Finset.range (64 * s.words.size)).filter fun i => (s.word (i / 64)).getLsbD (i % 64) = true

theorem mem_members : i ∈ s.members ↔ i ∈ s := by
  rw [members, Finset.mem_filter, Finset.mem_range, ← mem_iff]
  refine and_iff_right_of_imp fun mem => ?_
  by_contra behind
  have behind : s.words.size ≤ i / 64 := by omega
  rw [mem_iff, word_behind behind, BitVec.ofNat_eq_ofNat, BitVec.getLsbD_zero] at mem
  cases mem

theorem members_empty : (∅ : BitSet).members = ∅ := rfl

theorem members_insert : (s.insert i).2.members = Insert.insert i s.members := by
  ext j
  rw [mem_members, mem_insert, Finset.mem_insert, mem_members]

theorem insert_changes : (s.insert i).1 = true ↔ (s.insert i).2.members ≠ s.members := by
  rw [insert_fst, members_insert, Ne, Finset.insert_eq_self, mem_members]

theorem members_remove : (s.remove i).2.members = s.members.erase i := by
  ext j
  rw [mem_members, mem_remove, Finset.mem_erase, mem_members, and_comm]

theorem remove_changes : (s.remove i).1 = true ↔ (s.remove i).2.members ≠ s.members := by
  rw [remove_fst, members_remove, Ne, Finset.erase_eq_self, not_not, mem_members]

theorem members_union : (s.union t).2.members = s.members ∪ t.members := by
  ext j
  rw [mem_members, mem_union, Finset.mem_union, mem_members, mem_members]

theorem union_changes : (s.union t).1 = true ↔ (s.union t).2.members ≠ s.members := by
  rw [union_fst, members_union, Ne, Finset.union_eq_left, Finset.not_subset]
  simp only [mem_members]

theorem members_subtract : (s.subtract t).2.members = s.members \ t.members := by
  ext j
  rw [mem_members, mem_subtract, Finset.mem_sdiff, mem_members, mem_members]

theorem subtract_changes : (s.subtract t).1 = true ↔ (s.subtract t).2.members ≠ s.members := by
  rw [subtract_fst, members_subtract, Ne, Finset.sdiff_eq_self_iff_disjoint, Finset.not_disjoint_iff]
  simp only [mem_members, and_comm]

theorem members_intersect : (s.intersect t).2.members = s.members ∩ t.members := by
  ext j
  rw [mem_members, mem_intersect, Finset.mem_inter, mem_members, mem_members]

theorem intersect_changes : (s.intersect t).1 = true ↔ (s.intersect t).2.members ≠ s.members := by
  rw [intersect_fst, members_intersect, Ne, Finset.inter_eq_left, Finset.not_subset]
  simp only [mem_members]

theorem toFinset_toList : s.toList.toFinset = s.members := by
  ext j
  rw [List.mem_toFinset, mem_toList, mem_members]

theorem count_eq : s.count = s.members.card := by
  have nodup : s.toList.Nodup := s.pairwise_toList.imp Nat.ne_of_lt
  rw [← length_toList, ← List.toFinset_card_of_nodup nodup, toFinset_toList]

/-- What can be done to the blocks in a family of registers. -/
inductive Operation (ρ : Type)
  | insert (r : ρ) (i : Nat)
  | remove (r : ρ) (i : Nat)
  | union (r s : ρ)
  | subtract (r s : ρ)
  | intersect (r s : ρ)
  | superset (r s : ρ)
  | contains (r : ρ) (i : Nat)
  | count (r : ρ)
  | isEmpty (r : ρ)
  | clear (r : ρ)
  | clone (r s : ρ)
  | elements (r : ρ)

namespace Operation

variable {ρ : Type} [DecidableEq ρ] {blocks : ρ → BitSet} {op : Operation ρ}

/-- A register takes the block that an operation leaves, and the caller is told the flag. -/
def store (blocks : ρ → BitSet) (r : ρ) (result : Bool × BitSet) : Answer Nat × (ρ → BitSet) :=
  (.flag result.1, Function.update blocks r result.2)

/-- The operation on blocks; no block reaches a position that is too large. -/
def perform (blocks : ρ → BitSet) : Operation ρ → Option (Answer Nat × (ρ → BitSet))
  | insert r i => ((blocks r).insert? i).map (store blocks r)
  | remove r i => some (store blocks r ((blocks r).remove i))
  | union r s => some (store blocks r ((blocks r).union (blocks s)))
  | subtract r s => some (store blocks r ((blocks r).subtract (blocks s)))
  | intersect r s => some (store blocks r ((blocks r).intersect (blocks s)))
  | superset r s => some (.flag ((blocks r).superset (blocks s)), blocks)
  | contains r i => some (.flag ((blocks r).contains i), blocks)
  | count r => some (.number (blocks r).count, blocks)
  | isEmpty r => some (.flag (blocks r).isEmpty, blocks)
  | clear r => some (.done, Function.update blocks r ∅)
  | clone r s => some (.done, Function.update blocks r (blocks s))
  | elements r => some (.listing (blocks r).toList, blocks)

/-- The operation on finite sets. -/
def denote (sets : ρ → Finset Nat) : Operation ρ → ρ → Finset Nat
  | insert r i => Function.update sets r (Insert.insert i (sets r))
  | remove r i => Function.update sets r ((sets r).erase i)
  | union r s => Function.update sets r (sets r ∪ sets s)
  | subtract r s => Function.update sets r (sets r \ sets s)
  | intersect r s => Function.update sets r (sets r ∩ sets s)
  | clear r => Function.update sets r ∅
  | clone r s => Function.update sets r (sets s)
  | superset .. | contains .. | count _ | isEmpty _ | elements _ => sets

/-- What the answer has to say, given the sets before and after the operation. -/
def Truthful (before after : ρ → Finset Nat) : Operation ρ → Answer Nat → Prop
  | insert r _, .flag changed | remove r _, .flag changed | union r _, .flag changed
  | subtract r _, .flag changed | intersect r _, .flag changed => changed = true ↔ after r ≠ before r
  | superset r s, .flag covers => covers = true ↔ before s ⊆ before r
  | contains r i, .flag found => found = true ↔ i ∈ before r
  | count r, .number n => n = (before r).card
  | isEmpty r, .flag empty => empty = true ↔ before r = ∅
  | elements r, .listing elems => elems.Pairwise (· < ·) ∧ elems.toFinset = before r
  | clear _, .done | clone .., .done => True
  | _, _ => False

/-- The positions that the operation mentions are below a bound. -/
def Below (bound : Nat) : Operation ρ → Prop
  | insert _ i | remove _ i | contains _ i => i < bound
  | _ => True

/-- The blocks after a sequence of operations, unless one of them is impossible. -/
def run (blocks : ρ → BitSet) (ops : List (Operation ρ)) : Option (ρ → BitSet) :=
  ops.foldlM (fun blocks op => (op.perform blocks).map Prod.snd) blocks

/-- The finite sets after a sequence of operations. -/
def denotes (sets : ρ → Finset Nat) (ops : List (Operation ρ)) : ρ → Finset Nat :=
  ops.foldl denote sets

/-- The finite sets that blocks stand for. -/
def sets (blocks : ρ → BitSet) (r : ρ) : Finset Nat := (blocks r).members

theorem sets_update {r : ρ} {s : BitSet} :
    sets (Function.update blocks r s) = Function.update (sets blocks) r s.members := by
  funext t
  by_cases here : t = r
  · subst here
    simp [sets]
  · simp [sets, here]

/-- The operation can be performed, leaves the blocks of the sets that it should, and gives an answer
that is true of them. -/
def Computes (blocks : ρ → BitSet) (op : Operation ρ) : Prop :=
  ∃ answer after, op.perform blocks = some (answer, after) ∧ sets after = op.denote (sets blocks) ∧
    op.Truthful (sets blocks) (sets after) answer

/-- An operation that gives one register a new set, with a flag that tells whether it is another. -/
theorem computes_store {r : ρ} {result : Bool × BitSet} {new : Finset Nat}
    (performed : op.perform blocks = some (store blocks r result))
    (members : result.2.members = new)
    (denoted : op.denote (sets blocks) = Function.update (sets blocks) r new)
    (flagged : ∀ before after changed,
      op.Truthful before after (.flag changed) ↔ (changed = true ↔ after r ≠ before r))
    (changes : result.1 = true ↔ result.2.members ≠ (blocks r).members) : Computes blocks op := by
  refine ⟨_, _, performed, ?_, (flagged _ _ _).2 ?_⟩
  · rw [denoted, ← members]
    exact sets_update
  · rw [sets_update, Function.update_self]
    exact changes

/-- Whatever is done to blocks within their reach, it is done to the sets. -/
theorem computes (blocks : ρ → BitSet) (below : op.Below positionBound) : Computes blocks op := by
  cases op with
  | insert r i =>
    have possible : (blocks r).insert? i = some ((blocks r).insert i) := if_pos below
    have performed : perform blocks (.insert r i) = some (store blocks r ((blocks r).insert i)) := by
      rw [perform, possible, Option.map_some]
    exact computes_store performed members_insert rfl (fun _ _ _ => Iff.rfl) insert_changes
  | remove r i => exact computes_store rfl members_remove rfl (fun _ _ _ => Iff.rfl) remove_changes
  | union r s => exact computes_store rfl members_union rfl (fun _ _ _ => Iff.rfl) union_changes
  | subtract r s =>
    exact computes_store rfl members_subtract rfl (fun _ _ _ => Iff.rfl) subtract_changes
  | intersect r s =>
    exact computes_store rfl members_intersect rfl (fun _ _ _ => Iff.rfl) intersect_changes
  | superset r s =>
    refine ⟨_, _, rfl, rfl, superset_iff.trans ?_⟩
    simp only [Finset.subset_iff, sets, mem_members]
  | contains r i => exact ⟨_, _, rfl, rfl, mem_members.symm⟩
  | count r => exact ⟨_, _, rfl, rfl, count_eq⟩
  | isEmpty r =>
    refine ⟨_, _, rfl, rfl, isEmpty_iff.trans ?_⟩
    simp only [Finset.eq_empty_iff_forall_notMem, sets, mem_members]
  | clear r =>
    refine ⟨_, _, rfl, ?_, trivial⟩
    rw [sets_update, members_empty]
    rfl
  | clone r s => exact ⟨_, _, rfl, sets_update, trivial⟩
  | elements r => exact ⟨_, _, rfl, rfl, pairwise_toList, toFinset_toList⟩

/-- Positions that some block reaches make every operation of a sequence possible. -/
theorem exists_run (blocks : ρ → BitSet) {ops : List (Operation ρ)}
    (below : ∀ op ∈ ops, op.Below positionBound) :
    ∃ after, run blocks ops = some after ∧ sets after = denotes (sets blocks) ops := by
  induction ops generalizing blocks with
  | nil => exact ⟨blocks, rfl, rfl⟩
  | cons op ops ih =>
    obtain ⟨first, rest⟩ := List.forall_mem_cons.1 below
    obtain ⟨answer, next, performed, same, -⟩ := computes blocks first
    obtain ⟨after, finished, same'⟩ := ih next rest
    refine ⟨after, ?_, ?_⟩
    · rw [run, List.foldlM_cons, performed]
      exact finished
    · rw [same', same]
      rfl

omit [DecidableEq ρ] in
theorem Below.mono {bound bound' : Nat} (h : op.Below bound) (le : bound ≤ bound') :
    op.Below bound' := by
  cases op with
  | insert | remove | contains => exact Nat.lt_of_lt_of_le h le
  | _ => trivial

/-- Blocks of words compute with finite sets. Take any blocks, of any lengths, and any sequence of
operations on positions below `2 ^ 32`. Each of them can be performed; after it every block has the
members that the same operations give to the finite sets, and whatever is done next, the answer is
true of these: flags tell whether the set has changed, questions are answered as they are of the sets,
and a listing has each member once, in ascending order. -/
theorem computes_run (blocks : ρ → BitSet) (history : List (Operation ρ)) (next : Operation ρ)
    (below : ∀ op ∈ history ++ [next], op.Below (2 ^ 32)) :
    ∃ before answer after, run blocks history = some before ∧
      next.perform before = some (answer, after) ∧
      sets before = denotes (sets blocks) history ∧
      sets after = denotes (sets blocks) (history ++ [next]) ∧
      next.Truthful (sets before) (sets after) answer := by
  have reached (op : Operation ρ) (mem : op ∈ history ++ [next]) : op.Below positionBound :=
    (below op mem).mono (by decide)
  obtain ⟨earlier, last⟩ := List.forall_mem_append.1 reached
  obtain ⟨before, finished, same⟩ := exists_run blocks earlier
  obtain ⟨answer, after, performed, same', truthful⟩ := computes before (last next (by simp))
  refine ⟨before, answer, after, finished, performed, same, ?_, truthful⟩
  calc sets after
      = next.denote (sets before) := same'
    _ = next.denote (denotes (sets blocks) history) := by rw [same]
    _ = denotes (sets blocks) (history ++ [next]) := by rw [denotes, denotes, List.foldl_concat]

/-- A block of three words is intersected with one of two. -/
theorem computes_run_lengths : ∃ (before : Bool → BitSet) (after : Bool → BitSet),
    run (fun _ => ∅) [.insert false 130, .insert false 3, .insert true 64, .insert true 3] =
      some before ∧
    perform before (.intersect false true) = some (.flag true, after) ∧
    (before false).members = {3, 130} ∧ (after false).members = {3} := by
  obtain ⟨before, answer, after, finished, performed, was, is, truthful⟩ :=
    computes_run (fun _ : Bool => ∅)
      [.insert false 130, .insert false 3, .insert true 64, .insert true 3] (.intersect false true)
      (by simp [Below])
  have was : (before false).members = {3, 130} := (congrFun was false).trans (by decide)
  have is : (after false).members = {3} := (congrFun is false).trans (by decide)
  cases answer with
  | flag changed =>
    obtain rfl : changed = true := truthful.2 (by
      change (after false).members ≠ (before false).members
      rw [was, is]
      decide)
    exact ⟨before, after, finished, performed, was, is⟩
  | done | number | listing => exact truthful.elim

end Operation
end BitSet
end PointsTo.Facts
