import PointsTo.Facts.Bits
import PointsTo.Id

/-!
Finite sets in two forms: a short list in the order of insertion, and a dense bit set once the
list has overflowed. A dense set stays dense when it shrinks, and lists its elements in ascending
order of their indices.
-/
namespace PointsTo.Facts

/-- Types whose elements are numbered. -/
class Indexed (α : Type) where
  index : α → Nat
  ofIndex : Nat → α
  ofIndex_index : ∀ a, ofIndex (index a) = a
  index_ofIndex : ∀ i, index (ofIndex i) = i

instance : Indexed Nat := ⟨id, id, fun _ => rfl, fun _ => rfl⟩

instance {kind : Entity} : Indexed (Id kind) := ⟨Id.index, Id.mk, fun _ => rfl, fun _ => rfl⟩

/-- The largest number of elements of the short form. -/
def smallCapacity : Nat := 16

theorem nodup_append_singleton {α : Type} {elems : List α} {a : α} (nodup : elems.Nodup)
    (absent : a ∉ elems) : (elems ++ [a]).Nodup := by
  refine List.nodup_append.2 ⟨nodup, List.pairwise_singleton _ a, ?_⟩
  rintro _ mem _ here rfl
  exact absent (List.mem_singleton.1 here ▸ mem)

inductive HybridSet (α : Type) [DecidableEq α] [Indexed α]
  | small (elems : List α) (nodup : elems.Nodup) (length_le : elems.length ≤ smallCapacity)
  | large (bits : BitSet)

namespace HybridSet

variable {α : Type} [DecidableEq α] [Indexed α]

def empty : HybridSet α := small [] .nil (Nat.zero_le _)

instance : EmptyCollection (HybridSet α) := ⟨empty⟩

instance : Inhabited (HybridSet α) := ⟨empty⟩

/-- The elements: in the order of insertion, or in ascending order. -/
def toList : HybridSet α → List α
  | small elems _ _ => elems
  | large bits => bits.toList.map Indexed.ofIndex

def contains (s : HybridSet α) (a : α) : Bool :=
  match s with
  | small elems _ _ => decide (a ∈ elems)
  | large bits => bits.contains (Indexed.index a)

instance : Membership α (HybridSet α) := ⟨fun s a => s.contains a = true⟩

def count : HybridSet α → Nat
  | small elems _ _ => elems.length
  | large bits => bits.count

def isEmpty : HybridSet α → Bool
  | small elems _ _ => elems.isEmpty
  | large bits => bits.isEmpty

/-- Whether every element of `t` is one of `s`. -/
def superset (s t : HybridSet α) : Bool :=
  match s, t with
  | large ours, large theirs => ours.superset theirs
  | _, _ => t.toList.all s.contains

/-- The dense set of the given elements. -/
def dense (elems : List α) : BitSet := BitSet.ofList (elems.map Indexed.index)

/-- Adds `a`, with whether it was absent. A full short set turns dense. -/
def insert (s : HybridSet α) (a : α) : Bool × HybridSet α :=
  match s with
  | small elems nodup _ =>
    if mem : a ∈ elems then (false, s)
    else if room : elems.length < smallCapacity then
      (true, small (elems ++ [a])
        (nodup_append_singleton nodup mem) (Nat.le_trans (Nat.le_of_eq List.length_append) room))
    else (true, large (dense (elems ++ [a])))
  | large bits => let (fresh, bits) := bits.insert (Indexed.index a); (fresh, large bits)

/-- Adds the given elements one after the other, with whether any was absent. -/
def insertAll (s : HybridSet α) (elems : List α) : Bool × HybridSet α :=
  elems.foldl (fun (changed, s) a => let (fresh, s) := s.insert a; (changed || fresh, s)) (false, s)

/-- The set built by inserting the given elements in order. -/
def ofList (elems : List α) : HybridSet α := (insertAll ∅ elems).2

/-- Adds the elements of `t`, with whether any was absent. The result is dense when `t` is. -/
def union (s t : HybridSet α) : Bool × HybridSet α :=
  match s, t with
  | _, small theirs _ _ => s.insertAll theirs
  | large ours, large theirs => let (grew, bits) := ours.union theirs; (grew, large bits)
  | small ours _ _, large theirs =>
    let bits := theirs.insertAll (ours.map Indexed.index)
    (bits.count != ours.length, large bits)

/-- Removes the elements of `t`, with whether any was present. -/
def subtract (s t : HybridSet α) : Bool × HybridSet α :=
  match s, t with
  | large ours, large theirs => let (shrank, bits) := ours.subtract theirs; (shrank, large bits)
  | large ours, small theirs _ _ =>
    let (shrank, bits) := ours.removeAll (theirs.map Indexed.index)
    (shrank, large bits)
  | small ours nodup length_le, _ =>
    let rest := ours.filter fun a => !t.contains a
    (rest.length != ours.length,
      small rest (nodup.filter _) (Nat.le_trans (List.length_filter_le ..) length_le))

/-- The elements that pass a test, gathered in their order. -/
def filter (s : HybridSet α) (p : α → Bool) : HybridSet α := ofList (s.toList.filter p)

end HybridSet

end PointsTo.Facts
