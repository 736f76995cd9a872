import PointsTo.Coded
import PointsTo.Facts.Hybrid

/-!
Sets that travel: every key owns the elements it has already passed on and the elements that are
still to be passed on.

The two parts of a key share no element, so each element of a key is handed out by exactly one
`flush` of that key.
-/
namespace PointsTo.Facts

structure PendingStore (κ α : Type) [Coded κ] [DecidableEq α] [Indexed α] where
  pending : Index κ (HybridSet α) := ∅
  propagated : Index κ (HybridSet α) := ∅

namespace PendingStore

variable {κ α : Type} [Coded κ] [DecidableEq α] [Indexed α]

instance : Inhabited (PendingStore κ α) := ⟨{}⟩

def propagatedOf (d : PendingStore κ α) (k : κ) : HybridSet α := d.propagated.getD k ∅

def pendingOf (d : PendingStore κ α) (k : κ) : HybridSet α := d.pending.getD k ∅

/-- All elements of `k`, passed on or not. -/
def all (d : PendingStore κ α) (k : κ) : HybridSet α :=
  match d.pending[k]? with
  | some new => ((d.propagatedOf k).union new).2
  | none => d.propagatedOf k

/-- Adds one element to `k`, with whether `k` lacked it. -/
def add (d : PendingStore κ α) (k : κ) (a : α) : Bool × PendingStore κ α :=
  if (d.propagatedOf k).contains a then (false, d)
  else
    let (fresh, new) := (d.pendingOf k).insert a
    (fresh, { d with pending := d.pending.insert k new })

/-- Adds a set of elements to `k`, with whether `k` lacked any. -/
def union (d : PendingStore κ α) (k : κ) (elems : HybridSet α) : Bool × PendingStore κ α :=
  let unseen := match d.propagated[k]? with
    | some old => (elems.subtract old).2
    | none => elems
  if unseen.isEmpty then (false, d)
  else
    let (grew, new) := (d.pendingOf k).union unseen
    (grew, { d with pending := d.pending.insert k new })

/-- Hands out the elements of `k` that are still to be passed on, and counts them as passed on.
Gives nothing when there are none. -/
def flush (d : PendingStore κ α) (k : κ) : Option (HybridSet α) × PendingStore κ α :=
  match d.pending[k]? with
  | none => (none, d)
  | some new =>
    if new.isEmpty then (none, d)
    else
      (some new,
        { pending := d.pending.insert k ∅
          propagated := d.propagated.insert k ((d.propagatedOf k).union new).2 })

end PendingStore

end PointsTo.Facts
