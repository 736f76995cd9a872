import PointsTo.Id

/-!
Rosters: the entities of one kind, listed by their ids.
-/
namespace PointsTo

structure Roster (kind : Entity) (α : Type) where
  entries : Array α := #[]

namespace Roster

variable {α β : Type} {kind : Entity}

instance : EmptyCollection (Roster kind α) := ⟨⟨#[]⟩⟩

instance : Inhabited (Roster kind α) := ⟨∅⟩

def size (r : Roster kind α) : Nat := r.entries.size

def toList (r : Roster kind α) : List α := r.entries.toList

def ids (r : Roster kind α) : List (Id kind) := Id.firsts r.size

def get? (r : Roster kind α) (i : Id kind) : Option α := r.entries[i.index]?

instance : GetElem? (Roster kind α) (Id kind) α fun r i => i.index < r.size where
  getElem r i h := r.entries[(⟨i.index, h⟩ : Fin r.entries.size)]
  getElem? := get?

/-- The id that the next entity gets. -/
def nextId (r : Roster kind α) : Id kind := ⟨r.size⟩

def push (r : Roster kind α) (a : α) : Roster kind α := ⟨r.entries.push a⟩

/-- Replaces an entity; an unknown id changes nothing. -/
def modify (r : Roster kind α) (i : Id kind) (f : α → α) : Roster kind α :=
  ⟨r.entries.modify i.index f⟩

/-- The entities together with their ids. -/
def withIds (r : Roster kind α) : List (Id kind × α) := r.ids.zip r.toList

/-- The first entity that passes a test. -/
def find? (r : Roster kind α) (p : α → Bool) : Option (Id kind) := (r.entries.findIdx? p).map Id.mk

def replicate (n : Nat) (a : α) : Roster kind α := ⟨Array.replicate n a⟩

def ofList (as : List α) : Roster kind α := ⟨as.toArray⟩

end Roster

end PointsTo
