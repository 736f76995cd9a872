import PointsTo.Coded

/-!
Tables: entries with pairwise distinct keys, numbered in the order of their first appearance.

An entry keeps its number forever, and asking for a key that is present never adds an entry.
-/
namespace PointsTo

/-- A growing list of entries together with the position of every key. -/
structure Table {ε κ : Type} [Coded κ] (kind : Entity) (key : ε → κ) where
  entries : Array ε
  positions : Index κ Nat
  positions_iff : ∀ k i, positions[k]? = some i ↔ entries[i]?.map key = some k

namespace Table

variable {ε κ : Type} [Coded κ] {kind : Entity} {key : ε → κ}

def empty : Table kind key where
  entries := #[]
  positions := ∅
  positions_iff := by simp

instance : EmptyCollection (Table kind key) := ⟨empty⟩

instance : Inhabited (Table kind key) := ⟨empty⟩

def size (t : Table kind key) : Nat := t.entries.size

def toList (t : Table kind key) : List ε := t.entries.toList

/-- The ids issued so far, in order. -/
def ids (t : Table kind key) : List (Id kind) := Id.firsts t.size

@[simp] theorem ids_empty : (∅ : Table kind key).ids = [] := rfl

def get? (t : Table kind key) (i : Id kind) : Option ε := t.entries[i.index]?

/-- The ids of the entries that satisfy `p`, in order. -/
def idsWhere (t : Table kind key) (p : ε → Bool) : List (Id kind) :=
  t.ids.filter fun i => (t.get? i).any p

instance : GetElem? (Table kind key) (Id kind) ε fun t i => i.index < t.size where
  getElem t i h := t.entries[(⟨i.index, h⟩ : Fin t.entries.size)]
  getElem? := get?

/-- The id of the entry with key `k`. -/
def find? (t : Table kind key) (k : κ) : Option (Id kind) := t.positions[k]?.map Id.mk

def contains (t : Table kind key) (k : κ) : Bool := t.positions.contains k

theorem positions_insert_iff (t : Table kind key) {e : ε} (fresh : t.positions[key e]? = none)
    (k : κ) (i : Nat) :
    (t.positions.insert (key e) t.entries.size)[k]? = some i ↔
      (t.entries.push e)[i]?.map key = some k := by
  have old := t.positions_iff
  rw [Std.TreeMap.getElem?_insert, Array.getElem?_push]
  by_cases hk : key e = k
  · subst hk
    by_cases hi : i = t.entries.size
    · simp [hi]
    · have := (not_congr (old (key e) i)).1 (by simp [fresh])
      simp [hi, this, Ne.symm hi]
  · by_cases hi : i = t.entries.size
    · subst hi
      have := (not_congr (old k t.entries.size)).2 (by simp)
      simp [hk, this]
    · simp [hk, hi, old]

/-- Adds an entry with a new key. Its position is read off first, so that the entries are extended
in place. -/
def push (t : Table kind key) (e : ε) (fresh : t.positions[key e]? = none) : Table kind key :=
  let position := t.entries.size
  { entries := t.entries.push e
    positions := t.positions.insert (key e) position
    positions_iff := t.positions_insert_iff fresh }

/-- The id of the entry whose key is that of `e`, adding `e` when there is none. -/
def intern (t : Table kind key) (e : ε) : Id kind × Table kind key :=
  match h : t.positions[key e]? with
  | some i => (⟨i⟩, t)
  | none => (⟨t.size⟩, t.push e h)

/-- Adds `e` and gives its id; when its key is taken, there is no id and nothing changes. -/
def add (t : Table kind key) (e : ε) : Option (Id kind) × Table kind key :=
  match h : t.positions[key e]? with
  | some _ => (none, t)
  | none => (some ⟨t.size⟩, t.push e h)

theorem get?_push_of_get? {t : Table kind key} {e a : ε} {fresh : t.positions[key e]? = none}
    {i : Id kind} (h : t.get? i = some a) : (t.push e fresh).get? i = some a := by
  have : i.index < t.entries.size := (Array.getElem?_eq_some_iff.1 h).1
  simpa [get?, push, Array.getElem?_push, Nat.ne_of_lt this] using h

theorem get?_intern_of_get? {t : Table kind key} {e a : ε} {i : Id kind} (h : t.get? i = some a) :
    (t.intern e).2.get? i = some a := by
  unfold intern
  split
  · exact h
  next fresh => exact @get?_push_of_get? _ _ _ _ _ t e a fresh i h

theorem idsWhere_push (t : Table kind key) (e : ε) (fresh : t.positions[key e]? = none)
    (p : ε → Bool) :
    (t.push e fresh).idsWhere p = t.idsWhere p ++ if p e then [⟨t.size⟩] else [] := by
  have old : ∀ i ∈ t.ids, (t.push e fresh).get? i = t.get? i := by
    intro i hi
    have : i.index < t.entries.size := by simpa [ids, size] using hi
    simp [get?, push, Array.getElem?_push, Nat.ne_of_lt this]
  have ids_eq : (t.push e fresh).ids = t.ids ++ [⟨t.size⟩] := by
    simp [ids, size, push, Id.firsts, List.range_succ]
  have last : (t.push e fresh).get? ⟨t.size⟩ = some e := by
    simp [get?, push, size]
  unfold idsWhere
  rw [ids_eq, List.filter_append]
  congr 1
  · exact List.filter_congr fun i hi => by rw [old i hi]
  · by_cases he : p e <;> simp [last, he]

end Table

/-- A table whose entries are their own keys. -/
abbrev DistinctTable (kind : Entity) (α : Type) [Coded α] := Table kind (id : α → α)

end PointsTo
