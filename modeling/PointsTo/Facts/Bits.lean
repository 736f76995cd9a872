/-!
Bit sets: sets of natural numbers whose members are the positions of the set bits in a block of
64-bit words.

A block grows when a position behind its last word is added, and it never shrinks. Two sets are
equal when they have the same words, so zero words at the end count; bits beyond the last word read
as absent.
-/
namespace PointsTo.Facts

abbrev Word := BitVec 64

/-- The number of bits that are set in all words. -/
def Word.total (words : List Word) : Nat := words.foldr (fun w n => w.cpop.toNat + n) 0

structure BitSet where
  words : Array Word := #[]
  deriving DecidableEq

/-- A walk through a bit set: the word that is being scanned, without the bits that have been met,
the position of its first bit, the words behind it, and whether one of them has been taken up. -/
structure Cursor where
  current : Word := 0
  base : Nat := 0
  rest : List Word
  started : Bool := false

namespace Cursor

/-- Looks for the next set bit in the current word, then in the words behind it. -/
def scan (current : Word) (base : Nat) (started : Bool) (rest : List Word) :
    Option (Nat × Cursor) :=
  if current != 0 then
    some (base + current.ctz.toNat, { current := current &&& (current - 1), base, rest, started })
  else
    match rest with
    | [] => none
    | word :: rest => scan word (if started then base + 64 else base) true rest

/-- The next position, and the walk behind it. -/
def next? (c : Cursor) : Option (Nat × Cursor) := scan c.current c.base c.started c.rest

/-- To drop the lowest set bit makes a word smaller. -/
theorem lowered_lt {w : Word} (nonzero : w ≠ 0) : (w &&& (w - 1)).toNat < w.toNat := by
  have pos : 0 < w.toNat := Nat.pos_of_ne_zero fun h => nonzero (BitVec.eq_of_toNat_eq h)
  have pred : (w - 1).toNat = w.toNat - 1 := by
    have one : (1 : Word).toNat = 1 := rfl
    rw [BitVec.toNat_sub_of_le (by rw [BitVec.le_def, one]; exact pos), one]
  rw [BitVec.toNat_and, pred]
  have := Nat.and_le_right (n := w.toNat) (m := w.toNat - 1)
  omega

/-- A step of a walk leaves fewer words, or less of the current one. -/
theorem next?_decreases {c d : Cursor} {i : Nat} (h : c.next? = some (i, d)) :
    Prod.Lex (· < ·) (· < ·) (d.rest.length, d.current.toNat) (c.rest.length, c.current.toNat) := by
  have run (rest : List Word) (current : Word) (base : Nat) (started : Bool)
      (h : scan current base started rest = some (i, d)) :
      Prod.Lex (· < ·) (· < ·) (d.rest.length, d.current.toNat) (rest.length, current.toNat) := by
    induction rest generalizing current base started with
    | nil =>
      unfold scan at h
      split at h
      next nonzero =>
        cases h
        exact .right _ (lowered_lt (bne_iff_ne.1 nonzero))
      next => cases h
    | cons word rest ih =>
      unfold scan at h
      split at h
      next nonzero =>
        cases h
        exact .right _ (lowered_lt (bne_iff_ne.1 nonzero))
      next =>
        refine .left _ _ ?_
        rcases Prod.lex_def.1 (ih word _ true h) with lt | ⟨eq, -⟩
        · exact Nat.lt_succ_of_lt lt
        · exact Nat.lt_succ_of_le (Nat.le_of_eq eq)
  exact run c.rest c.current c.base c.started h

/-- The positions that are still to be met, in the order of the walk. -/
def toList (c : Cursor) : List Nat :=
  match _h : c.next? with
  | none => []
  | some (i, d) => i :: d.toList
  termination_by (c.rest.length, c.current.toNat)
  decreasing_by exact next?_decreases _h

end Cursor

namespace BitSet

def empty : BitSet := {}

instance : EmptyCollection BitSet := ⟨empty⟩

instance : Inhabited BitSet := ⟨empty⟩

/-- The word that a position falls into, and the mask of its bit. -/
def locate (i : Nat) : Nat × Word := (i / 64, BitVec.twoPow 64 (i % 64))

/-- Grows a block so that it reaches the first `capacity` positions. -/
def ensure (s : BitSet) (capacity : Nat) : BitSet :=
  ⟨s.words ++ Array.replicate ((capacity + 63) / 64 - s.words.size) 0⟩

def contains (s : BitSet) (i : Nat) : Bool :=
  let (word, mask) := locate i
  s.words[word]?.any fun w => w &&& mask != 0

instance : Membership Nat BitSet := ⟨fun s i => s.contains i = true⟩

def isEmpty (s : BitSet) : Bool := s.words.all fun w => w == 0

/-- The members in ascending order. -/
def toList (s : BitSet) : List Nat := Cursor.toList { rest := s.words.toList }

def count (s : BitSet) : Nat := Word.total s.words.toList

/-- Whether every member of `t` is one of `s`. -/
def superset (s t : BitSet) : Bool :=
  t.words.toList.zipIdx.all fun (w, k) => s.words.getD k 0 &&& w == w

/-- Adds `i`, with whether it was absent. -/
def insert (s : BitSet) (i : Nat) : Bool × BitSet :=
  let (word, mask) := locate i
  let s := s.ensure (i + 1)
  let old := s.words.getD word 0
  (old &&& mask == 0, ⟨s.words.modify word fun w => w ||| mask⟩)

/-- The least position that no block of words reaches: the number of bits up to a position has to
fit into 64 bits. -/
def positionBound : Nat := Nat.pow 2 64 - 1

/-- `insert`, for a position that some block of words reaches. -/
def insert? (s : BitSet) (i : Nat) : Option (Bool × BitSet) :=
  if i < positionBound then some (s.insert i) else none

/-- Removes `i`, with whether it was present. -/
def remove (s : BitSet) (i : Nat) : Bool × BitSet :=
  let (word, mask) := locate i
  if s.contains i then (true, ⟨s.words.modify word fun w => w &&& ~~~mask⟩) else (false, s)

/-- Applies an operation word by word as far as both blocks reach, with whether that flips a bit. -/
def combine (op : Word → Word → Word) (ours theirs : Array Word) : Bool × Array Word :=
  let common := Array.zipWith op ours theirs
  let flips := (ours.zip common).foldl (fun flips pair => flips ||| (pair.1 ^^^ pair.2)) 0
  (flips != 0, common ++ ours.extract theirs.size)

/-- Adds the members of `t`, with whether any was absent. -/
def union (s t : BitSet) : Bool × BitSet :=
  let (changed, words) := combine (fun a b => a ||| b) (s.ensure (t.words.size * 64)).words t.words
  (changed, ⟨words⟩)

/-- Removes the members of `t`, with whether any was present. -/
def subtract (s t : BitSet) : Bool × BitSet :=
  let (changed, words) := combine (fun a b => a &&& ~~~b) s.words t.words
  (changed, ⟨words⟩)

/-- Keeps only members of `t`, with whether that leaves any out. Words behind the last one of `t`
have no counterpart there. -/
def intersect (s t : BitSet) : Bool × BitSet :=
  let (changed, words) := combine (fun a b => a &&& b) s.words t.words
  let behind := words.extract t.words.size
  (changed || behind.any (fun w => w != 0),
    ⟨words.extract 0 t.words.size ++ Array.replicate behind.size 0⟩)

/-- Adds the given numbers one after the other. -/
def insertAll (s : BitSet) (is : List Nat) : BitSet := is.foldl (fun s i => (s.insert i).2) s

/-- Removes the given numbers one after the other, with whether any was present. -/
def removeAll (s : BitSet) (is : List Nat) : Bool × BitSet :=
  is.foldl (fun (changed, s) i => let (found, s) := s.remove i; (changed || found, s)) (false, s)

def ofList (is : List Nat) : BitSet := insertAll ∅ is

end BitSet

end PointsTo.Facts
