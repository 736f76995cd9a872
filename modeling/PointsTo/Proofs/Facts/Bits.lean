import Mathlib.Data.Nat.Bitwise
import PointsTo.Facts.Bits

/-!
A block of words is a finite set of positions. Every operation on blocks computes the set that its
name says, and tells truthfully whether that changed anything; a walk meets every member once, in
ascending order.
-/
namespace PointsTo.Facts

/-! ### Words -/

namespace Word

variable {w : Word} {j : Nat}

/-- Up to and including its lowest set bit, a word is a power of two. -/
theorem toNat_eq_of_lowest {k : Nat} (lowest : w.getLsbD k = true)
    (below : ∀ i < k, w.getLsbD i = false) :
    w.toNat = 2 ^ (k + 1) * (w.toNat / 2 ^ (k + 1)) + 2 ^ k := by
  have low : w.toNat % 2 ^ (k + 1) = 2 ^ k := by
    refine Nat.eq_of_testBit_eq fun i => ?_
    rw [Nat.testBit_mod_two_pow, Nat.testBit_two_pow, BitVec.testBit_toNat]
    rcases Nat.lt_trichotomy i k with lt | rfl | gt
    · simp [below i lt, Nat.ne_of_gt lt]
    · simp [lowest]
    · simp [Nat.not_lt.2 (Nat.succ_le_of_lt gt), Nat.ne_of_lt gt]
  calc w.toNat
      = 2 ^ (k + 1) * (w.toNat / 2 ^ (k + 1)) + w.toNat % 2 ^ (k + 1) := (Nat.div_add_mod ..).symm
    _ = 2 ^ (k + 1) * (w.toNat / 2 ^ (k + 1)) + 2 ^ k := by rw [low]

/-- The lowest set bit is the only one that is dropped. -/
theorem getLsbD_lowered (nonzero : w ≠ 0) :
    (w &&& (w - 1)).getLsbD j = (w.getLsbD j && decide (j ≠ w.ctz.toNat)) := by
  have split := toNat_eq_of_lowest (BitVec.getLsbD_true_ctz_of_ne_zero nonzero)
    fun _ => BitVec.getLsbD_false_of_lt_ctz
  generalize w.ctz.toNat = k at split
  -- Subtracting one borrows from bit `k`, so that only the bits up to there change.
  have pos : 0 < 2 ^ k := Nat.two_pow_pos k
  have pred : (w - 1).toNat = 2 ^ (k + 1) * (w.toNat / 2 ^ (k + 1)) + (2 ^ k - 1) := by
    have one : (1 : Word).toNat = 1 := rfl
    rw [BitVec.toNat_sub_of_le (by rw [BitVec.le_def, one]; omega), one]
    omega
  have half : 2 ^ k < 2 ^ (k + 1) := Nat.pow_lt_pow_right (by decide) (Nat.lt_succ_self k)
  rw [BitVec.getLsbD_and, ← BitVec.testBit_toNat, ← BitVec.testBit_toNat, pred, split,
    Nat.testBit_two_pow_mul_add _ half, Nat.testBit_two_pow_mul_add _ (by omega),
    Nat.mul_add_div (Nat.two_pow_pos _), Nat.div_eq_of_lt half, Nat.add_zero, Nat.testBit_two_pow,
    Nat.testBit_two_pow_sub_one]
  rcases Nat.lt_trichotomy j k with lt | rfl | gt
  · simp [Nat.ne_of_gt lt, Nat.lt_succ_of_lt lt]
  · simp
  · simp [Nat.not_lt.2 (Nat.succ_le_of_lt gt), Nat.ne_of_gt gt]

/-- Without its lowest set bit, a word has one less. -/
theorem cpop_lowered (nonzero : w ≠ 0) : (w &&& (w - 1)).cpop.toNat + 1 = w.cpop.toNat := by
  have lowest : w.getLsbD w.ctz.toNat = true := BitVec.getLsbD_true_ctz_of_ne_zero nonzero
  have count (n : Nat) : (w &&& (w - 1)).cpopNatRec n 0 + (if w.ctz.toNat < n then 1 else 0) =
      w.cpopNatRec n 0 := by
    induction n with
    | zero => rfl
    | succ n ih =>
      rw [BitVec.cpopNatRec_succ, BitVec.cpopNatRec_succ, BitVec.cpopNatRec_add,
        BitVec.cpopNatRec_add, getLsbD_lowered nonzero]
      by_cases same : n = w.ctz.toNat
      · simp only [same, Nat.lt_irrefl, ite_false] at ih
        simp only [same, ne_eq, not_true_eq_false, decide_false, Bool.and_false, lowest,
          Nat.lt_succ_self, ite_true, Bool.toNat_false, Bool.toNat_true]
        omega
      · have lt : w.ctz.toNat < n + 1 ↔ w.ctz.toNat < n := by omega
        simp only [same, lt, ne_eq, not_false_eq_true, decide_true, Bool.and_true]
        omega
  have inside : w.ctz.toNat < 64 := BitVec.lt_of_getLsbD lowest
  rw [BitVec.toNat_cpop, BitVec.toNat_cpop, ← count 64, if_pos inside]

/-- The mask of a bit tells whether it is set. -/
theorem and_twoPow_eq_zero_iff (inside : j < 64) :
    w &&& BitVec.twoPow 64 j = 0 ↔ ¬ w.getLsbD j = true := by
  have nonzero : BitVec.twoPow 64 j ≠ 0 := fun zero => by
    have bit := congrArg (BitVec.getLsbD · j) zero
    simp [inside] at bit
  rw [BitVec.and_twoPow]
  split
  next set => exact iff_of_false nonzero fun clear => clear set
  next clear => exact iff_of_true rfl clear

end Word

/-! ### Walks -/

namespace Cursor

/-- A position is among those of the current word, which begins at `base`, or of the words behind
it. -/
def Meets (current : Word) (base : Nat) : List Word → Nat → Prop
  | [], i => base ≤ i ∧ current.getLsbD (i - base) = true
  | word :: rest, i =>
    base ≤ i ∧ current.getLsbD (i - base) = true ∨ Meets word (base + 64) rest i

variable {current : Word} {base i j : Nat} {rest : List Word} {c d : Cursor}

theorem Meets.le (h : Meets current base rest i) : base ≤ i := by
  induction rest generalizing current base with
  | nil => exact h.1
  | cons word rest ih =>
    obtain h | h := h
    · exact h.1
    · exact Nat.le_trans (Nat.le_add_right ..) (ih h)

theorem meets_iff : Meets current base rest i ↔
    base ≤ i ∧ ∃ w, (current :: rest)[(i - base) / 64]? = some w ∧
      w.getLsbD ((i - base) % 64) = true := by
  have here (w : Word) (n : Nat) : w.getLsbD n = true ↔ n < 64 ∧ w.getLsbD (n % 64) = true := by
    constructor
    · intro h
      have lt := BitVec.lt_of_getLsbD h
      exact ⟨lt, by rwa [Nat.mod_eq_of_lt lt]⟩
    · rintro ⟨lt, h⟩
      rwa [Nat.mod_eq_of_lt lt] at h
  induction rest generalizing current base with
  | nil =>
    rw [Meets, here]
    refine and_congr_right fun _ => ⟨fun ⟨lt, h⟩ => ⟨current, ?_, h⟩, fun ⟨w, found, h⟩ => ?_⟩
    · rw [Nat.div_eq_of_lt lt, List.getElem?_cons_zero]
    · obtain ⟨lt, rfl⟩ := List.getElem?_eq_some_iff.1 found
      rw [List.length_singleton] at lt
      simp only [Nat.lt_one_iff.1 lt, List.getElem_cons_zero] at h
      exact ⟨by omega, h⟩
  | cons word rest ih =>
    refine (or_congr (and_congr_right fun _ => here ..) ih).trans ?_
    by_cases lt : i - base < 64
    · have zero : (i - base) / 64 = 0 := Nat.div_eq_of_lt lt
      simp only [zero, List.getElem?_cons_zero, Option.some.injEq, exists_eq_left', lt, true_and]
      refine or_iff_left ?_
      rintro ⟨le, -⟩
      omega
    · have succ : (i - base) / 64 = (i - (base + 64)) / 64 + 1 := by omega
      have rest' : (i - base) % 64 = (i - (base + 64)) % 64 := by omega
      simp only [lt, false_and, and_false, false_or, succ, rest', List.getElem?_cons_succ]
      exact and_congr_left fun _ => by omega

/-- The positions of the current word come before those of the words behind it. -/
theorem meets_cons {word : Word} : Meets current base (word :: rest) i ↔
    Meets current base [] i ∨ Meets word (base + 64) rest i := Iff.rfl

theorem not_meets_zero : ¬ Meets 0 base [] i := by simp [Meets]

/-- Where the current word is not zero, its lowest set bit comes first. -/
theorem meets_lowest (nonzero : current ≠ 0) :
    Meets current base rest (base + current.ctz.toNat) ∧
      (∀ j, Meets current base rest j → base + current.ctz.toNat ≤ j) ∧
      ∀ j, Meets (current &&& (current - 1)) base rest j ↔
        Meets current base rest j ∧ j ≠ base + current.ctz.toNat := by
  have lowest := BitVec.getLsbD_true_ctz_of_ne_zero nonzero
  have inside : current.ctz.toNat < 64 := BitVec.lt_of_getLsbD lowest
  have meets : Meets current base [] (base + current.ctz.toNat) := by
    rw [Meets, Nat.add_sub_cancel_left]
    exact ⟨Nat.le_add_right .., lowest⟩
  have least {j : Nat} (h : Meets current base [] j) : base + current.ctz.toNat ≤ j := by
    by_contra lt
    have le := h.le
    have below : j - base < current.ctz.toNat := by omega
    cases (BitVec.getLsbD_false_of_lt_ctz below).symm.trans h.2
  have dropped {j : Nat} : Meets (current &&& (current - 1)) base [] j ↔
      Meets current base [] j ∧ j ≠ base + current.ctz.toNat := by
    rw [Meets, Meets, Word.getLsbD_lowered nonzero, Bool.and_eq_true, decide_eq_true_iff, and_assoc]
    exact and_congr_right fun le => and_congr_right fun _ => by omega
  cases rest with
  | nil => exact ⟨meets, fun j => least, fun j => dropped⟩
  | cons word rest =>
    have later {j : Nat} (h : Meets word (base + 64) rest j) : base + current.ctz.toNat < j :=
      Nat.lt_of_lt_of_le (Nat.add_lt_add_left inside base) h.le
    refine ⟨.inl meets, fun j h => h.elim least fun h => Nat.le_of_lt (later h), fun j => ?_⟩
    rw [meets_cons, meets_cons, dropped, or_and_right]
    exact or_congr_right ⟨fun h => ⟨h, Nat.ne_of_gt (later h)⟩, And.left⟩

/-- What a step of a walk gives: nothing when there is nothing to be met, or else the least position,
and a walk that meets all others. -/
theorem scan_spec (rest : List Word) (current : Word) (base : Nat) :
    match scan current base true rest with
    | none => ∀ i, ¬ Meets current base rest i
    | some (i, d) => d.started = true ∧ Meets current base rest i ∧
        (∀ j, Meets current base rest j → i ≤ j) ∧
        ∀ j, Meets d.current d.base d.rest j ↔ Meets current base rest j ∧ j ≠ i := by
  induction rest generalizing current base with
  | nil =>
    unfold scan
    by_cases zero : current = 0
    · subst zero
      exact fun i => not_meets_zero
    · rw [if_pos (bne_iff_ne.2 zero)]
      exact ⟨rfl, meets_lowest zero⟩
  | cons word rest ih =>
    unfold scan
    by_cases zero : current = 0
    · subst zero
      have same (j : Nat) : Meets 0 base (word :: rest) j ↔ Meets word (base + 64) rest j :=
        or_iff_right not_meets_zero
      simp only [same]
      exact ih word (base + 64)
    · rw [if_pos (bne_iff_ne.2 zero)]
      exact ⟨rfl, meets_lowest zero⟩

theorem next?_spec (c : Cursor) (started : c.started = true) :
    match c.next? with
    | none => ∀ i, ¬ Meets c.current c.base c.rest i
    | some (i, d) => d.started = true ∧ Meets c.current c.base c.rest i ∧
        (∀ j, Meets c.current c.base c.rest j → i ≤ j) ∧
        ∀ j, Meets d.current d.base d.rest j ↔ Meets c.current c.base c.rest j ∧ j ≠ i := by
  rw [next?, started]
  exact scan_spec c.rest c.current c.base

/-- The bits that a walk has still to meet. -/
def left (c : Cursor) : Nat := c.current.cpop.toNat + Word.total c.rest

theorem left_lowered (nonzero : current ≠ 0) {started : Bool} :
    left ⟨current &&& (current - 1), base, rest, started⟩ + 1 =
      left ⟨current, base, rest, started⟩ := by
  rw [left, left, ← Word.cpop_lowered nonzero, Nat.add_right_comm]

/-- Every step of a walk meets one bit. -/
theorem scan_left (rest : List Word) (current : Word) (base : Nat) (started : Bool) :
    match scan current base started rest with
    | none => left ⟨current, base, rest, started⟩ = 0
    | some (_, d) => d.left + 1 = left ⟨current, base, rest, started⟩ := by
  induction rest generalizing current base started with
  | nil =>
    unfold scan
    by_cases zero : current = 0
    · subst zero
      simp [left, Word.total]
    · rw [if_pos (bne_iff_ne.2 zero)]
      exact left_lowered zero
  | cons word rest ih =>
    unfold scan
    by_cases zero : current = 0
    · subst zero
      have same : left ⟨0, base, word :: rest, started⟩ =
          left ⟨word, if started then base + 64 else base, rest, true⟩ := by
        simp [left, Word.total]
      simp only [bne_self_eq_false, Bool.false_eq_true, ite_false, same]
      exact ih word _ true
    · rw [if_pos (bne_iff_ne.2 zero)]
      exact left_lowered zero

theorem length_toList (c : Cursor) : c.toList.length = c.left := by
  fun_induction toList c with
  | case1 c none =>
    have spec := scan_left c.rest c.current c.base c.started
    rw [← next?, none] at spec
    exact spec.symm
  | case2 c i d some ih =>
    have spec := scan_left c.rest c.current c.base c.started
    rw [← next?, some] at spec
    rw [List.length_cons, ih]
    exact spec

/-- A walk meets every position once, in ascending order. -/
theorem toList_spec (c : Cursor) (started : c.started = true) :
    c.toList.Pairwise (· < ·) ∧ ∀ i, i ∈ c.toList ↔ Meets c.current c.base c.rest i := by
  fun_induction toList c with
  | case1 c none =>
    have spec := next?_spec c started
    rw [none] at spec
    exact ⟨.nil, fun i => iff_of_false List.not_mem_nil (spec i)⟩
  | case2 c i d some ih =>
    have spec := next?_spec c started
    rw [some] at spec
    obtain ⟨started', met, least, others⟩ := spec
    obtain ⟨ascending, mem⟩ := ih started'
    refine ⟨List.pairwise_cons.2 ⟨fun j hj => ?_, ascending⟩, fun j => ?_⟩
    · obtain ⟨meets, ne⟩ := (others j).1 ((mem j).1 hj)
      exact Nat.lt_of_le_of_ne (least j meets) (Ne.symm ne)
    · rw [List.mem_cons, mem, others]
      by_cases same : j = i
      · subst same
        simp [met]
      · simp [same]

/-- A walk that begins takes up the first word. -/
theorem toList_begin {word : Word} :
    toList { rest := word :: rest } = toList ⟨word, 0, rest, true⟩ := by
  have same : next? { rest := word :: rest } = next? ⟨word, 0, rest, true⟩ := rfl
  rw [toList, toList]
  split
  next none =>
    rw [same] at none
    rw [none]
  next i d some =>
    rw [same] at some
    rw [some]

end Cursor

/-! ### Blocks -/

namespace BitSet

variable {s t : BitSet} {i j k n : Nat}

/-- The `k`-th word; there are only zero words behind the last one. -/
def word (s : BitSet) (k : Nat) : Word := s.words.getD k 0

theorem bit_lt (i : Nat) : i % 64 < 64 := Nat.mod_lt i (by decide)

theorem mem_iff : i ∈ s ↔ (s.word (i / 64)).getLsbD (i % 64) = true := by
  change (s.words[i / 64]?.any fun w => w &&& BitVec.twoPow 64 (i % 64) != 0) = true ↔ _
  rw [word, Array.getD_eq_getD_getElem?]
  cases s.words[i / 64]? with
  | none => simp
  | some w =>
    rw [Option.any_some, Option.getD_some, bne_iff_ne, Ne, Word.and_twoPow_eq_zero_iff (bit_lt i),
      not_not]

theorem contains_iff : s.contains i = true ↔ i ∈ s := Iff.rfl

/-- The bits of the words are the members. -/
theorem getLsbD_word (inside : j < 64) : (s.word k).getLsbD j = true ↔ 64 * k + j ∈ s := by
  rw [mem_iff, Nat.mul_add_div (by decide), Nat.div_eq_of_lt inside, Nat.add_zero,
    Nat.mul_add_mod, Nat.mod_eq_of_lt inside]

/-- Words differ when members do. -/
theorem exists_word_ne_iff : (∃ k, s.word k ≠ t.word k) ↔ ∃ i, ¬ (i ∈ s ↔ i ∈ t) := by
  constructor
  · rintro ⟨k, ne⟩
    by_contra same
    push Not at same
    refine ne (BitVec.eq_of_getLsbD_eq fun j inside => Bool.eq_iff_iff.2 ?_)
    rw [getLsbD_word inside, getLsbD_word inside]
    exact same _
  · rintro ⟨i, ne⟩
    refine ⟨i / 64, fun same => ne ?_⟩
    rw [mem_iff, mem_iff, same]

@[simp] theorem word_empty : (∅ : BitSet).word k = 0 := rfl

@[simp] theorem not_mem_empty : i ∉ (∅ : BitSet) := by
  rw [mem_iff, word_empty, BitVec.ofNat_eq_ofNat, BitVec.getLsbD_zero]
  exact Bool.false_ne_true

/-- There are no bits behind the last word. -/
theorem word_behind (behind : s.words.size ≤ k) : s.word k = 0 := by
  rw [word, Array.getD_eq_getD_getElem?, Array.getElem?_eq_none behind]
  rfl

theorem any_ne_zero_iff {words : Array Word} :
    words.any (· != 0) = true ↔ ∃ k, words.getD k 0 ≠ 0 := by
  simp only [Array.any_eq_true, bne_iff_ne, Array.getD_eq_getD_getElem?]
  constructor
  · rintro ⟨k, inside, ne⟩
    exact ⟨k, by rwa [Array.getElem?_eq_getElem inside]⟩
  · rintro ⟨k, ne⟩
    by_cases inside : k < words.size
    · exact ⟨k, inside, by rwa [Array.getElem?_eq_getElem inside] at ne⟩
    · rw [Array.getElem?_eq_none (Nat.not_lt.1 inside)] at ne
      exact absurd rfl ne

theorem isEmpty_iff : s.isEmpty = true ↔ ∀ i, i ∉ s := by
  have zeros : s.isEmpty = true ↔ ¬ ∃ k, s.word k ≠ (∅ : BitSet).word k := by
    refine Iff.trans ?_ (not_congr any_ne_zero_iff)
    rw [isEmpty, Bool.not_eq_true, Array.any_eq_false, Array.all_eq_true]
    simp
  rw [zeros, exists_word_ne_iff]
  simp

/-! ### Walks through a block -/

/-- The members in ascending order. -/
theorem toList_spec (s : BitSet) : s.toList.Pairwise (· < ·) ∧ ∀ i, i ∈ s.toList ↔ i ∈ s := by
  unfold toList
  have mem (i : Nat) : i ∈ s ↔
      ∃ w, s.words.toList[i / 64]? = some w ∧ w.getLsbD (i % 64) = true := by
    rw [mem_iff, word, Array.getD_eq_getD_getElem?, Array.getElem?_toList]
    cases s.words[i / 64]? <;> simp
  simp only [mem]
  cases s.words.toList with
  | nil =>
    have done : Cursor.toList { rest := [] } = [] := by
      rw [Cursor.toList]
      rfl
    rw [done]
    simp
  | cons w rest =>
    rw [Cursor.toList_begin]
    obtain ⟨ascending, meets⟩ := Cursor.toList_spec ⟨w, 0, rest, true⟩ rfl
    refine ⟨ascending, fun i => (meets i).trans ?_⟩
    rw [Cursor.meets_iff]
    simp

theorem mem_toList : i ∈ s.toList ↔ i ∈ s := s.toList_spec.2 i

theorem pairwise_toList : s.toList.Pairwise (· < ·) := s.toList_spec.1

theorem length_toList : s.toList.length = s.count := by
  rw [toList, Cursor.length_toList, Cursor.left, count]
  simp

/-! ### Single members -/

theorem size_ensure : (s.ensure n).words.size = max s.words.size ((n + 63) / 64) := by
  rw [ensure, Array.size_append, Array.size_replicate]
  omega

@[simp] theorem word_ensure : (s.ensure n).word k = s.word k := by
  simp only [word, ensure, Array.getD_eq_getD_getElem?, Array.getElem?_append,
    Array.getElem?_replicate]
  split
  · rfl
  next behind =>
    rw [Array.getElem?_eq_none (Nat.not_lt.1 behind)]
    split <;> rfl

@[simp] theorem mem_ensure : i ∈ s.ensure n ↔ i ∈ s := by rw [mem_iff, mem_iff, word_ensure]

/-- One word is changed. -/
theorem word_modify {f : Word → Word} (inside : n < s.words.size) :
    word ⟨s.words.modify n f⟩ k = if n = k then f (s.word k) else s.word k := by
  simp only [word, Array.getD_eq_getD_getElem?, Array.getElem?_modify]
  split
  next same =>
    subst same
    rw [Array.getElem?_eq_getElem inside]
    rfl
  next => rfl

/-- Two positions with the same word and the same bit are the same. -/
theorem eq_of_word_of_bit (word : i / 64 = j / 64) (bit : i % 64 = j % 64) : i = j := by omega

theorem mem_insert : j ∈ (s.insert i).2 ↔ j = i ∨ j ∈ s := by
  have inside : i / 64 < (s.ensure (i + 1)).words.size := by
    rw [size_ensure]
    omega
  have bit := bit_lt i
  rw [mem_iff, mem_iff]
  change (word ⟨(s.ensure (i + 1)).words.modify (i / 64) _⟩ (j / 64)).getLsbD (j % 64) = true ↔ _
  rw [word_modify inside, word_ensure]
  split
  next same =>
    rw [BitVec.getLsbD_or, BitVec.getLsbD_twoPow, Bool.or_eq_true, or_comm]
    refine or_congr_left ?_
    simp only [bit, decide_true, Bool.true_and, decide_eq_true_iff]
    exact ⟨fun bit => (eq_of_word_of_bit same bit).symm, fun eq => by rw [eq]⟩
  next ne =>
    refine (or_iff_right ?_).symm
    rintro rfl
    exact ne rfl

theorem insert_fst : (s.insert i).1 = true ↔ i ∉ s := by
  change ((s.ensure (i + 1)).word (i / 64) &&& BitVec.twoPow 64 (i % 64) == 0) = true ↔ _
  rw [word_ensure, mem_iff, beq_iff_eq, Word.and_twoPow_eq_zero_iff (bit_lt i)]

theorem mem_remove : j ∈ (s.remove i).2 ↔ j ∈ s ∧ j ≠ i := by
  have bit := bit_lt i
  unfold remove
  dsimp only [locate]
  split
  next present =>
    have inside : i / 64 < s.words.size := by
      by_contra behind
      rw [contains_iff, mem_iff, word_behind (Nat.not_lt.1 behind), BitVec.ofNat_eq_ofNat,
        BitVec.getLsbD_zero] at present
      cases present
    rw [mem_iff, mem_iff, word_modify inside]
    split
    next same =>
      rw [BitVec.getLsbD_and, BitVec.getLsbD_not, BitVec.getLsbD_twoPow, Bool.and_eq_true]
      refine and_congr_right fun _ => ?_
      have bit' := bit_lt j
      simp only [bit, bit', decide_true, Bool.true_and, Bool.not_eq_true', decide_eq_false_iff_not]
      exact not_congr ⟨fun bit => (eq_of_word_of_bit same bit).symm, fun eq => by rw [eq]⟩
    next ne =>
      refine (and_iff_left ?_).symm
      rintro rfl
      exact ne rfl
  next absent =>
    refine (and_iff_left_of_imp ?_).symm
    rintro mem rfl
    exact absent mem

theorem remove_fst : (s.remove i).1 = true ↔ i ∈ s := by
  unfold remove
  dsimp only [locate]
  split
  next present => exact iff_of_true rfl present
  next absent => exact iff_of_false Bool.false_ne_true absent

/-! ### Lists of members -/

theorem mem_insertAll {is : List Nat} : i ∈ s.insertAll is ↔ i ∈ s ∨ i ∈ is := by
  induction is generalizing s with
  | nil => simp [insertAll]
  | cons j is ih =>
    refine (ih (s := (s.insert j).2)).trans ?_
    rw [mem_insert, List.mem_cons, or_assoc, or_left_comm]

theorem mem_ofList {is : List Nat} : i ∈ ofList is ↔ i ∈ is := by
  rw [ofList, mem_insertAll]
  exact or_iff_right not_mem_empty

theorem removeAll_cons {is : List Nat} : s.removeAll (i :: is) =
    ((s.remove i).1 || ((s.remove i).2.removeAll is).1, ((s.remove i).2.removeAll is).2) := by
  have flag (is : List Nat) (c : Bool) (s : BitSet) :
      is.foldl (fun r i => ((r.1 || (r.2.remove i).1), (r.2.remove i).2)) (c, s) =
        (c || (s.removeAll is).1, (s.removeAll is).2) := by
    induction is generalizing c s with
    | nil => simp [removeAll]
    | cons j is ih =>
      rw [removeAll, List.foldl_cons, List.foldl_cons, ih, ih]
      simp [Bool.or_assoc]
  exact flag is (s.remove i).1 (s.remove i).2

theorem mem_removeAll {is : List Nat} : i ∈ (s.removeAll is).2 ↔ i ∈ s ∧ i ∉ is := by
  induction is generalizing s with
  | nil => simp [removeAll]
  | cons j is ih =>
    rw [removeAll_cons, ih, mem_remove, List.mem_cons, not_or, and_assoc]

theorem removeAll_fst {is : List Nat} : (s.removeAll is).1 = true ↔ ∃ i ∈ is, i ∈ s := by
  induction is generalizing s with
  | nil => simp [removeAll]
  | cons j is ih =>
    rw [removeAll_cons, Bool.or_eq_true, remove_fst, ih]
    simp only [mem_remove, List.mem_cons, exists_eq_or_imp]
    constructor
    · rintro (h | ⟨i, hi, h, -⟩)
      · exact .inl h
      · exact .inr ⟨i, hi, h⟩
    · rintro (h | ⟨i, hi, h⟩)
      · exact .inl h
      · by_cases same : i = j
        · exact .inl (same ▸ h)
        · exact .inr ⟨i, hi, h, same⟩

/-! ### Two blocks -/

section Combine

variable {op : Word → Word → Word} {ours theirs : Array Word}

theorem getD_combine : (combine op ours theirs).2.getD k 0 =
    if k < ours.size ∧ k < theirs.size then op (ours.getD k 0) (theirs.getD k 0)
    else ours.getD k 0 := by
  simp only [combine, Array.getD_eq_getD_getElem?, Array.getElem?_append, Array.size_zipWith,
    Array.getElem?_zipWith, Array.getElem?_extract, Nat.lt_min]
  split
  next inside =>
    rw [Array.getElem?_eq_getElem inside.1, Array.getElem?_eq_getElem inside.2]
    rfl
  next outside =>
    by_cases ours' : k < ours.size
    · have behind : theirs.size ≤ k := Nat.not_lt.1 fun lt => outside ⟨ours', lt⟩
      have min : min ours.size theirs.size = theirs.size := by omega
      rw [min, if_pos (by omega), Nat.add_sub_cancel' behind]
    · rw [if_neg (by omega), Array.getElem?_eq_none (Nat.not_lt.1 ours')]

/-- No bit is flipped when all words stay as they are. -/
theorem foldl_flips_eq_zero_iff {pairs : List (Word × Word)} {w : Word} :
    pairs.foldl (fun flips pair => flips ||| (pair.1 ^^^ pair.2)) w = 0 ↔
      w = 0 ∧ ∀ p ∈ pairs, p.1 = p.2 := by
  induction pairs generalizing w with
  | nil => simp
  | cons p pairs ih =>
    rw [List.foldl_cons, ih, List.forall_mem_cons, ← and_assoc]
    exact and_congr_left fun _ => BitVec.or_eq_zero_iff.trans
      (and_congr_right fun _ => BitVec.xor_eq_zero_iff)

/-- The flag is set when a word changes. -/
theorem combine_fst : (combine op ours theirs).1 = true ↔
    ∃ k, (combine op ours theirs).2.getD k 0 ≠ ours.getD k 0 := by
  have changed : (combine op ours theirs).1 = true ↔
      ¬ ∀ p ∈ (ours.zip (Array.zipWith op ours theirs)).toList, p.1 = p.2 := by
    rw [combine, bne_iff_ne, ← Array.foldl_toList, Ne, foldl_flips_eq_zero_iff, eq_self_iff_true,
      true_and]
  rw [changed]
  push Not
  simp only [getD_combine]
  constructor
  · rintro ⟨p, mem, ne⟩
    obtain ⟨k, found⟩ := Array.mem_iff_getElem?.1 (Array.mem_toList_iff.1 mem)
    obtain ⟨ho, hn⟩ := Array.getElem?_zip_eq_some.1 found
    rw [Array.getElem?_zipWith_eq_some] at hn
    obtain ⟨o, t, ho', ht, same⟩ := hn
    cases ho.symm.trans ho'
    have io := (Array.getElem?_eq_some_iff.1 ho).1
    have it := (Array.getElem?_eq_some_iff.1 ht).1
    refine ⟨k, ?_⟩
    rw [if_pos ⟨io, it⟩, Array.getD_eq_getD_getElem?, Array.getD_eq_getD_getElem?, ho, ht]
    exact fun eq => ne (eq.symm.trans same)
  · rintro ⟨k, ne⟩
    split at ne
    next inside =>
      obtain ⟨io, it⟩ := inside
      rw [Array.getD_eq_getD_getElem?, Array.getD_eq_getD_getElem?, Array.getElem?_eq_getElem io,
        Array.getElem?_eq_getElem it] at ne
      refine ⟨(ours[k], op ours[k] theirs[k]), Array.mem_toList_iff.2 ?_, Ne.symm ne⟩
      refine Array.mem_of_getElem? (i := k) (Array.getElem?_zip_eq_some.2 ⟨?_, ?_⟩)
      · exact Array.getElem?_eq_getElem io
      · rw [Array.getElem?_zipWith, Array.getElem?_eq_getElem io, Array.getElem?_eq_getElem it]
    next => exact absurd rfl ne

end Combine

/-! ### Two sets -/

theorem word_union : (s.union t).2.word k = s.word k ||| t.word k := by
  have reaches : t.words.size ≤ (s.ensure (t.words.size * 64)).words.size := by
    rw [size_ensure]
    omega
  refine getD_combine.trans ?_
  change (if _ then (s.ensure _).word k ||| t.word k else (s.ensure _).word k) = _
  -- Where the enlarged block ends, `t` has ended, too.
  rw [word_ensure]
  split
  next => rfl
  next outside =>
    rw [word_behind (s := t) (by omega), BitVec.ofNat_eq_ofNat, BitVec.or_zero]

theorem mem_union : i ∈ (s.union t).2 ↔ i ∈ s ∨ i ∈ t := by
  rw [mem_iff, mem_iff, mem_iff, word_union, BitVec.getLsbD_or, Bool.or_eq_true]

theorem union_fst : (s.union t).1 = true ↔ ∃ i ∈ t, i ∉ s := by
  have flips : (s.union t).1 = true ↔
      ∃ k, (s.union t).2.word k ≠ (s.ensure (t.words.size * 64)).word k := combine_fst
  rw [flips, exists_word_ne_iff]
  refine exists_congr fun i => ?_
  rw [mem_union, mem_ensure, or_iff_left_iff_imp, Classical.not_imp]

theorem word_subtract : (s.subtract t).2.word k = s.word k &&& ~~~(t.word k) := by
  refine getD_combine.trans ?_
  change (if _ then s.word k &&& ~~~(t.word k) else s.word k) = _
  split
  next => rfl
  next outside =>
    by_cases behind : t.words.size ≤ k
    · rw [word_behind behind, BitVec.ofNat_eq_ofNat, BitVec.not_zero, BitVec.and_allOnes]
    · rw [word_behind (s := s) (by omega), BitVec.ofNat_eq_ofNat, BitVec.zero_and]

theorem mem_subtract : i ∈ (s.subtract t).2 ↔ i ∈ s ∧ i ∉ t := by
  rw [mem_iff, mem_iff, mem_iff, word_subtract, BitVec.getLsbD_and, BitVec.getLsbD_not,
    Bool.and_eq_true]
  simp [bit_lt i]

theorem subtract_fst : (s.subtract t).1 = true ↔ ∃ i ∈ t, i ∈ s := by
  have flips : (s.subtract t).1 = true ↔ ∃ k, (s.subtract t).2.word k ≠ s.word k := combine_fst
  rw [flips, exists_word_ne_iff]
  refine exists_congr fun i => ?_
  rw [mem_subtract, and_iff_left_iff_imp, Classical.not_imp, not_not, and_comm]

theorem getD_extract {words : Array Word} {n : Nat} :
    (words.extract n).getD k 0 = words.getD (n + k) 0 := by
  simp only [Array.getD_eq_getD_getElem?, Array.getElem?_extract, Nat.min_self]
  split
  next => rfl
  next behind => rw [Array.getElem?_eq_none (by omega)]

/-- Words from `n` on are cleared. -/
theorem getD_cleared {words : Array Word} {n : Nat} :
    (words.extract 0 n ++ Array.replicate (words.extract n).size 0).getD k 0 =
      if k < n then words.getD k 0 else 0 := by
  simp only [Array.getD_eq_getD_getElem?, Array.getElem?_append, Array.getElem?_extract,
    Array.size_extract, Array.getElem?_replicate]
  by_cases kept : k < n
  · rw [if_pos kept]
    by_cases inside : k < words.size
    · simp [inside, Nat.lt_min.2 ⟨kept, inside⟩]
    · simp [inside, Nat.le_of_lt (Nat.lt_of_le_of_lt (Nat.not_lt.1 inside) kept)]
  · rw [if_neg kept, if_neg (by omega)]
    split <;> rfl

theorem word_intersect : (s.intersect t).2.word k = s.word k &&& t.word k := by
  refine getD_cleared.trans ?_
  change (if _ then (combine (fun a b => a &&& b) s.words t.words).2.getD k 0 else 0) = _
  rw [getD_combine]
  change (if _ then (if _ then s.word k &&& t.word k else s.word k) else 0) = _
  split
  next inside =>
    split
    next => rfl
    next outside => rw [word_behind (s := s) (by omega), BitVec.ofNat_eq_ofNat, BitVec.zero_and]
  next behind => rw [word_behind (Nat.not_lt.1 behind), BitVec.ofNat_eq_ofNat, BitVec.and_zero]

theorem mem_intersect : i ∈ (s.intersect t).2 ↔ i ∈ s ∧ i ∈ t := by
  rw [mem_iff, mem_iff, mem_iff, word_intersect, BitVec.getLsbD_and, Bool.and_eq_true]

/-- The flag counts the bits that are flipped as far as both blocks reach, and those behind. -/
theorem intersect_flips : (s.intersect t).1 = true ↔ ∃ k, (s.intersect t).2.word k ≠ s.word k := by
  have met (k : Nat) : (combine (fun a b => a &&& b) s.words t.words).2.getD k 0 =
      if k < s.words.size ∧ k < t.words.size then s.word k &&& t.word k else s.word k :=
    getD_combine
  change ((combine (fun a b => a &&& b) s.words t.words).1 ||
    ((combine (fun a b => a &&& b) s.words t.words).2.extract t.words.size).any _) = true ↔ _
  rw [Bool.or_eq_true, combine_fst, any_ne_zero_iff]
  simp only [getD_extract, met, word_intersect]
  constructor
  · rintro (⟨k, ne⟩ | ⟨k, ne⟩)
    · refine ⟨k, ?_⟩
      split at ne
      next => exact ne
      next => exact absurd rfl ne
    · refine ⟨t.words.size + k, ?_⟩
      rw [if_neg (by omega)] at ne
      rw [word_behind (s := t) (by omega), BitVec.ofNat_eq_ofNat, BitVec.and_zero]
      exact ne.symm
  · rintro ⟨k, ne⟩
    by_cases inside : k < t.words.size
    · have ours : k < s.words.size := by
        by_contra behind
        rw [word_behind (s := s) (Nat.not_lt.1 behind), BitVec.ofNat_eq_ofNat,
          BitVec.zero_and] at ne
        exact ne rfl
      refine .inl ⟨k, ?_⟩
      rwa [if_pos ⟨ours, inside⟩]
    · refine .inr ⟨k - t.words.size, ?_⟩
      rw [Nat.add_sub_cancel' (Nat.not_lt.1 inside), if_neg (by omega)]
      rw [word_behind (s := t) (Nat.not_lt.1 inside), BitVec.ofNat_eq_ofNat, BitVec.and_zero] at ne
      exact ne.symm

theorem intersect_fst : (s.intersect t).1 = true ↔ ∃ i ∈ s, i ∉ t := by
  rw [intersect_flips, exists_word_ne_iff]
  refine exists_congr fun i => ?_
  rw [mem_intersect, and_iff_left_iff_imp, Classical.not_imp]

theorem superset_iff : s.superset t = true ↔ ∀ i ∈ t, i ∈ s := by
  have words : s.superset t = true ↔ ∀ k, s.word k &&& t.word k = t.word k := by
    simp only [superset, List.all_eq_true, Prod.forall, List.mk_mem_zipIdx_iff_getElem?, beq_iff_eq,
      Array.getElem?_toList]
    constructor
    · intro covered k
      by_cases inside : k < t.words.size
      · exact covered _ k (by
          rw [word, Array.getD_eq_getD_getElem?, Array.getElem?_eq_getElem inside]
          rfl)
      · rw [word_behind (Nat.not_lt.1 inside), BitVec.ofNat_eq_ofNat, BitVec.and_zero]
    · intro covered w k found
      have := covered k
      simp only [word, Array.getD_eq_getD_getElem?, found, Option.getD_some] at this
      rwa [Array.getD_eq_getD_getElem?]
  rw [words]
  constructor
  · intro covered i mem
    rw [mem_iff] at mem ⊢
    rw [← covered, BitVec.getLsbD_and, Bool.and_eq_true] at mem
    exact mem.1
  · intro covered k
    refine BitVec.eq_of_getLsbD_eq fun j inside => ?_
    rw [BitVec.getLsbD_and, Bool.and_eq_right_iff_imp, getLsbD_word inside, getLsbD_word inside]
    exact covered _

end BitSet
end PointsTo.Facts
