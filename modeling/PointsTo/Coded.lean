import Std.Data.TreeMap
import Std.Data.TreeSet
import PointsTo.Id

/-!
Codes: values written as lists of numbers, so that no code begins another one.

Codes order the keys of all finite maps, which makes every lookup a computation on numbers.
-/
namespace PointsTo

/-- Types whose values are told apart by their codes, whatever follows a code. -/
class Coded (κ : Type) where
  code : κ → List Nat
  code_append : ∀ {a b : κ} {r s : List Nat}, code a ++ r = code b ++ s → a = b ∧ r = s

namespace Coded

variable {κ μ : Type} [Coded κ] [Coded μ]

theorem code_injective {a b : κ} (h : code a = code b) : a = b :=
  (code_append (r := []) (s := []) (by simpa using h)).1

/-- The order of the codes. -/
def compare (a b : κ) : Ordering := Ord.compare (code a) (code b)

@[simp] theorem compare_eq_iff {a b : κ} : compare a b = .eq ↔ a = b := by
  constructor
  · intro h
    exact code_injective (Std.LawfulEqOrd.eq_of_compare h)
  · rintro rfl
    exact Std.ReflOrd.compare_self

instance : Std.TransCmp (compare (κ := κ)) where
  eq_swap := Std.OrientedOrd.eq_swap
  isLE_trans h k := Std.TransOrd.isLE_trans h k

instance : Std.LawfulEqCmp (compare (κ := κ)) where
  eq_of_compare := compare_eq_iff.1

/-! ### Codes of compound values -/

/-- Values that an injective function turns into coded ones. -/
abbrev along (f : μ → κ) (inj : ∀ {a b}, f a = f b → a = b) : Coded μ where
  code a := code (f a)
  code_append h := (code_append h).imp_left inj

instance : Coded Nat where
  code n := [n]
  code_append h := by simpa using h

instance {kind : Entity} : Coded (Id kind) := along Id.index Id.ext_iff.2

instance : Coded (κ × μ) where
  code p := code p.1 ++ code p.2
  code_append h := by
    rw [List.append_assoc, List.append_assoc] at h
    have ⟨first, rest⟩ := code_append h
    have ⟨second, rest⟩ := code_append rest
    exact ⟨Prod.ext first second, rest⟩

instance : Coded (Option κ) where
  code
    | none => [0]
    | some a => 1 :: code a
  code_append {a b r s} h := by
    cases a <;> cases b <;> simp at h ⊢
    · exact h
    · exact code_append h

instance : Coded (List κ) where
  code as := as.length :: as.flatMap code
  code_append {as bs r s} h := by
    induction as generalizing bs with
    | nil => cases bs <;> simp_all
    | cons a as ih =>
      cases bs with
      | nil => simp at h
      | cons b bs =>
        simp only [List.length_cons, List.flatMap_cons, List.cons_append, List.cons.injEq,
          Nat.add_right_cancel_iff, List.append_assoc] at h
        obtain ⟨length, rest⟩ := h
        have ⟨first, rest⟩ := code_append rest
        have ⟨others, rest⟩ := @ih bs (by simp [length, rest])
        exact ⟨by rw [first, others], rest⟩

instance : Coded Char := along Char.toNat fun h => Char.ext (UInt32.toNat_inj.1 h)

instance : Coded String := along String.toList String.toList_injective

end Coded

/-- A finite map. -/
abbrev Index (κ ν : Type) [Coded κ] := Std.TreeMap κ ν Coded.compare

/-- A finite set. -/
abbrev IndexSet (κ : Type) [Coded κ] := Std.TreeSet κ Coded.compare

end PointsTo
