import PointsTo.Proofs.Hierarchy.Supertypes

/-!
Loops that climb from a type to its super class, to the super class of that one, and so on. Where
every type comes after the types that its declaration names, such a loop ends, and it gives what a
search of bounded length gives.
-/
namespace PointsTo

open Relation

namespace Catalog

variable {c : Catalog} {s t : TypeId} {α : Type} {found? : TypeId → Option α} {r : Option α}

def superclass? (c : Catalog) (t : TypeId) : Option TypeId := (c.shape? t).bind (·.superclass)

theorem superclassesWithin_succ {limit : Nat} : c.superclassesWithin (limit + 1) t =
    t :: (c.superclass? t).elim [] (c.superclassesWithin limit) := by
  rw [superclassesWithin, superclass?]
  cases (c.shape? t).bind (·.superclass) <;> rfl

/-- `s` is the type `t` or stands above it in its chain of super classes. -/
abbrev Inherits (c : Catalog) : TypeId → TypeId → Prop :=
  ReflTransGen fun t s => c.superclass? t = some s

/-- What a loop that climbs from a type until it finds something gives when it ends. -/
inductive Climbs (c : Catalog) (found? : TypeId → Option α) : TypeId → Option α → Prop
  | hit {t : TypeId} {a : α} (found : found? t = some a) : Climbs c found? t (some a)
  | top {t : TypeId} (missed : found? t = none) (last : c.superclass? t = none) :
    Climbs c found? t none
  | up {t s : TypeId} {r : Option α} (missed : found? t = none) (next : c.superclass? t = some s)
    (rest : Climbs c found? s r) : Climbs c found? t r

/-- Every type comes after the types that its declaration names. -/
def Layered (c : Catalog) : Prop := ∀ t s, c.Extends t s → s < t

theorem extends_of_superclass? (h : c.superclass? t = some s) : c.Extends t s := by
  obtain ⟨shape, found, up⟩ := Option.bind_eq_some_iff.1 h
  exact extends_iff.2 ⟨shape, found, .inl up⟩

theorem Inherits.above (h : c.Inherits t s) : ReflTransGen c.Extends t s :=
  ReflTransGen.mono (fun _ _ => extends_of_superclass?) _ _ h

/-! ### What a loop gives -/

namespace Climbs

/-- A loop gives what it finds first: every other type in the chain where something is found stands
above that. -/
theorem nearest {a : α} (h : c.Climbs found? t (some a)) :
    ∃ s, c.Inherits t s ∧ found? s = some a ∧
      ∀ u, c.Inherits t u → (found? u).isSome → c.Inherits s u := by
  generalize result : some a = r at h
  induction h with
  | hit found =>
    cases result
    exact ⟨_, .refl, found, fun u tu _ => tu⟩
  | top => cases result
  | @up t next _ missed step _ ih =>
    obtain ⟨s, above, found, first⟩ := ih result
    refine ⟨s, .head step above, found, fun u tu some => ?_⟩
    obtain rfl | ⟨next', step', nu⟩ := ReflTransGen.cases_head tu
    · rw [missed] at some
      cases some
    · cases step.symm.trans step'
      exact first u nu some

/-- A loop gives nothing only when there is nothing in the chain. -/
theorem missed (h : c.Climbs found? t r) (none : r = none) (above : c.Inherits t s) :
    found? s = .none := by
  induction h generalizing s with
  | hit => cases none
  | top missed last =>
    obtain rfl | ⟨next, step, _⟩ := ReflTransGen.cases_head above
    · exact missed
    · cases last.symm.trans step
  | up missed next _ ih =>
    obtain rfl | ⟨next', step, above⟩ := ReflTransGen.cases_head above
    · exact missed
    · cases next.symm.trans step
      exact ih none above

end Climbs

/-! ### Layers -/

namespace Layered

variable (h : c.Layered)
include h

theorem lt_of_above (above : TransGen c.Extends t s) : s < t := by
  induction above with
  | single ts => exact h t _ ts
  | tail _ us ih => exact Nat.lt_trans (h _ _ us) ih

/-- No type is above itself. -/
theorem acyclic : ¬ TransGen c.Extends t t := fun above => Nat.lt_irrefl _ (h.lt_of_above above)

/-- A loop climbs through as many classes at most as come before the one where it starts. -/
theorem climbs_superclassesWithin {limit : Nat} (enough : t.index ≤ limit) :
    c.Climbs found? t ((c.superclassesWithin limit t).findSome? found?) := by
  induction limit generalizing t with
  | zero =>
    have last : c.superclass? t = none := by
      by_contra some
      obtain ⟨s, step⟩ := Option.ne_none_iff_exists'.1 some
      exact Nat.not_lt_zero _ (Nat.lt_of_lt_of_le (h t s (extends_of_superclass? step)) enough)
    rw [superclassesWithin, List.findSome?_singleton]
    cases found : found? t with
    | none => exact .top found last
    | some a => exact .hit found
  | succ limit ih =>
    rw [superclassesWithin_succ, List.findSome?_cons]
    cases found : found? t with
    | some a => exact .hit found
    | none =>
      cases step : c.superclass? t with
      | none => exact .top found step
      | some s =>
        have down := h t s (extends_of_superclass? step)
        exact .up found step (ih (Nat.le_of_lt_succ (Nat.lt_of_lt_of_le down enough)))

theorem climbs_superclasses (known : t.index < c.types.size) :
    c.Climbs found? t ((c.superclasses t).findSome? found?) :=
  h.climbs_superclassesWithin (Nat.le_of_lt known)

theorem le_of_mem_superclassesWithin {limit : Nat} (mem : s ∈ c.superclassesWithin limit t) :
    s ≤ t := by
  induction limit generalizing t with
  | zero => exact Nat.le_of_eq (congrArg Id.index (List.mem_singleton.1 mem))
  | succ limit ih =>
    rw [superclassesWithin_succ] at mem
    obtain rfl | mem := List.mem_cons.1 mem
    · exact Nat.le_refl _
    · cases step : c.superclass? t with
      | none => rw [step] at mem; cases mem
      | some u =>
        rw [step] at mem
        exact Nat.le_trans (ih mem) (Nat.le_of_lt (h t u (extends_of_superclass? step)))

end Layered

end Catalog

/-! ### Searches -/

/-- The field of a name that is found by climbing from a declared class. -/
theorem Builder.field?_run {b : Builder} (layered : b.catalog.Layered) {owner : TypeId}
    (known : owner.index < b.catalog.types.size) (name : String) :
    ∃ r, field? owner name b = (.ok r, b) ∧
      b.catalog.Climbs (fun t => b.catalog.fields.find? fun f => f.owner == t && f.name == name)
        owner r := by
  refine ⟨_, ?_, layered.climbs_superclasses known⟩
  have all : (b.catalog.superclasses owner).all (fun t => t.index < b.catalog.types.size) = true := by
    refine List.all_eq_true.2 fun t mem => decide_eq_true ?_
    exact Nat.lt_of_le_of_lt (layered.le_of_mem_superclassesWithin mem) known
  have run : declarations b = (.ok b.catalog, b) := rfl
  rw [field?]
  refine Eq.trans (Ensures.bind_run ..) ?_
  rw [run]
  dsimp only
  rw [if_pos all]
  generalize List.findSome? _ _ = r
  cases r <;> rfl

namespace Program

variable {p : Program} (layered : p.Layered)
include layered

/-- A method is looked for by climbing from the class where the search starts, then among the
interfaces. -/
theorem dispatch_climbs {receiver start : TypeId} (starts : p.dispatchStart? receiver = some start)
    (sub : Subsignature) : ∃ r, p.Climbs (p.implemented? · sub) start r ∧
      p.dispatch receiver sub = (r <|> (p.interfacesOf start).findSome? (p.implemented? · sub)) := by
  refine ⟨_, layered.climbs_superclasses ?_, by rw [dispatch, starts]; rfl⟩
  unfold dispatchStart? at starts
  split at starts
  next shape found =>
    split at starts
    · cases starts
    · cases starts
      exact Table.lt_size found
  next => exact Table.lt_size_of_find? starts
  next => cases starts

theorem resolve_climbs {ref : MethodRef} (known : ref.owner.index < p.types.size) :
    ∃ r, p.Climbs (p.declared? · ref.sub) ref.owner r ∧
      p.resolve ref = (r <|> (p.interfacesOf ref.owner).findSome? (p.declared? · ref.sub)) :=
  ⟨_, layered.climbs_superclasses known, rfl⟩

end Program

end PointsTo
