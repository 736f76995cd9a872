import PointsTo.Proofs.Rearranging
import PointsTo.Proofs.Safety.Programs

/-!
The super types of a type are the types that its declarations lead to in any number of steps. Every
round of widening but the last one adds a type, so there are rounds enough to find them all, whether
or not the declarations lead back to where they start.
-/
namespace PointsTo

open Relation

theorem Id.length_le_of_nodup {kind : Entity} {ids : List (Id kind)} {n : Nat} (apart : ids.Nodup)
    (small : ∀ i ∈ ids, i.index < n) : ids.length ≤ n := by
  have sub : ids ⊆ Id.firsts n := fun i hi => Id.mem_firsts.2 (small i hi)
  simpa [Id.firsts] using (apart.subperm sub).length_le

theorem Ascends.nodup {α : Type} [BEq α] {le : α → α → Bool} {as : List α} (h : Ascends le as) :
    as.Nodup := h.imp And.right

/-- The table entry that belongs to an id. -/
theorem Roster.getElem?_ofList_map_firsts {kind : Entity} {α : Type} {n : Nat}
    {f : Id kind → α} {i : Id kind} (known : i.index < n) :
    (Roster.ofList ((Id.firsts n).map f) : Roster kind α)[i]? = some (f i) := by
  change ((Id.firsts n).map f).toArray[i.index]? = some (f i)
  simp [Id.firsts, List.getElem?_range known]

namespace Catalog

variable {c : Catalog} {s t : TypeId} {ts : List TypeId}

/-- The declaration of `t` names `s` as the super class or as a super interface. -/
def Extends (c : Catalog) (t s : TypeId) : Prop := s ∈ c.directSupertypes t

theorem extends_iff : c.Extends t s ↔
    ∃ shape, c.shape? t = some shape ∧ (shape.superclass = some s ∨ s ∈ shape.interfaces) := by
  unfold Extends directSupertypes
  split
  next shape found => simp [found]
  next none => simp [none]

theorem types_of_shape? {shape : ClassShape} (h : c.shape? t = some shape) :
    ∃ name, c.types[t]? = some ⟨name, .nominal shape⟩ := by
  unfold shape? at h
  split at h
  next name _ found =>
    cases h
    exact ⟨name, found⟩
  next => cases h

theorem linksKnown_iff :
    c.linksKnown = true ↔ ∀ t s, c.Extends t s → s.index < c.types.size := by
  simp only [linksKnown, List.all_eq_true, decide_eq_true_iff]
  refine ⟨fun h t s ts => h t (Table.mem_ids.2 ?_) s ts, fun h t _ => h t⟩
  obtain ⟨shape, found, -⟩ := extends_iff.1 ts
  obtain ⟨_, d⟩ := types_of_shape? found
  exact ⟨_, d⟩

theorem mem_widen : s ∈ c.widen ts ↔ s ∈ ts ∨ ∃ t ∈ ts, c.Extends t s := by
  simp only [widen, mem_ascending, List.mem_append, List.mem_flatMap, Extends]

theorem ascends_widen : Ascends (fun a b => decide (a ≤ b)) (c.widen ts) := ascends_ids _

/-- Widening that changes a list adds a type to it. -/
theorem length_lt_widen (asc : Ascends (fun a b => decide (a ≤ b)) ts) (changes : c.widen ts ≠ ts) :
    ts.length < (c.widen ts).length := by
  have kept : ts ⊆ c.widen ts := fun t ht => mem_widen.2 (.inl ht)
  have subperm := asc.nodup.subperm kept
  refine Nat.lt_of_le_of_ne subperm.length_le fun same => changes ?_
  have perm := subperm.perm_of_length_le (Nat.le_of_eq same.symm)
  exact ids_ext ascends_widen asc fun t => perm.symm.mem_iff

theorem known_widen (links : c.linksKnown = true) (known : ∀ t ∈ ts, t.index < c.types.size) :
    ∀ t ∈ c.widen ts, t.index < c.types.size := by
  intro t ht
  obtain old | ⟨u, -, ut⟩ := mem_widen.1 ht
  · exact known t old
  · exact linksKnown_iff.1 links u t ut

/-- There are rounds enough when there is one for every type that is not in the list yet. -/
theorem widen_widenWithin (links : c.linksKnown = true) {rounds : Nat}
    (asc : Ascends (fun a b => decide (a ≤ b)) ts) (known : ∀ t ∈ ts, t.index < c.types.size)
    (enough : c.types.size ≤ rounds + ts.length) :
    c.widen (c.widenWithin rounds ts) = c.widenWithin rounds ts := by
  have known' := known_widen links known
  induction rounds generalizing ts with
  | zero =>
    by_contra changes
    have more := length_lt_widen asc changes
    have most := Id.length_le_of_nodup ascends_widen.nodup known'
    omega
  | succ rounds ih =>
    rw [widenWithin]
    split
    next same => exact same
    next changes =>
      have more := length_lt_widen asc changes
      exact ih ascends_widen known' (by omega) (known_widen links known')

/-- Nothing is lost by widening. -/
theorem mem_widenWithin {rounds : Nat} (mem : t ∈ ts) : t ∈ c.widenWithin rounds ts := by
  induction rounds generalizing ts with
  | zero => exact mem
  | succ rounds ih =>
    rw [widenWithin]
    split
    · exact mem
    · exact ih (mem_widen.2 (.inl mem))

/-- What widening adds is above something in the list. -/
theorem above_of_mem_widenWithin {rounds : Nat} (mem : s ∈ c.widenWithin rounds ts) :
    ∃ t ∈ ts, ReflTransGen c.Extends t s := by
  induction rounds generalizing ts with
  | zero => exact ⟨s, mem, .refl⟩
  | succ rounds ih =>
    rw [widenWithin] at mem
    split at mem
    · exact ⟨s, mem, .refl⟩
    · obtain ⟨u, hu, us⟩ := ih mem
      obtain hu | ⟨t, ht, tu⟩ := mem_widen.1 hu
      · exact ⟨u, hu, us⟩
      · exact ⟨t, ht, .head tu us⟩

/-- A super type of a declared type is what its declaration leads to. -/
theorem mem_supertypes (links : c.linksKnown = true) (known : t.index < c.types.size) :
    s ∈ c.supertypes t ↔ ReflTransGen c.Extends t s := by
  refine ⟨fun mem => ?_, fun above => ?_⟩
  · obtain ⟨u, hu, us⟩ := above_of_mem_widenWithin mem
    rwa [List.mem_singleton.1 hu] at us
  · have closed : c.widen (c.widenWithin c.types.size [t]) = c.widenWithin c.types.size [t] :=
      widen_widenWithin links (List.pairwise_singleton _ t) (by simpa using known)
        (Nat.le_add_right ..)
    induction above with
    | refl => exact mem_widenWithin (List.mem_singleton_self t)
    | tail _ us ih =>
      rw [supertypes, ← closed]
      exact mem_widen.2 (.inr ⟨_, ih, us⟩)

theorem ascends_supertypes : Ascends (fun a b => decide (a ≤ b)) (c.supertypes t) := by
  have run {rounds : Nat} {ts : List TypeId} (asc : Ascends (fun a b => decide (a ≤ b)) ts) :
      Ascends (fun a b => decide (a ≤ b)) (c.widenWithin rounds ts) := by
    induction rounds generalizing ts with
    | zero => exact asc
    | succ rounds ih =>
      rw [widenWithin]
      split
      · exact asc
      · exact ih ascends_widen
  exact run (List.pairwise_singleton _ t)

end Catalog

/-! ### Complete programs -/

namespace Program

variable {b : Builder} {p : Program} {s t : TypeId}

theorem linksKnown_of_build (built : b.build = .ok p) : p.linksKnown = true := by
  obtain ⟨same, -, -⟩ := Builder.build_eq_ok built
  rw [same]
  unfold Builder.build Builder.signatures? at built
  split at built
  next => cases built
  next found =>
    split at found
    next links => exact links
    next => cases found

variable (built : b.build = .ok p)
include built

theorem supertypesOf_of_build (known : t.index < p.types.size) :
    p.supertypesOf t = p.supertypes t := by
  rw [supertypesOf, (complete_of_build built).supertypeTable, Table.ids]
  simp [Roster.getElem?_ofList_map_firsts known]

theorem mem_supertypesOf (known : t.index < p.types.size) :
    s ∈ p.supertypesOf t ↔ ReflTransGen p.Extends t s := by
  rw [supertypesOf_of_build built known]
  exact Catalog.mem_supertypes (linksKnown_of_build built) known

/-- Between classes and interfaces, a value can be assigned to what its type's declaration leads to.
-/
theorem isSubtype_iff {a b : ClassShape} (ht : p.shape? t = some a) (hs : p.shape? s = some b) :
    p.isSubtype t s = true ↔ ReflTransGen p.Extends t s := by
  obtain ⟨name, dt⟩ := Catalog.types_of_shape? ht
  obtain ⟨name', ds⟩ := Catalog.types_of_shape? hs
  rw [← mem_supertypesOf built (Table.lt_size dt), isSubtype]
  unfold isSubtypeWithin
  rw [Bool.or_eq_true, beq_iff_eq, dt, ds]
  simp only [List.contains_iff_mem]
  refine or_iff_right_of_imp ?_
  rintro rfl
  exact (mem_supertypesOf built (Table.lt_size dt)).2 .refl

end Program

end PointsTo
