import PointsTo.Proofs.Hierarchy.Loading

/-!
Assignability is a partial order of the types of a loaded program: of its classes and interfaces,
its arrays of any number of dimensions, its primitive types and the null type.

Arrays are compared by their elements, so what has to be known of them is that their elements come
before them and give them their names. An array is below the classes of certain names, too; the order
is transitive as long as nothing is above these.
-/
namespace PointsTo

open Relation

/-! ### Arrays and the null type -/

namespace Catalog

variable {c c' : Catalog} {s t : TypeId}

/-- Arrays are named after their elements, which come before them, and so is the null type after
itself. -/
structure Composed (c : Catalog) : Prop where
  array : ∀ (t : TypeId) name elem, c.types[t]? = some ⟨name, .array elem⟩ →
    elem < t ∧ ∃ n, c.typeName? elem = some n ∧ name = n ++ "[]"
  null : ∀ (t : TypeId) name, c.types[t]? = some ⟨name, .null⟩ → name = "null"

theorem Composed.of_types (h : c.Composed) (same : c'.types = c.types) : c'.Composed := by
  constructor
  · simp only [typeName?, same]
    exact h.array
  · simp only [same]
    exact h.null

/-- Classes and interfaces alone are composed of nothing. -/
theorem composed_of_nominal
    (nominal : ∀ (t : TypeId) name form, c.types[t]? = some ⟨name, form⟩ →
      ∃ shape, form = .nominal shape) : c.Composed where
  array t name elem found := by
    obtain ⟨_, eq⟩ := nominal t name _ found
    cases eq
  null t name found := by
    obtain ⟨_, eq⟩ := nominal t name _ found
    cases eq

theorem Composed.intern (h : c.Composed) {name : String} {form : TypeForm}
    (added : Builder.Added c name form) :
    { c with types := (c.types.intern ⟨name, form⟩).2 }.Composed := by
  obtain ⟨_, -, same⟩ | ⟨-, -, mem⟩ := c.types.intern_cases ⟨name, form⟩
  · exact h.of_types (by rw [same])
  · have within : c.types.Within (c.types.intern ⟨name, form⟩).2 := Table.within_intern
    generalize (c.types.intern ⟨name, form⟩).2 = types at mem within
    have named {elem : TypeId} {n : String} (known : c.typeName? elem = some n) :
        ({ c with types } : Catalog).typeName? elem = some n := by
      obtain ⟨decl, found, rfl⟩ := Option.map_eq_some_iff.1 known
      exact Option.map_eq_some_iff.2 ⟨decl, within elem decl found, rfl⟩
    constructor
    · intro t name' elem found
      obtain old | ⟨rfl, new⟩ := (mem t _).1 found
      · obtain ⟨lt, n, known, eq⟩ := h.array t name' elem old
        exact ⟨lt, n, named known, eq⟩
      · cases new
        cases added with
        | array known =>
          obtain ⟨_, before, -⟩ := Option.map_eq_some_iff.1 known
          exact ⟨Table.lt_size before, _, named known, rfl⟩
    · intro t name' found
      obtain old | ⟨rfl, new⟩ := (mem t _).1 found
      · exact h.null t name' old
      · cases new
        cases added
        rfl

instance : Builder.Steady fun b => b.catalog.Composed where
  of_types h same := h.of_types same
  intern h added := h.intern added

variable (h : c.Composed)
include h

/-- There is one array of each element type. -/
theorem Composed.array_unique {name name' : String} {elem : TypeId}
    (ht : c.types[t]? = some ⟨name, .array elem⟩) (hs : c.types[s]? = some ⟨name', .array elem⟩) :
    t = s := by
  obtain ⟨-, n, known, rfl⟩ := h.array t name elem ht
  obtain ⟨-, n', known', rfl⟩ := h.array s name' elem hs
  cases known.symm.trans known'
  exact Table.id_eq_of_key_eq ht hs rfl

theorem Composed.null_unique {name name' : String} (ht : c.types[t]? = some ⟨name, .null⟩)
    (hs : c.types[s]? = some ⟨name', .null⟩) : t = s := by
  cases h.null t name ht
  cases h.null s name' hs
  exact Table.id_eq_of_key_eq ht hs rfl

end Catalog

theorem Description.composed_of_assemble {d : Description} {p : Program}
    (accepted : d.assemble.result = .ok p) : p.Composed := by
  have ends : Ends (declareAll d) {} (fun _ b => b.catalog.Composed) fun _ _ => True := by
    refine ((declares_classes d {} .empty).mono (fun _ _ => id) fun _ _ _ => trivial).bind ?_
    rintro ⟨⟩ b ⟨charts, -⟩
    have composed : b.catalog.Composed :=
      Catalog.composed_of_nominal fun t name form found => (charts t name form found).1
    have spares : Builder.Spares (fun b => b.catalog.Composed) _ := spares_members d
    exact (spares b composed).mono (fun _ _ => And.left) fun _ _ _ => trivial
  obtain ⟨b, run, built⟩ := exists_build accepted
  rw [(Builder.build_eq_ok built).1]
  exact ends.ensures _ _ run

/-! ### The order of the types -/

namespace Program

variable {p : Program} {s t u : TypeId}

/-- A value of type `t` can be assigned to `s`. -/
inductive Assigns (p : Program) : TypeId → TypeId → Prop
  | refl (t : TypeId) : Assigns p t t
  | null {t s : TypeId} {name : String} (ht : p.types[t]? = some ⟨name, .null⟩)
    (reference : p.isReference s = true) : Assigns p t s
  | nominal {t s : TypeId} {name name' : String} {a b : ClassShape}
    (ht : p.types[t]? = some ⟨name, .nominal a⟩) (hs : p.types[s]? = some ⟨name', .nominal b⟩)
    (above : ReflTransGen p.Extends t s) : Assigns p t s
  | special {t s elem : TypeId} {name name' : String} {b : ClassShape}
    (ht : p.types[t]? = some ⟨name, .array elem⟩) (hs : p.types[s]? = some ⟨name', .nominal b⟩)
    (named : isArraySupertype name' = true) : Assigns p t s
  | array {t s elem elem' : TypeId} {name name' : String}
    (ht : p.types[t]? = some ⟨name, .array elem⟩) (hs : p.types[s]? = some ⟨name', .array elem'⟩)
    (reference : p.isReference elem = true) (reference' : p.isReference elem' = true)
    (elems : Assigns p elem elem') : Assigns p t s

/-- Nothing is above the classes that all arrays can be assigned to. -/
def Topped (p : Program) : Prop :=
  ∀ name t s, isArraySupertype name = true → p.type? name = some t →
    ReflTransGen p.Extends t s → s = t

section Computing

variable {b : Builder} (built : b.build = .ok p)
include built

/-- No bound on the dimensions of arrays lets through what cannot be assigned. -/
theorem assigns_of_isSubtypeWithin {depth : Nat} (h : p.isSubtypeWithin depth t s = true) :
    p.Assigns t s := by
  induction depth using Nat.strong_induction_on generalizing t s with | h depth ih
  unfold isSubtypeWithin at h
  obtain same | h := Bool.or_eq_true_iff.1 h
  · exact beq_iff_eq.1 same ▸ .refl t
  split at h
  next ht hs => exact .null ht h
  next ht hs =>
    have known := Table.lt_size ht
    exact .nominal ht hs ((mem_supertypesOf built known).1 (List.contains_iff_mem.1 h))
  next ht hs => exact .special ht hs h
  next ht hs =>
    split at h
    · cases h
    · simp only [Bool.and_eq_true] at h
      obtain ⟨⟨reference, reference'⟩, elems⟩ := h
      exact .array ht hs reference reference' (ih _ (Nat.lt_succ_self _) elems)
  next => cases h

/-- A bound that is no less than the place of a type is enough for its dimensions. -/
theorem Assigns.isSubtypeWithin (composed : p.Composed) (h : p.Assigns t s) {depth : Nat}
    (enough : t.index < p.types.size → t.index ≤ depth) :
    p.isSubtypeWithin depth t s = true := by
  induction h generalizing depth with
  | refl t =>
    unfold Program.isSubtypeWithin
    simp
  | @null t s _ ht reference =>
    obtain ⟨decl, hs⟩ : ∃ decl, p.types[s]? = some decl := by
      cases hs : p.types[s]? with
      | none => simp [Catalog.isReference, hs] at reference
      | some decl => exact ⟨decl, rfl⟩
    unfold Program.isSubtypeWithin
    simp [ht, hs, reference]
  | nominal ht hs above =>
    unfold Program.isSubtypeWithin
    simp [ht, hs, (mem_supertypesOf built (Table.lt_size ht)).2 above]
  | special ht hs named =>
    unfold Program.isSubtypeWithin
    simp [ht, hs, named]
  | @array t s elem _ _ _ ht hs reference reference' _ ih =>
    -- The element comes before the array, so the bound that is left is enough for it.
    have earlier : elem.index < t.index := (composed.array t _ elem ht).1
    have bound := enough (Table.lt_size ht)
    cases depth with
    | zero => omega
    | succ depth =>
      unfold Program.isSubtypeWithin
      simp [ht, hs, reference, reference', ih fun _ => Nat.le_of_lt_succ (earlier.trans_le bound)]

theorem isSubtype_iff_assigns (composed : p.Composed) : p.isSubtype t s = true ↔ p.Assigns t s :=
  ⟨assigns_of_isSubtypeWithin built, fun h => h.isSubtypeWithin built composed Nat.le_of_lt⟩

end Computing

namespace Assigns

theorem isReference (h : p.Assigns t s) (reference : p.isReference t = true) :
    p.isReference s = true := by
  cases h with
  | refl => exact reference
  | null _ reference => exact reference
  | nominal _ hs | special _ hs | array _ hs => simp [Catalog.isReference, hs]

theorem trans (topped : p.Topped) (ts : p.Assigns t s) (su : p.Assigns s u) : p.Assigns t u := by
  induction ts generalizing u with
  | refl => exact su
  | null ht reference => exact .null ht (su.isReference reference)
  | nominal ht hs above =>
    cases su with
    | refl => exact .nominal ht hs above
    | nominal _ hu above' => exact .nominal ht hu (above.trans above')
    | null hs' | special hs' | array hs' => cases hs.symm.trans hs'
  | special ht hs named =>
    cases su with
    | refl => exact .special ht hs named
    | nominal _ _ above =>
      -- Arrays are not assigned to what is above `s`, so there must not be anything.
      cases topped _ _ _ named (Table.find?_eq_some_iff.2 ⟨_, hs, rfl⟩) above
      exact .special ht hs named
    | null hs' | special hs' | array hs' => cases hs.symm.trans hs'
  | array ht hs reference reference' elems ih =>
    cases su with
    | refl => exact .array ht hs reference reference' elems
    | special _ hu named => exact .special ht hu named
    | array hs' hu _ reference'' elems' =>
      cases hs.symm.trans hs'
      exact .array ht hu reference reference'' (ih elems')
    | null hs' | nominal hs' => cases hs.symm.trans hs'

theorem antisymm (composed : p.Composed) (layered : p.Layered) (ts : p.Assigns t s)
    (st : p.Assigns s t) : t = s := by
  induction ts with
  | refl => rfl
  | null ht _ =>
    cases st with
    | refl => rfl
    | null hs => exact composed.null_unique ht hs
    | nominal _ ht' | special _ ht' | array _ ht' => cases ht.symm.trans ht'
  | nominal ht hs above =>
    cases st with
    | refl => rfl
    | nominal _ _ back =>
      -- Two types that lead to each other would lead to themselves.
      obtain rfl | up := reflTransGen_iff_eq_or_transGen.1 above
      · rfl
      · exact absurd (up.trans_left back) layered.acyclic
    | null hs' | special hs' | array hs' => cases hs.symm.trans hs'
  | special ht hs _ =>
    cases st with
    | refl => rfl
    | nominal _ ht' => cases ht.symm.trans ht'
    | null hs' | special hs' | array hs' => cases hs.symm.trans hs'
  | array ht hs _ _ _ ih =>
    cases st with
    | refl => rfl
    | array hs' ht' _ _ back =>
      cases hs.symm.trans hs'
      cases ht.symm.trans ht'
      cases ih back
      exact composed.array_unique ht hs
    | null hs' | nominal hs' => cases hs.symm.trans hs'
    | special _ ht' => cases ht.symm.trans ht'

end Assigns
end Program

namespace Description

variable {d : Description} {p : Program}

/-- In a loaded program assignability is a partial order, unless something is above the classes that
all arrays can be assigned to, and between classes and interfaces it is what their declarations lead
to. -/
theorem isSubtype_isPartialOrder (accepted : d.assemble.result = .ok p) (topped : p.Topped) :
    IsPartialOrder TypeId (fun t s => p.isSubtype t s = true) ∧
    ∀ t s a b, p.shape? t = some a → p.shape? s = some b →
      (p.isSubtype t s = true ↔ ReflTransGen p.Extends t s) := by
  obtain ⟨b, -, built⟩ := exists_build accepted
  have composed := composed_of_assemble accepted
  have assigns (t s : TypeId) : p.isSubtype t s = true ↔ p.Assigns t s :=
    Program.isSubtype_iff_assigns built composed
  refine ⟨?_, fun t s _ _ ht hs => Program.isSubtype_iff built ht hs⟩
  simp only [assigns]
  exact
    { refl := .refl
      trans := fun _ _ _ => .trans topped
      antisymm := fun _ _ ts st => ts.antisymm composed (layered_of_assemble accepted) st }

end Description

namespace Examples

/-- Circles are shapes. There are arrays of arrays of both, arrays of numbers and the null type. -/
def gallery : Description where
  classes :=
    [⟨"Circle", some "java.lang.Object", ["Shape"], false, false,
      [⟨"grid", "Circle[][]", false⟩, ⟨"shapes", "Shape[][]", false⟩, ⟨"sizes", "int[]", false⟩,
       ⟨"none", "null", false⟩], []⟩,
     ⟨"Shape", none, [], true, false, [], []⟩,
     ⟨"java.lang.Cloneable", none, [], true, false, [], []⟩,
     ⟨"java.lang.Object", none, [], false, false, [], []⟩]
  entries := []

def galleryProgram : Program := gallery.assemble.result.toOption.getD default

end Examples

open Examples in
theorem Description.isSubtype_isPartialOrder_gallery :
    gallery.assemble.result = .ok galleryProgram ∧ galleryProgram.Topped ∧
    IsPartialOrder TypeId (fun t s => galleryProgram.isSubtype t s = true) ∧
    galleryProgram.type? "null" = some ⟨10⟩ ∧ galleryProgram.type? "Circle[][]" = some ⟨5⟩ ∧
    galleryProgram.type? "Shape[][]" = some ⟨7⟩ ∧
    galleryProgram.isSubtype ⟨10⟩ ⟨5⟩ = true ∧ galleryProgram.isSubtype ⟨5⟩ ⟨7⟩ = true ∧
    galleryProgram.isSubtype ⟨7⟩ ⟨5⟩ = false := by
  have accepted : gallery.assemble.result = .ok galleryProgram :=
    eq_ok_of_isOk (by decide +kernel)
  have bare : (rootClass :: arraySupertypes).all (fun name =>
      (galleryProgram.type? name).all (galleryProgram.directSupertypes · == [])) = true := by
    decide +kernel
  have topped : galleryProgram.Topped := by
    intro name t s named found above
    have mem : name ∈ rootClass :: arraySupertypes := by
      simpa [Program.isArraySupertype] using named
    have none := List.all_eq_true.1 bare name mem
    rw [found, Option.all_some, beq_iff_eq] at none
    obtain rfl | ⟨u, tu, -⟩ := above.cases_head
    · rfl
    · rw [Catalog.Extends, none] at tu
      cases tu
  exact ⟨accepted, topped, (isSubtype_isPartialOrder accepted topped).1, by decide +kernel⟩

end PointsTo
