import PointsTo.Proofs.Hierarchy.Climbing
import PointsTo.Proofs.Limits.Ends
import PointsTo.Proofs.Safety.Loading

/-!
Classes are declared with their super types before them. At any time the declarations that there are
say what the descriptions of their names say, and whoever is asked for again while it is being
declared leads back to itself.
-/
namespace PointsTo

open Relation

/-- The types of `b` are types of `b'`, under the same ids. -/
def Builder.Grows (b b' : Builder) : Prop := b.catalog.types.Within b'.catalog.types

instance : IsPreorder Builder Builder.Grows where
  refl b := .refl b.catalog.types
  trans _ _ _ := .trans

namespace Description

open Builder

variable {d : Description} {c c' : Catalog} {s t : TypeId} {name : String}

/-- The super types that a description names. -/
def Class.supertypes (k : Class) : List String := k.superclass.toList ++ k.interfaces

/-- The super types that a declaration takes over: an interface has no super class. -/
def Class.kept (k : Class) : List String := if k.isInterface then k.interfaces else k.supertypes

theorem Class.mem_supertypes_of_mem_kept {k : Class} {n : String} (h : n ∈ k.kept) :
    n ∈ k.supertypes := by
  unfold Class.kept at h
  split at h
  · exact List.mem_append_right _ h
  · exact h

theorem mem_of_class? {k : Class} (h : d.class? name = some k) : k ∈ d.classes ∧ k.name = name :=
  ⟨List.mem_reverse.1 (List.mem_of_find?_eq_some h),
    beq_iff_eq.1 (List.find?_some (p := fun k : Class => k.name == name) h)⟩

/-- The description that counts for the name `a` names `b` as a super type. -/
def Leads (d : Description) (a b : String) : Prop := ∃ k, d.class? a = some k ∧ b ∈ k.supertypes

/-- The declaration of `a` takes `b` over from its description. -/
def Keeps (d : Description) (a b : String) : Prop := ∃ k, d.class? a = some k ∧ b ∈ k.kept

theorem Keeps.leads {a b : String} (h : d.Keeps a b) : d.Leads a b :=
  h.imp fun _ => And.imp_right Class.mem_supertypes_of_mem_kept

/-- What a type of a name says about its super types: those that are taken over from the description
of the name, and everything that the description names has been declared before. -/
structure Mirrors (d : Description) (c : Catalog) (t : TypeId) (name : String) : Prop where
  extends_iff : ∀ s, c.Extends t s ↔ ∃ n, d.Keeps name n ∧ c.type? n = some s
  earlier : ∀ n, d.Leads name n → ∃ s, c.type? n = some s ∧ s < t

theorem Mirrors.mono (h : d.Mirrors c t name) {shape : ClassShape}
    (declared : c.types[t]? = some ⟨name, .nominal shape⟩) (within : c.types.Within c'.types) :
    d.Mirrors c' t name where
  extends_iff s := by
    have same : c'.Extends t s ↔ c.Extends t s := by
      have declared' : c'.types[t]? = some ⟨name, .nominal shape⟩ := within _ _ declared
      simp only [Catalog.extends_iff, Catalog.shape?, declared, declared']
    rw [same, h.extends_iff]
    constructor
    · rintro ⟨n, kept, found⟩
      exact ⟨n, kept, within.find? found⟩
    · rintro ⟨n, kept, found⟩
      obtain ⟨s', found', -⟩ := h.earlier n kept.leads
      cases (within.find? found').symm.trans found
      exact ⟨n, kept, found'⟩
  earlier n leads := (h.earlier n leads).imp fun _ => And.imp_left within.find?

/-- All types are classes and interfaces, and they say what their descriptions say. -/
def Charts (d : Description) (c : Catalog) : Prop :=
  ∀ t name form, c.types[t]? = some ⟨name, form⟩ →
    (∃ shape, form = .nominal shape) ∧ d.Mirrors c t name

/-- A type may be declared once everything is that its description names. -/
theorem Charts.intern (h : d.Charts c) {shape : ClassShape}
    (known : ∀ n, d.Leads name n → ∃ s, c.type? n = some s)
    (links : ∀ s, (shape.superclass = some s ∨ s ∈ shape.interfaces) ↔
      ∃ n, d.Keeps name n ∧ c.type? n = some s) :
    d.Charts { c with types := (c.types.intern ⟨name, .nominal shape⟩).2 } ∧
      (c.types.intern ⟨name, .nominal shape⟩).2.find? name =
        some (c.types.intern ⟨name, .nominal shape⟩).1 := by
  obtain ⟨id, found, same⟩ | ⟨-, id, mem⟩ := c.types.intern_cases ⟨name, .nominal shape⟩
  · rw [same]
    exact ⟨h, found⟩
  · have within : c.types.Within (c.types.intern ⟨name, .nominal shape⟩).2 := Table.within_intern
    have last := (mem ⟨c.types.size⟩ ⟨name, .nominal shape⟩).2 (.inr ⟨rfl, rfl⟩)
    generalize c.types.intern ⟨name, .nominal shape⟩ = interned at id mem within last
    obtain ⟨_, types⟩ := interned
    dsimp only at id mem within last
    subst id
    refine ⟨fun t name' form declared => ?_, Table.find?_eq_some_iff.2 ⟨_, last, rfl⟩⟩
    obtain old | ⟨rfl, new⟩ := (mem t _).1 declared
    · obtain ⟨⟨shape', rfl⟩, mirrors⟩ := h t name' form old
      exact ⟨⟨shape', rfl⟩, mirrors.mono old within⟩
    · cases new
      have before (n : String) (leads : d.Leads name n) :
          ∃ s, types.find? n = some s ∧ c.type? n = some s ∧ s < ⟨c.types.size⟩ := by
        obtain ⟨s, found⟩ := known n leads
        exact ⟨s, within.find? found, found, Table.lt_size_of_find? found⟩
      refine ⟨⟨shape, rfl⟩, fun s => ?_, fun n leads => ?_⟩
      · have declared' : ({ c with types } : Catalog).types[(⟨c.types.size⟩ : TypeId)]? =
            some ⟨name, .nominal shape⟩ := last
        simp only [Catalog.extends_iff, Catalog.shape?, declared', Option.some.injEq, exists_eq_left',
          links]
        refine exists_congr fun n => and_congr_right fun kept => ?_
        obtain ⟨s', found', found, -⟩ := before n kept.leads
        change _ ↔ types.find? n = some s
        rw [found, found']
      · obtain ⟨s, found, -, lt⟩ := before n leads
        exact ⟨s, found, lt⟩

/-! ### Steps -/

/-- Why declarations fail: the description that counts for some name leads back to that name. What
has been declared before is left as it is. -/
def Circles (d : Description) (fault : Fault) (b : Builder) : Prop :=
  d.Charts b.catalog ∧ (∃ text, fault = .program text) ∧ ∃ name, TransGen d.Leads name name

/-- A step of the declarations of classes. -/
abbrev Declares {α : Type} (d : Description) (f : Build α) (b : Builder) (Q : α → Builder → Prop) :
    Prop := Upholds (fun b => d.Charts b.catalog) Builder.Grows d.Circles f b Q

variable {α : Type} {b : Builder}

theorem declares_declarations {g : Catalog → Build α} {Q : α → Builder → Prop}
    (hg : d.Declares (g b.catalog) b Q) : d.Declares (declarations >>= g) b Q := hg

theorem ends_modifyCatalog {f : Catalog → Catalog} {E : Fault → Builder → Prop} :
    Ends (modifyCatalog f) b (fun _ t => t = { b with catalog := f b.catalog }) E := rfl

theorem declares_addType {shape : ClassShape}
    (known : ∀ n, d.Leads name n → ∃ s, b.catalog.type? n = some s)
    (links : ∀ s, (shape.superclass = some s ∨ s ∈ shape.interfaces) ↔
      ∃ n, d.Keeps name n ∧ b.catalog.type? n = some s) :
    d.Declares (addType name (.nominal shape)) b fun id t => t.catalog.type? name = some id := by
  intro charts
  have grows : b.catalog.types.Within (b.catalog.types.intern ⟨name, .nominal shape⟩).2 :=
    Table.within_intern
  obtain ⟨charts', found⟩ := charts.intern known links
  refine Ends.bind (P := fun c t => b = t ∧ c = b.catalog) ⟨rfl, rfl⟩ ?_
  rintro _ _ ⟨rfl, rfl⟩
  generalize b.catalog.types.intern ⟨name, .nominal shape⟩ = interned at grows charts' found
  obtain ⟨id, types⟩ := interned
  refine Ends.bind ends_modifyCatalog ?_
  rintro _ _ rfl
  dsimp only
  split
  · exact ⟨charts', grows, found⟩
  · exact ⟨charts', grows, found⟩

/-- Names and the types that have been declared for them. -/
abbrev Declared (c : Catalog) : List String → List TypeId → Prop :=
  List.Forall₂ fun n s => c.type? n = some s

theorem declares_option {f : String → Build TypeId} {o : Option String}
    (h : ∀ n, o = some n → d.Declares (f n) b fun id t => t.catalog.type? n = some id) :
    d.Declares (o.mapM f) b fun ids t => Declared t.catalog o.toList ids.toList := by
  cases o with
  | none => exact .pure .nil
  | some n => exact .bind (h n rfl) fun id t _ found => .pure (.cons found .nil)

/-- The declaration of a described class, once its super types are declared. -/
theorem declares_described {k : Class} (described : d.class? name = some k)
    {superclass : Option TypeId} {interfaces : List TypeId}
    (hs : Declared b.catalog k.superclass.toList superclass.toList)
    (hi : Declared b.catalog k.interfaces interfaces) :
    d.Declares (if k.isInterface then addInterface name interfaces
      else if k.isAbstract then addAbstractClass name superclass interfaces
      else addClass name superclass interfaces) b fun id t => t.catalog.type? name = some id := by
  have all : Declared b.catalog k.supertypes (superclass.toList ++ interfaces) :=
    List.rel_append hs hi
  have known (n : String) (leads : d.Leads name n) : ∃ s, b.catalog.type? n = some s := by
    obtain ⟨k', described', mem⟩ := leads
    cases described.symm.trans described'
    exact (exists_mem_right all n mem).imp fun _ => And.right
  have links {kept : List TypeId} (taken : Declared b.catalog k.kept kept) (s : TypeId) :
      s ∈ kept ↔ ∃ n, d.Keeps name n ∧ b.catalog.type? n = some s := by
    refine ⟨fun mem => ?_, fun ⟨n, ⟨k', described', mem⟩, found⟩ => ?_⟩
    · obtain ⟨n, mem, found⟩ := exists_mem_left taken s mem
      exact ⟨n, ⟨k, described, mem⟩, found⟩
    · cases described.symm.trans described'
      obtain ⟨s', mem, found'⟩ := exists_mem_right taken n mem
      cases found.symm.trans found'
      exact mem
  have classLinks (class' : k.isInterface = false) (s : TypeId) :
      (superclass = some s ∨ s ∈ interfaces) ↔
        ∃ n, d.Keeps name n ∧ b.catalog.type? n = some s := by
    have kept : Declared b.catalog k.kept (superclass.toList ++ interfaces) := by
      simpa [Class.kept, class'] using all
    rw [← links kept]
    simp
  split
  next interface' =>
    have kept : Declared b.catalog k.kept interfaces := by
      simpa [Class.kept, interface'] using hi
    refine declares_addType known fun s => ?_
    rw [← links kept]
    simp
  next class' =>
    rw [Bool.not_eq_true] at class'
    split
    · exact declares_addType known (classLinks class')
    · exact declares_addType known (classLinks class')

/-- A class is declared after its super types. Those that are being declared lead to it, so that
being asked for one of them again closes a circle. -/
theorem declares_declareClass (d : Description) (unopened : List String) (name : String)
    (opened : ∀ x k, d.class? x = some k → x ∉ unopened → TransGen d.Leads x name) (b : Builder) :
    d.Declares (declareClass d unopened name) b fun id t => t.catalog.type? name = some id := by
  induction n : unopened.length using Nat.strongRecOn generalizing unopened name b with
  | ind n ih =>
    subst n
    rw [declareClass]
    refine declares_declarations ?_
    split
    next id found => exact .pure found
    next =>
      split
      next phantom =>
        refine declares_addType (fun n leads => ?_) fun s => ?_
        · obtain ⟨k, described, -⟩ := leads
          cases phantom.symm.trans described
        · simp [Keeps, phantom]
      next k described =>
        split
        next mem =>
          have shorter {s : String} (leads : d.Leads name s) (b : Builder) :
              d.Declares (declareClass d (unopened.erase name) s) b fun id t =>
                t.catalog.type? s = some id := by
            refine ih _ ?_ _ _ (fun x k' described' fresh => ?_) b rfl
            · have := List.length_erase_of_mem mem
              have := List.length_pos_of_mem mem
              omega
            · by_cases same : x = name
              · exact same ▸ .single leads
              · have fresh' : x ∉ unopened := fun h => fresh ((List.mem_erase_of_ne same).2 h)
                exact .tail (opened x k' described' fresh') leads
          refine .bind (declares_option fun s hs => shorter ⟨k, described, ?_⟩ b) ?_
          · exact List.mem_append_left _ (by simp [hs])
          intro superclass t _ hs
          refine .bind (.mapM_forall₂ (D := fun n id t => t.catalog.type? n = some id)
            (fun n id s t st => st.find?) fun i hi u _ => shorter ⟨k, described, ?_⟩ u) ?_
          · exact List.mem_append_right _ hi
          intro interfaces u tu hi
          exact declares_described described (hs.imp fun n s => tu.find?) hi
        next reopened =>
          exact .throw fun charts => ⟨charts, ⟨_, rfl⟩, name, opened name k described reopened⟩

/-- The classes of a description are declared, unless one of them leads back to itself. -/
theorem declares_classes (d : Description) (b : Builder) :
    d.Declares (d.classes.forM fun c => do
      let _ ← declareClass d (d.classes.map Class.name).eraseDups c.name) b
      fun _ t => ∀ k ∈ d.classes, ∃ id, t.catalog.type? k.name = some id := by
  refine .forM_forall (D := fun (k : Class) (t : Builder) => ∃ id, t.catalog.type? k.name = some id)
    (fun k s t st => Exists.imp fun id => Table.Within.find? st) fun k _ t _ => ?_
  refine .bind (declares_declareClass d _ k.name (fun x k' described fresh => ?_) t) ?_
  · obtain ⟨mem, rfl⟩ := mem_of_class? described
    exact absurd (List.mem_eraseDups.2 (List.mem_map_of_mem mem)) fresh
  · exact fun id u _ found => .pure ⟨id, found⟩

end Description
end PointsTo
