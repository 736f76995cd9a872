import PointsTo.Proofs.Hierarchy.Retaining
import PointsTo.Proofs.Safety.Runs

/-!
The class hierarchy of a loaded program. Its declarations name what the descriptions name, as far as
they take it over, and they never lead back to where they start; descriptions that do are refused.
-/
namespace PointsTo

open Relation

namespace Description

variable {d : Description} {c : Catalog} {s t : TypeId} {m n : String}

/-- Some description of `m` names `n` as its super class or as a super interface. -/
def Describes (d : Description) (m n : String) : Prop :=
  ∃ k ∈ d.classes, k.name = m ∧ n ∈ k.supertypes

/-- A class of the name is described, or it is a super type of one. -/
def Mentions (d : Description) (n : String) : Prop :=
  (∃ k ∈ d.classes, k.name = n) ∨ ∃ m, d.Describes m n

theorem Leads.describes (h : d.Leads m n) : d.Describes m n := by
  obtain ⟨k, described, mem⟩ := h
  obtain ⟨hk, same⟩ := mem_of_class? described
  exact ⟨k, hk, same, mem⟩

/-! ### Names and types -/

namespace Charts

theorem empty : d.Charts {} := fun _ _ _ h => by cases h

variable (h : d.Charts c)
include h

theorem mirrors (found : c.type? n = some t) :
    (∃ shape, c.types[t]? = some ⟨n, .nominal shape⟩) ∧ d.Mirrors c t n := by
  obtain ⟨⟨name, form⟩, declared, rfl⟩ := Table.find?_eq_some_iff.1 found
  obtain ⟨⟨shape, rfl⟩, mirrors⟩ := h t name form declared
  exact ⟨⟨shape, declared⟩, mirrors⟩

theorem layered : c.Layered := by
  intro t s extends'
  obtain ⟨shape, found, -⟩ := Catalog.extends_iff.1 extends'
  obtain ⟨name, declared⟩ := Catalog.types_of_shape? found
  have mirrors := (h t name _ declared).2
  obtain ⟨n, keeps, found⟩ := (mirrors.extends_iff s).1 extends'
  obtain ⟨s', found', lt⟩ := mirrors.earlier n keeps.leads
  cases found.symm.trans found'
  exact lt

/-- What a declared name leads to has been declared before it. -/
theorem lt_of_leads (leads : TransGen d.Leads m n) (found : c.type? m = some t) :
    ∃ s, c.type? n = some s ∧ s < t := by
  induction leads with
  | single leads => exact (h.mirrors found).2.earlier _ leads
  | tail _ leads ih =>
    obtain ⟨u, found', lt⟩ := ih
    obtain ⟨s, found'', lt'⟩ := (h.mirrors found').2.earlier _ leads
    exact ⟨s, found'', Nat.lt_trans lt' lt⟩

/-- Between declared names, declarations lead to what is taken over from the descriptions. -/
theorem above_iff (hm : c.type? m = some t) (hn : c.type? n = some s) :
    ReflTransGen c.Extends t s ↔ ReflTransGen d.Keeps m n := by
  constructor
  · intro above
    induction above using ReflTransGen.head_induction_on generalizing m with
    | refl =>
      obtain ⟨_, ⟨hs, rfl⟩⟩ := Table.find?_eq_some_iff.1 hm
      obtain ⟨_, ⟨hs', rfl⟩⟩ := Table.find?_eq_some_iff.1 hn
      cases hs.symm.trans hs'
      exact .refl
    | head step _ ih =>
      obtain ⟨x, keeps, hx⟩ := ((h.mirrors hm).2.extends_iff _).1 step
      exact .head keeps (ih hx)
  · intro path
    induction path using ReflTransGen.head_induction_on generalizing t with
    | refl =>
      cases hm.symm.trans hn
      exact .refl
    | head keeps _ ih =>
      obtain ⟨u, hu, -⟩ := (h.mirrors hm).2.earlier _ keeps.leads
      exact .head (((h.mirrors hm).2.extends_iff u).2 ⟨_, keeps, hu⟩) (ih hu)

end Charts

/-! ### Loading -/

/-- What loading leaves behind, whether or not it fails. -/
def Reflects (d : Description) (b : Builder) : Prop :=
  ∃ b₀ : Builder, d.Charts b₀.catalog ∧ b₀.Retains b

theorem Reflects.layered {b : Builder} (h : d.Reflects b) : b.catalog.Layered := by
  obtain ⟨b₀, charts, retains⟩ := h
  exact retains.layered charts.layered

/-- All classes are declared at first, unless some of them lead back to themselves, and they are
spared by all that follows. -/
theorem ends_declareAll (d : Description) :
    Ends (declareAll d) {} (fun _ b => ∃ b₀ : Builder, d.Charts b₀.catalog ∧ b₀.Retains b ∧
      ∀ k ∈ d.classes, ∃ id, b₀.catalog.type? k.name = some id) fun _ => d.Reflects := by
  refine ((declares_classes d {} .empty).mono (fun _ _ => id) ?_).bind ?_
  · exact fun fault b ⟨charts, _⟩ => ⟨b, charts, .refl b.catalog.types, fun _ _ _ => id⟩
  · rintro ⟨⟩ b₀ ⟨charts, -, declared⟩
    have spares : Builder.Spares b₀.Retains _ := spares_members d
    exact (spares b₀ ⟨.refl b₀.catalog.types, fun _ _ _ => id⟩).mono
      (fun _ b ⟨retains, _⟩ => ⟨b₀, charts, retains, declared⟩)
      fun _ b retains => ⟨b₀, charts, retains⟩

theorem reflects_declareAll (d : Description) : d.Reflects ((declareAll d).run.run {}).2 := by
  have ends := ends_declareAll d
  unfold Ends at ends
  change d.Reflects (declareAll d {}).2
  split at ends
  next run =>
    rw [run]
    obtain ⟨b₀, charts, retains, -⟩ := ends
    exact ⟨b₀, charts, retains⟩
  next run =>
    rw [run]
    exact ends

/-- When a name leads back to itself, that is what stops the loading. -/
theorem declareAll_refuses (circle : TransGen d.Leads n n) :
    ∃ text b, (declareAll d).run.run {} = (.error (.program text), b) := by
  have ends := declares_classes d {} .empty
  rcases run : (d.classes.forM fun c => do
      let _ ← declareClass d (d.classes.map Class.name).eraseDups c.name) {} with ⟨fault | _, b⟩
  · obtain ⟨-, ⟨text, rfl⟩, -⟩ := ends.failed run
    refine ⟨text, b, ?_⟩
    change declareAll d {} = _
    rw [declareAll, Ensures.bind_run, run]
  · obtain ⟨charts, -, declared⟩ := ends.ensures _ _ run
    obtain ⟨_, ⟨k, described, _⟩, _⟩ := TransGen.head'_iff.1 circle
    obtain ⟨hk, rfl⟩ := mem_of_class? described
    obtain ⟨t, found⟩ := declared k hk
    obtain ⟨s, found', lt⟩ := charts.lt_of_leads circle found
    cases found.symm.trans found'
    exact absurd lt (Nat.lt_irrefl _)

/-- What is accepted has been constructed. -/
theorem exists_build {p : Program} (accepted : d.assemble.result = .ok p) : ∃ b : Builder,
    (declareAll d).run.run {} = (.ok (), b) ∧ b.build = .ok p := by
  unfold assemble at accepted
  split at accepted
  · cases accepted
  next b run => exact ⟨b, run, accepted⟩

theorem layered_of_assemble {p : Program} (accepted : d.assemble.result = .ok p) : p.Layered := by
  obtain ⟨b, run, built⟩ := exists_build accepted
  have reflects := reflects_declareAll d
  rw [run] at reflects
  rw [(Builder.build_eq_ok built).1]
  exact reflects.layered

/-! ### Assignability -/

/-- A class of the name is described, or it is a super type in a description that counts. -/
def Registers (d : Description) (n : String) : Prop :=
  (∃ k ∈ d.classes, k.name = n) ∨ ∃ m, d.Leads m n

/-- A loaded program has the subtypes that are taken over from the descriptions, and no others. -/
theorem isSubtype_iff_keeps {p : Program} (accepted : d.assemble.result = .ok p)
    (hm : d.Registers m) (hn : d.Registers n) : ∃ t s, p.type? m = some t ∧ p.type? n = some s ∧
      (p.isSubtype t s = true ↔ ReflTransGen d.Keeps m n) := by
  obtain ⟨b, run, built⟩ := exists_build accepted
  obtain ⟨b₀, charts, retains, declared⟩ := (ends_declareAll d).ensures _ _ run
  have same := (Builder.build_eq_ok built).1
  have known {x : String} (hx : d.Registers x) : ∃ u, b₀.catalog.type? x = some u := by
    obtain ⟨k, hk, rfl⟩ | ⟨y, leads⟩ := hx
    · exact declared k hk
    · obtain ⟨k, hk, rfl, -⟩ := leads.describes
      obtain ⟨t, found⟩ := declared k hk
      exact (charts.lt_of_leads (.single leads) found).imp fun _ => And.left
  have kept {x : String} {u : TypeId} (hx : b₀.catalog.type? x = some u) :
      p.type? x = some u ∧ ∃ shape, p.shape? u = some shape := by
    obtain ⟨⟨shape, old⟩, -⟩ := charts.mirrors hx
    have declared : b.catalog.types[u]? = some ⟨x, .nominal shape⟩ := retains.grows u _ old
    rw [same]
    exact ⟨retains.grows.find? hx, shape, by rw [Catalog.shape?, declared]⟩
  obtain ⟨t, found⟩ := known hm
  obtain ⟨s, found'⟩ := known hn
  obtain ⟨ht, _, shapeT⟩ := kept found
  obtain ⟨hs, _, shapeS⟩ := kept found'
  have links : p.Extends = b₀.catalog.Extends := by
    funext u v
    rw [same]
    exact propext retains.extends_iff
  refine ⟨t, s, ht, hs, ?_⟩
  rw [Program.isSubtype_iff built shapeT shapeS, links, charts.above_iff found found']

/-- When every super type that some description names is reached through those that declarations
take over, a loaded program has exactly the subtypes that its descriptions lead to. -/
theorem isSubtype_iff_describes {p : Program} (accepted : d.assemble.result = .ok p)
    (kept : ∀ m n, d.Describes m n → ReflTransGen d.Keeps m n) (hm : d.Mentions m)
    (hn : d.Mentions n) : ∃ t s, p.type? m = some t ∧ p.type? n = some s ∧
      (p.isSubtype t s = true ↔ ReflTransGen d.Describes m n) := by
  have registers {x : String} (hx : d.Mentions x) : d.Registers x := by
    obtain described | ⟨y, describes⟩ := hx
    · exact .inl described
    · obtain rfl | ⟨z, -, last⟩ := ReflTransGen.cases_tail (kept y x describes)
      · obtain ⟨k, hk, same, -⟩ := describes
        exact .inl ⟨k, hk, same⟩
      · exact .inr ⟨z, last.leads⟩
  obtain ⟨t, s, ht, hs, subtype⟩ := isSubtype_iff_keeps accepted (registers hm) (registers hn)
  refine ⟨t, s, ht, hs, subtype.trans ⟨fun path => ?_, fun path => ?_⟩⟩
  · exact ReflTransGen.mono (fun _ _ keeps => keeps.leads.describes) _ _ path
  · exact reflTransGen_closed kept _ _ path

end Description

namespace Examples

/-- A class below an interface that extends another one, in the order of its names; the super class
is not described. -/
def circleClasses : Description where
  classes :=
    [⟨"Circle", some "Shape", ["Round"], false, true, [], []⟩,
     ⟨"Closed", none, [], true, false, [], []⟩,
     ⟨"Round", none, ["Closed"], true, false, [], []⟩]
  entries := []

def circleProgram : Program := circleClasses.assemble.result.toOption.getD default

/-- An interface that names a super class. -/
def rootedInterface : Description where
  classes :=
    [⟨"java.lang.Object", none, [], false, false, [], []⟩,
     ⟨"Shape", some "java.lang.Object", [], true, false, [], []⟩]
  entries := []

def rootedProgram : Program := rootedInterface.assemble.result.toOption.getD default

end Examples

namespace Description

open Examples

theorem isSubtype_iff_describes_circle : circleClasses.assemble.result = .ok circleProgram ∧
    ∃ t s, circleProgram.type? "Circle" = some t ∧ circleProgram.type? "Closed" = some s ∧
      circleProgram.isSubtype t s = true := by
  have accepted : circleClasses.assemble.result = .ok circleProgram :=
    eq_ok_of_isOk (by decide +kernel)
  have described (m n : String) (h : circleClasses.Describes m n) :
      ReflTransGen circleClasses.Keeps m n := by
    obtain ⟨k, hk, rfl, mem⟩ := h
    simp only [circleClasses, List.mem_cons, List.not_mem_nil, or_false] at hk
    rcases hk with rfl | rfl | rfl
    · exact .single ⟨_, rfl, mem⟩
    · exact .single ⟨_, rfl, mem⟩
    · exact .single ⟨_, rfl, mem⟩
  obtain ⟨t, s, ht, hs, subtype⟩ := isSubtype_iff_describes accepted described
    (m := "Circle") (n := "Closed") (.inl ⟨_, .head _, rfl⟩) (.inl ⟨_, .tail _ (.head _), rfl⟩)
  refine ⟨accepted, t, s, ht, hs, subtype.2 ?_⟩
  exact .tail (b := "Round") (.single ⟨_, .head _, rfl, by decide⟩)
    ⟨_, .tail _ (.tail _ (.head _)), rfl, by decide⟩

/-- The super class that an interface names is declared before it, and is none of its super types.
-/
theorem isSubtype_lost_interface : rootedInterface.assemble.result = .ok rootedProgram ∧
    rootedInterface.Mentions "Shape" ∧ rootedInterface.Mentions "java.lang.Object" ∧
    rootedInterface.Describes "Shape" "java.lang.Object" ∧
    rootedProgram.type? "Shape" = some ⟨1⟩ ∧ rootedProgram.type? "java.lang.Object" = some ⟨0⟩ ∧
    rootedProgram.isSubtype ⟨1⟩ ⟨0⟩ = false := by
  refine ⟨eq_ok_of_isOk (by decide +kernel), .inl ⟨_, .tail _ (.head _), rfl⟩, .inl ⟨_, .head _, rfl⟩,
    ⟨_, .tail _ (.head _), rfl, by decide⟩, ?_⟩
  decide +kernel

/-! ### Loops over the hierarchy -/

/-- A name that leads back to itself is refused as a fault of the program. Whether or not loading
succeeds, a loop that looks for a field in the super classes of a declared class ends. In an
accepted program no type is above itself, and the loops that look for methods end, too. -/
theorem hierarchies_end (d : Description) :
    (∀ n, TransGen d.Leads n n → ∃ text, d.assemble = ⟨.error (.program text), []⟩) ∧
    (∀ r b, (declareAll d).run.run {} = (r, b) → ∀ owner name, owner.index < b.catalog.types.size →
      ∃ field, Builder.field? owner name b = (.ok field, b) ∧
        b.catalog.Climbs (fun t => b.catalog.fields.find? fun f => f.owner == t && f.name == name)
          owner field) ∧
    ∀ p, d.assemble.result = .ok p → (∀ t, ¬ TransGen p.Extends t t) ∧
      (∀ receiver sub, p.dispatchStart? receiver = none ∧ p.dispatch receiver sub = none ∨
        ∃ start m, p.dispatchStart? receiver = some start ∧ p.Climbs (p.implemented? · sub) start m ∧
          p.dispatch receiver sub =
            (m <|> (p.interfacesOf start).findSome? (p.implemented? · sub))) ∧
      ∀ ref : MethodRef, ref.owner.index < p.types.size →
        ∃ m, p.Climbs (p.declared? · ref.sub) ref.owner m ∧
          p.resolve ref = (m <|> (p.interfacesOf ref.owner).findSome? (p.declared? · ref.sub)) := by
  refine ⟨fun n circle => ?_, fun r b run owner name known => ?_, fun p accepted => ?_⟩
  · obtain ⟨text, b, run⟩ := declareAll_refuses circle
    exact ⟨text, by rw [assemble, run]⟩
  · have reflects := reflects_declareAll d
    rw [run] at reflects
    exact Builder.field?_run reflects.layered known name
  · have layered := layered_of_assemble accepted
    refine ⟨fun t => layered.acyclic, fun receiver sub => ?_, fun ref known =>
      Program.resolve_climbs layered known⟩
    cases starts : p.dispatchStart? receiver with
    | none => exact .inl ⟨rfl, by rw [Program.dispatch, starts]; rfl⟩
    | some start =>
      obtain ⟨m, climbs, found⟩ := Program.dispatch_climbs layered starts sub
      exact .inr ⟨start, m, rfl, climbs, found⟩

end Description

namespace Examples

/-- Interfaces that lead back to themselves by a super class, which declarations do not take over.
-/
def interlaced : Description where
  classes :=
    [⟨"Round", none, ["Closed"], true, false, [], []⟩,
     ⟨"Closed", some "Round", [], true, false, [], []⟩]
  entries := []

end Examples

namespace Description

open Examples

theorem hierarchies_end_interlaced :
    (∃ text, interlaced.assemble = ⟨.error (.program text), []⟩) ∧
    circleClasses.assemble.result = .ok circleProgram ∧
    (∀ t, ¬ TransGen circleProgram.Extends t t) := by
  have accepted : circleClasses.assemble.result = .ok circleProgram :=
    eq_ok_of_isOk (by decide +kernel)
  refine ⟨(hierarchies_end interlaced).1 "Round" ?_, accepted,
    ((hierarchies_end circleClasses).2.2 _ accepted).1⟩
  exact .tail (b := "Closed") (.single ⟨_, rfl, by decide⟩) ⟨_, rfl, by decide⟩

end Description
end PointsTo
