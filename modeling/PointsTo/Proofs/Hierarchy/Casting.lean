import PointsTo.Proofs.Hierarchy.Climbing
import PointsTo.Proofs.Taint.Sources

/-!
Casts to the root class. Without taint tracking a run has objects of no other types than those that
the statements and the call sites of the program make objects of. A cast to the root class lets all
of these pass, except for those of interfaces: an interface has no super class, so that the root
class is above it only if it is named among the super interfaces.
-/
namespace PointsTo

open Relation

/-! ### The objects of a run -/

namespace Configuration

variable {c : Configuration} {s : Solver}

/-- The objects of a program itself, and those that the plugins that are on bring along. -/
def Brings (c : Configuration) (a : AbstractObject) : Prop :=
  a.IsCore ∨ (c.lambda = true ∧ Lambda.Brings a) ∨ (c.rules ≠ none ∧ Taint.Brings a)

/-- The plugins bring along no other objects than their own. -/
theorem makes_dispatch (own : Extensions) (e : Event) :
    Ensures (Analysis.dispatch (.all c.plugins) e) (own, s) fun _ st => s.Makes c.Brings st.2 := by
  apply ensures_dispatch (P := fun _ t => s.Makes c.Brings t) (Q := fun _ t => s.Makes c.Brings t)
  case lambda =>
    intro on
    refine (Lambda.entered_react e _).mono fun _ st entered o a ha => ?_
    exact (entered.makes o a ha).imp_right fun brought => .inr (.inl ⟨on, brought⟩)
  case noLambda => exact fun _ => refl_of (Solver.Makes c.Brings) s
  case taint =>
    intro rules on own' t made
    refine (Taint.entered_react e _).mono fun _ st entered => ?_
    refine trans_of (Solver.Makes c.Brings) made fun o a ha => ?_
    exact (entered.makes o a ha).imp_right fun brought => .inr (.inr ⟨by simp [on], brought⟩)
  case noTaint => exact fun _ _ _ made => made
  case warned => exact fun _ _ _ made => made

/-- All objects of a finished run are of the program, or have been brought along by a plugin that is
on. -/
theorem brings_of_finished {p : Program} (indexed : p.Indexed) (owned : p.toCatalog.Scoped)
    {contexts : ContextTable} {fuel : Nat} {r : Run Extensions}
    (ran : analyze fuel (.all c.plugins) {} (.initial p c.selector contexts) = r)
    (finished : r.verdict = .finished) {o : ObjectId} {a : AbstractObject}
    (ha : r.solver.elements.heap.get? o = some a) : c.Brings a := by
  let J (_ : Extensions) (s : Solver) := ∀ o a, s.elements.heap.get? o = some a → c.Brings a
  have kept {s t : Solver} (held : J {} s) (makes : s.Makes c.Brings t) : J {} t :=
    fun o a ha => (makes o a ha).elim (held o a) id
  have core {s t : Solver} (makes : s.Makes AbstractObject.IsCore t) : s.Makes c.Brings t :=
    fun o a ha => (makes o a ha).imp_right .inl
  refine (runs_and_of_finished (J := J) confines_all indexed owned ?_ ?_ ?_ ?_ ran finished).2.1 o a ha
  · intro contexts
    refine (Solve.makes_reachEntries _).mono fun _ t makes => kept ?_ (core makes)
    exact fun _ _ none => by cases none
  · intro own s e rest _ held _
    exact (makes_dispatch own e).mono fun _ _ makes => kept (s := { s with events := rest }) held makes
  · intro own s _ held
    exact (Solve.makes_step s).mono fun _ _ makes => kept held (core makes)
  · exact fun _ _ _ _ held => held

end Configuration

/-! ### Their types -/

namespace Program

variable {p : Program} {t : TypeId}

/-- The types that a program makes objects of: those that its statements allocate, those that its
dynamic call sites yield, and the classes whose constructors they hand over. -/
inductive Makes (p : Program) : TypeId → Prop
  | allocated {m : MethodId} {d : MethodDecl} {lhs : VarId} {t : TypeId}
    (hd : p.methods[m]? = some d) (mem : .new lhs t ∈ d.body) : p.Makes t
  | yielded {site : CallSiteId} {decl : CallSite} {t : TypeId}
    (hd : p.callSites[site]? = some decl) (yields : decl.Yields t) : p.Makes t
  | constructed {site : CallSiteId} {decl : CallSite} {t : TypeId}
    (hd : p.callSites[site]? = some decl) (constructs : p.Constructs decl t) : p.Makes t

/-- Whether all statements, call sites and methods of a program are about references, as far as
objects are made of their types. -/
def makesReferences (p : Program) : Bool :=
  (p.methods.toList.all fun d => p.isReference d.ref.owner && d.body.toList.all fun
    | .new _ t => p.isReference t
    | _ => true) &&
  p.callSites.toList.all fun decl => decl.target.sub.result.all p.isReference

theorem Makes.isReference (makes : p.Makes t) (all : p.makesReferences = true) :
    p.isReference t = true := by
  rw [makesReferences, Bool.and_eq_true, List.all_eq_true, List.all_eq_true] at all
  obtain ⟨methods, sites⟩ := all
  cases makes with
  | allocated hd mem =>
    obtain ⟨-, body⟩ := Bool.and_eq_true_iff.1 (methods _ (Roster.mem_toList_iff.2 ⟨_, hd⟩))
    exact List.all_eq_true.1 body _ (Array.mem_def.1 mem)
  | yielded hd yields =>
    have result := sites _ (Roster.mem_toList_iff.2 ⟨_, hd⟩)
    rwa [yields.result] at result
  | constructed hd constructs =>
    obtain ⟨_, _, m, d, -, -, -, hm, rfl⟩ := constructs
    exact (Bool.and_eq_true_iff.1 (methods d (Roster.mem_toList_iff.2 ⟨m, hm⟩))).1

/-- An object that fits the program and is no tainted value is of a type that the program makes
objects of. -/
theorem Fits.makes {c : Configuration} (plain : c.rules = none) {a : AbstractObject} (fits : p.Fits a)
    (brought : c.Brings a) : p.Makes a.type := by
  obtain ⟨origin, type, container⟩ := a
  cases origin with
  | allocation m i =>
    obtain ⟨-, d, lhs, hd, hs⟩ := fits
    exact .allocated hd (Array.mem_of_getElem? hs)
  | mock description site =>
    have houses : p.Houses description site type container := fits
    obtain joined | ⟨-, made | constructed⟩ | ⟨on, -⟩ := brought
    · obtain ⟨decl, hd, yields⟩ := houses.joined joined
      exact .yielded hd yields
    · obtain ⟨m, d, decl, -, -, -, hd, yields⟩ := houses.made (eq_of_beq made)
      exact .yielded hd yields
    · obtain ⟨decl, hd, constructs⟩ := houses.constructed (eq_of_beq constructed)
      exact .constructed hd constructs
    · exact absurd plain on

/-! ### The root class -/

/-- The root class of a program: it is declared under its name, and every class has it in its chain
of super classes. -/
structure Rooted (p : Program) (root : TypeId) : Prop where
  named : p.type? rootClass = some root
  declared : ∃ shape, p.shape? root = some shape
  classes : ∀ t shape, p.shape? t = some shape → shape.isInterface = false → p.Inherits t root

/-- An interface that does not lead to the root class. -/
def Severed (p : Program) (root t : TypeId) : Prop :=
  p.isInterface t = true ∧ ¬ ReflTransGen p.Extends t root

/-- Every reference can be assigned to the root class, except for those to interfaces that do not
lead to it. -/
theorem Rooted.isSubtype {b : Builder} (built : b.build = .ok p) {root : TypeId} (h : p.Rooted root)
    (reference : p.isReference t = true) (joined : ¬ p.Severed root t) :
    p.isSubtype t root = true := by
  obtain ⟨shape, declared⟩ := h.declared
  obtain ⟨name, hroot⟩ := Catalog.types_of_shape? declared
  obtain rfl : name = rootClass := by
    obtain ⟨decl, hdecl, same⟩ := Table.find?_eq_some_iff.1 h.named
    cases hroot.symm.trans hdecl
    exact same
  cases ht : p.types[t]? with
  | none =>
    simp [Catalog.isReference, ht] at reference
  | some decl =>
    obtain ⟨name, form⟩ := decl
    cases form with
    | primitive => simp [Catalog.isReference, ht] at reference
    | null => simp [Program.isSubtype, isSubtypeWithin, ht, hroot, Catalog.isReference]
    | array elem => simp [Program.isSubtype, isSubtypeWithin, ht, hroot, isArraySupertype]
    | nominal shape' =>
      have ht' : p.shape? t = some shape' := by rw [Catalog.shape?, ht]
      refine (isSubtype_iff built ht' declared).2 ?_
      by_cases interface' : shape'.isInterface = true
      · by_contra apart
        exact joined ⟨by simp [Catalog.isInterface, ht', interface'], apart⟩
      · exact (h.classes t shape' ht' (by simpa using interface')).above

end Program

/-! ### Casts -/

/-- A cast to the root class keeps everything that is not of an interface. When a run without taint
tracking ends without a fault, with or without function values and for whatever selector, then the
objects of a variable that is cast to the root class in a reached method become objects of the
variable on the left, except for those of interfaces that do not lead to the root class. -/
theorem Configuration.casts_to_root_keep {ds : List Declaration} {p : Program}
    (built : (Builder.ofDeclarations ds).build = .ok p) {root : TypeId} (rooted : p.Rooted root)
    (references : ∀ t, p.Makes t → p.isReference t = true)
    {c : Configuration} (plain : c.rules = none) {contexts : ContextTable} {fuel : Nat}
    {r : Run Extensions}
    (ran : analyze fuel (.all c.plugins) {} (.initial p c.selector contexts) = r)
    (finished : r.verdict = .finished) {σ : Situation} {m : MethodId} {d : MethodDecl}
    {lhs rhs : VarId} (reached : r.solver.facts.reached σ m) (hd : p.methods[m]? = some d)
    (cast : .cast lhs rhs root ∈ d.body) {v : Value}
    (points : r.solver.facts.points (.var σ rhs) v) (joined : ¬ p.Severed root v.object.type) :
    r.solver.facts.points (.var σ lhs) v := by
  have indexed := Program.indexed_of_build built
  have owned := Program.scoped_of_build built
  obtain ⟨runs, quiet, -⟩ := runs_of_finished confines_all indexed owned ran finished
  -- the type of the object
  have makes : p.Makes v.object.type := by
    obtain ⟨o, ho⟩ := Solver.exists_object_of_points points
    have fits := runs.sound.fits o v.object ho
    rw [runs.program] at fits
    exact fits.makes plain (brings_of_finished indexed owned ran finished ho)
  have passes : p.isSubtype v.object.type root = true :=
    rooted.isSubtype built (references _ makes) joined
  -- the flow that the cast has put in
  obtain ⟨cm, called, hcm⟩ := reached
  obtain ⟨i, hi⟩ := Array.getElem?_of_mem cast
  have entered := runs.entered cm called σ m hcm
  rw [runs.program] at entered
  exact runs.carries_of_flows quiet (entered d hd i _ hi) v points passes

namespace Examples

/-- A program with an array of an interface, a function value of the interface, and an object that
the function value makes, each of which is cast to the root class. -/
def making : List Declaration :=
  [.type "java.lang.Object" (.nominal ⟨none, [], false, false⟩),
   .type "Maker" (.nominal ⟨none, [], true, true⟩),
   .type "Circle" (.nominal ⟨some ⟨0⟩, [], false, false⟩),
   .array ⟨1⟩,
   .method ⟨⟨1⟩, "make", [], some ⟨0⟩⟩ false true,
   .method ⟨⟨2⟩, "<init>", [], none⟩ false false,
   .method ⟨⟨2⟩, "main", [], none⟩ true false,
   .var ⟨2⟩ "makers" ⟨3⟩, .var ⟨2⟩ "maker" ⟨1⟩, .var ⟨2⟩ "made" ⟨0⟩, .var ⟨2⟩ "all" ⟨0⟩,
   .statement ⟨2⟩ (.new ⟨2⟩ ⟨3⟩) (by simp),
   .dynamicCall ⟨2⟩ ⟨.lambda, some ⟨.newInvokeSpecial, ⟨2⟩, "<init>", [], none⟩⟩ "make"
     (some ⟨1⟩) [] (some ⟨3⟩),
   .call ⟨2⟩ .interface ⟨⟨1⟩, "make", [], some ⟨0⟩⟩ (some ⟨3⟩) [] (some ⟨4⟩),
   .statement ⟨2⟩ (.cast ⟨5⟩ ⟨2⟩ ⟨0⟩) (by simp),
   .statement ⟨2⟩ (.cast ⟨5⟩ ⟨3⟩ ⟨0⟩) (by simp),
   .statement ⟨2⟩ (.cast ⟨5⟩ ⟨4⟩ ⟨0⟩) (by simp),
   .entry ⟨2⟩]

def makingProgram : Program := .ofDeclarations making

def casting : Configuration := ⟨.object 1, true, none⟩

def castRun : Run Extensions :=
  analyze 100 (.all casting.plugins) {} (.initial makingProgram casting.selector default)

theorem castRun_eq : analyze 100 (.all casting.plugins) {}
    (.initial makingProgram casting.selector default) = castRun := rfl

/-- The method with the casts. -/
def castingMain : MethodDecl :=
  ⟨⟨⟨2⟩, "main", [], none⟩, true, false, none, [], [],
    #[.new ⟨2⟩ ⟨3⟩, .invoke ⟨0⟩, .invoke ⟨1⟩, .cast ⟨5⟩ ⟨2⟩ ⟨0⟩, .cast ⟨5⟩ ⟨3⟩ ⟨0⟩,
      .cast ⟨5⟩ ⟨4⟩ ⟨0⟩]⟩

theorem built_making : (Builder.ofDeclarations making).build = .ok makingProgram :=
  Program.build_ofDeclarations (by decide +kernel)

theorem rooted_making : makingProgram.Rooted ⟨0⟩ where
  named := by decide +kernel
  declared := ⟨⟨none, [], false, false⟩, by decide +kernel⟩
  classes t shape ht class' := by
    have all : ∀ t ∈ makingProgram.types.ids, (makingProgram.shape? t).isSome →
        makingProgram.isInterface t = false →
          t = ⟨0⟩ ∨ makingProgram.superclass? t = some ⟨0⟩ := by decide +kernel
    obtain ⟨name, known⟩ := Catalog.types_of_shape? ht
    obtain rfl | step := all t (Table.mem_ids.2 ⟨_, known⟩) (by rw [ht]; rfl)
      (by rw [Catalog.isInterface, ht]; exact class')
    · exact .refl
    · exact .single step

theorem references_making {t : TypeId} (makes : makingProgram.Makes t) :
    makingProgram.isReference t = true :=
  makes.isReference (by decide +kernel)

end Examples

open Examples in
/-- The array and the object that the function value makes are kept. -/
theorem Configuration.casts_to_root_keep_made : castRun.verdict = .finished ∧
    castRun.solver.facts.points (.var [] ⟨5⟩) ⟨[], .allocation ⟨2⟩ 0, ⟨3⟩, some ⟨2⟩⟩ ∧
    castRun.solver.facts.points (.var [] ⟨5⟩)
      ⟨[], .mock Lambda.constructedObject ⟨0⟩, ⟨2⟩, some ⟨2⟩⟩ := by
  obtain ⟨finished, reached, array, made⟩ : castRun.verdict = .finished ∧
      castRun.solver.facts.reached [] ⟨2⟩ ∧
      castRun.solver.facts.points (.var [] ⟨2⟩) ⟨[], .allocation ⟨2⟩ 0, ⟨3⟩, some ⟨2⟩⟩ ∧
      castRun.solver.facts.points (.var [] ⟨4⟩)
        ⟨[], .mock Lambda.constructedObject ⟨0⟩, ⟨2⟩, some ⟨2⟩⟩ := by decide +kernel
  obtain ⟨hd, noArray, noClass⟩ : makingProgram.methods[(⟨2⟩ : MethodId)]? = some castingMain ∧
      makingProgram.isInterface ⟨3⟩ = false ∧ makingProgram.isInterface ⟨2⟩ = false := by
    decide +kernel
  have keeps {rhs : VarId} (cast : .cast ⟨5⟩ rhs ⟨0⟩ ∈ castingMain.body) {v : Value}
      (points : castRun.solver.facts.points (.var [] rhs) v)
      (noInterface : makingProgram.isInterface v.object.type = false) :
      castRun.solver.facts.points (.var [] ⟨5⟩) v :=
    casts_to_root_keep built_making rooted_making (fun _ => references_making) rfl castRun_eq
      finished reached hd cast points fun severed => by
        rw [severed.1] at noInterface
        cases noInterface
  refine ⟨finished, keeps ?_ array noArray, keeps ?_ made noClass⟩
  · simp [castingMain]
  · simp [castingMain]

open Examples in
/-- The function value itself is lost. -/
theorem Configuration.casts_to_root_lose_function_value : makingProgram.Rooted ⟨0⟩ ∧
    (∀ t, makingProgram.Makes t → makingProgram.isReference t = true) ∧
    castRun.verdict = .finished ∧ castRun.solver.facts.reached [] ⟨2⟩ ∧
    makingProgram.methods[(⟨2⟩ : MethodId)]? = some castingMain ∧
    .cast ⟨5⟩ ⟨3⟩ ⟨0⟩ ∈ castingMain.body ∧
    castRun.solver.facts.points (.var [] ⟨3⟩) (Lambda.valueIn [] ⟨2⟩ ⟨0⟩ ⟨1⟩) ∧
    ¬ castRun.solver.facts.points (.var [] ⟨5⟩) (Lambda.valueIn [] ⟨2⟩ ⟨0⟩ ⟨1⟩) := by
  refine ⟨rooted_making, fun _ => references_making, ?_⟩
  decide +kernel

end PointsTo
