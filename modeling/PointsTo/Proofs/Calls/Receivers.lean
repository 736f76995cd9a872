import PointsTo.Proofs.Leastness
import PointsTo.Proofs.Provenance

/-!
Contexts that follow receivers. Where methods are told apart by the objects or by the types of their
receivers, the context of a dispatched method and the objects of its receiver determine each other: all
other facts may hold as they like, the constraints bind a receiver in the context of the object only.
-/
namespace PointsTo

open Facts

namespace Selector

variable {sel : Selector} {p : Catalog} {k : Nat}

/-- The element by which a context knows a receiver: the object itself, or the class that stands for
it. -/
def receiverElement (sel : Selector) (p : Catalog) (o : ObjectId) (a : AbstractObject) :
    ContextElement :=
  match sel with
  | type _ => .type (p.allocatorType a)
  | _ => .object o

/-- The meaning of the element. -/
def receiverMarker (sel : Selector) (p : Catalog) (a : AbstractObject) : Marker :=
  match sel with
  | type _ => .type (p.allocatorType a)
  | _ => .object a

theorem marker?_receiverElement {e : Elements} {o : ObjectId} {a : AbstractObject}
    (ho : e.heap.get? o = some a) :
    e.marker? (sel.receiverElement p o a) = some (sel.receiverMarker p a) := by
  cases sel <;> simp [receiverElement, receiverMarker, Elements.marker?, ho]

theorem dispatchSituation_eq (follows : sel = .object k ∨ sel = .type k) (c : Situation)
    (site : CallSiteId) (w : Value) :
    sel.dispatchSituation p c site w = (sel.receiverMarker p w.object :: w.context).take k := by
  rcases follows with rfl | rfl <;> rfl

end Selector

/-- The variable is the receiver of the method, and nothing but dispatch binds it: no statement assigns
it, no call leaves its result in it, and no special call names the method. -/
structure Program.BoundByDispatch (p : Program) (m : MethodId) (this : VarId) : Prop where
  receiver : ∃ d, p.methods[m]? = some d ∧ d.receiver = some this
  statements : ∀ s, p.Contains s → s.target? ≠ some this
  results : ∀ (site : CallSiteId) decl, p.callSites[site]? = some decl → decl.result ≠ some this
  special : ∀ (site : CallSiteId) decl, p.callSites[site]? = some decl → decl.kind = .special →
    p.resolve decl.target ≠ some m

namespace Program.BoundByDispatch

variable {p : Program} {m : MethodId} {this : VarId}

instance : Decidable (p.BoundByDispatch m this) :=
  decidable_of_iff ((∃ d ∈ p.methods[m]?, d.receiver = some this) ∧
    (∀ s ∈ p.statements, s.target? ≠ some this) ∧
    ∀ decl ∈ p.callSites.toList, decl.result ≠ some this ∧
      (decl.kind = .special → p.resolve decl.target ≠ some m)) <| by
    constructor
    · rintro ⟨receiver, statements, sites⟩
      have site {i : CallSiteId} {decl : CallSite} (hi : p.callSites[i]? = some decl) :=
        sites decl (Roster.mem_toList_iff.2 ⟨i, hi⟩)
      exact ⟨receiver, fun s contains => statements s (Catalog.mem_statements.2 contains),
        fun _ _ hi => (site hi).1, fun _ _ hi => (site hi).2⟩
    · rintro ⟨receiver, statements, results, special⟩
      refine ⟨receiver, fun s mem => statements s (Catalog.mem_statements.1 mem), ?_⟩
      intro decl mem
      obtain ⟨i, hi⟩ := Roster.mem_toList_iff.1 mem
      exact ⟨results i decl hi, special i decl hi⟩

variable (h : p.BoundByDispatch m this)
include h

theorem owns (owned : p.toCatalog.Scoped) : p.Owns m this := by
  obtain ⟨d, hd, receiver⟩ := h.receiver
  exact (owned.methods m d hd).receiver this receiver

/-- The variable is not a parameter. -/
theorem ne_of_param (owned : p.toCatalog.Scoped) {n : MethodId} {d : MethodDecl}
    (hd : p.methods[n]? = some d) {v : VarId} (param : v ∈ d.params) : v ≠ this := by
  rintro rfl
  obtain ⟨d', hd', receiver⟩ := h.receiver
  have scope := owned.methods n d hd
  cases (h.owns owned).unique (scope.params v param)
  cases hd.symm.trans hd'
  have apart := scope.apart
  rw [receiver, Option.toList_some, List.singleton_append, List.nodup_cons] at apart
  exact apart.1 param

/-- No other method has the receiver. -/
theorem eq_of_receiver (owned : p.toCatalog.Scoped) {n : MethodId} {d : MethodDecl}
    (hd : p.methods[n]? = some d) (receiver : d.receiver = some this) : n = m :=
  ((owned.methods n d hd).receiver this receiver).unique (h.owns owned)

end Program.BoundByDispatch

namespace Solution

variable {sel : Selector} {p : Program} {k : Nat} {m : MethodId} {this : VarId}

/-- All facts but two kinds: the variable points to an object only in the context that the object
determines, and special calls lead to other methods. -/
def received (sel : Selector) (p : Catalog) (k : Nat) (m : MethodId) (this : VarId) : Solution where
  reached _ _ := True
  points P w := ∀ c, P = .var c this → c = (sel.receiverMarker p w.object :: w.context).take k
  calls via _ _ _ n := via = .special → n ≠ m

theorem points_received_of_ne {c : Situation} {v : VarId} {w : Value} (ne : v ≠ this) :
    (received sel p.toCatalog k m this).points (.var c v) w := by
  intro c' same
  cases same
  exact absurd rfl ne

theorem carries_received_of_ne {P : Place} {c : Situation} {v : VarId} {kind : FlowKind}
    (ne : v ≠ this) :
    ((received sel p.toCatalog k m this).reading p).carries P (.var c v) kind :=
  fun _ _ _ => points_received_of_ne ne

theorem carries_received_of_heap {P Q : Place} {kind : FlowKind} (heap : ∀ c v, Q ≠ .var c v) :
    ((received sel p.toCatalog k m this).reading p).carries P Q kind :=
  fun _ _ _ c same => absurd same (heap c this)

variable (h : p.BoundByDispatch m this)
include h

/-- What a statement demands concerns other variables. -/
theorem reached_received {c : Situation} {n : MethodId} {i : Nat} {s : Statement}
    (contains : p.Contains s) :
    ((received sel p.toCatalog k m this).reading p).Reached p sel c n i s := by
  have target (v : VarId) (assigned : s.target? = some v) : v ≠ this :=
    fun same => h.statements s contains (assigned.trans (congrArg some same))
  cases s with
  | new lhs => exact points_received_of_ne (m := m) (target lhs rfl)
  | assign lhs | cast lhs | loadStatic lhs => exact carries_received_of_ne (target lhs rfl)
  | storeStatic => exact carries_received_of_heap fun _ _ => nofun
  | invoke site =>
    intro decl hdecl
    rw [Reading.Site]
    split
    case h_1 => exact fun _ _ => nofun
    case h_2 kind =>
      rintro callee resolved - rfl
      exact h.special site decl hdecl kind resolved
    case h_3 | h_4 => trivial
    case h_5 =>
      intro _ result _ stored _
      apply points_received_of_ne (m := m)
      rintro rfl
      exact h.results site decl hdecl stored
  | loadField | storeField | loadArray | storeArray | ret => trivial

/-- Dispatch binds a receiver in the context that the object determines. -/
theorem object_received (follows : sel = .object k ∨ sel = .type k) {c : Situation} {w : Value}
    {s : Statement} {v : VarId} (contains : p.Contains s) (base : p.base? s = some v) :
    ((received sel p.toCatalog k m this).reading p).Object p sel c w s := by
  have target (v : VarId) (assigned : s.target? = some v) : v ≠ this :=
    fun same => h.statements s contains (assigned.trans (congrArg some same))
  cases s with
  | loadField lhs | loadArray lhs => exact carries_received_of_ne (target lhs rfl)
  | storeField | storeArray => exact carries_received_of_heap fun _ _ => nofun
  | invoke site =>
    intro decl hdecl callee _
    have dispatched : decl.kind.isDispatched = true := by
      by_contra other
      rw [Catalog.base?, hdecl, Option.bind_some, if_neg other] at base
      cases base
    constructor
    · rintro via known rfl
      cases kind : decl.kind <;> rw [kind] at known dispatched <;> cases known
      cases dispatched
    · intro d x _ _ c' same
      cases same
      exact Selector.dispatchSituation_eq follows c site w
  | new | assign | cast | loadStatic | storeStatic | ret => trivial

/-- A call binds no receiver but that of another method. -/
theorem link_received (owned : p.toCatalog.Scoped) {via : Via} {c c' : Situation}
    {site : CallSiteId} {n : MethodId} (other : via = .special → n ≠ m) :
    ((received sel p.toCatalog k m this).reading p).Link p via c site c' n := by
  intro decl d hdecl hd
  refine ⟨?_, ?_, ?_⟩
  · intro pair mem
    exact carries_received_of_ne (h.ne_of_param owned hd (List.of_mem_zip mem).2)
  · intro result stored _ _
    exact carries_received_of_ne fun same => h.results site decl hdecl (stored.trans (same ▸ rfl))
  · intro special _ x _ receiver
    refine carries_received_of_ne ?_
    rintro rfl
    exact other special (h.eq_of_receiver owned hd receiver)

theorem closed_received (owned : p.toCatalog.Scoped) (follows : sel = .object k ∨ sel = .type k) :
    (received sel p.toCatalog k m this).Closed p sel where
  entries _ _ := trivial
  statements _ n _ d hd _ _ hs := reached_received h ⟨n, d, hd, Array.mem_of_getElem? hs⟩
  objects _ n d _ hd _ mem _ base _ _ := object_received h follows ⟨n, d, hd, mem⟩ base
  callees _ _ _ _ _ _ := trivial
  links _ _ _ _ _ other _ := link_received h owned other

end Solution

namespace Solver

variable {s : Solver} {sel : Selector} {k : Nat} {this : VarId}

/-- Wherever a variable points to an object, the context is the one that the object determines: its
element, followed by the context that it was allocated in. -/
def Follows (s : Solver) (sel : Selector) (k : Nat) (this : VarId) : Prop :=
  ∀ context o, o ∈ s.objectsIn context this → ∃ heap object a elements,
    s.elements.objects.get? o = some ⟨heap, object⟩ ∧ s.elements.heap.get? object = some a ∧
    s.elements.contexts.get? heap = some elements ∧
    s.elements.contexts.get? context =
      some ((sel.receiverElement s.catalog object a :: elements).take k)

/-- What a context stands for tells the context. -/
theorem Legible.follows (legible : s.Legible)
    (le : ∀ c w, s.facts.points (.var c this) w →
      c = (sel.receiverMarker s.catalog w.object :: w.context).take k) : s.Follows sel k this := by
  intro context o mem
  obtain ⟨copy, found, mem⟩ := mem_objectsIn_iff.1 mem
  have place : s.elements.vars.get? copy = some ⟨context, this⟩ := Table.get?_of_find? found
  obtain ⟨P, w, hP, hw⟩ := legible.objects _ o mem
  obtain ⟨⟨c, v⟩, hv, rfl⟩ := Option.map_eq_some_iff.1 hP
  obtain ⟨context', place', hc⟩ := Elements.copy?_eq_some_iff.1 hv
  cases place.symm.trans place'
  obtain ⟨object, ho, heap⟩ := Elements.value?_eq_some_iff.1 hw
  obtain ⟨allocated, pair, ha⟩ := Elements.copy?_eq_some_iff.1 ho
  obtain ⟨elements, found, means⟩ := Option.bind_eq_some_iff.1 ha
  obtain ⟨own, found', means'⟩ := Option.bind_eq_some_iff.1 hc
  refine ⟨allocated, object, w.object, elements, pair, heap, found, ?_⟩
  -- both contexts have the meaning that the object determines
  rw [le c w ⟨_, o, hP, hw, mem⟩] at means'
  have pushed : (sel.receiverElement s.catalog object w.object :: elements).mapM
      s.elements.marker? = some (sel.receiverMarker s.catalog w.object :: w.context) := by
    rw [mapM_eq_some_iff]
    exact .cons (Selector.marker?_receiverElement heap) (mapM_eq_some_iff.1 means)
  rw [found', Elements.eq_of_markers means' (Solve.denotes_take pushed)]

end Solver

/-- Objects and types as contexts determine the context of a receiver. Take any program, any depth, and a
run without plugins that ends without a fault, where contexts are told apart by objects or by types. Let
nothing but dispatch bind the receiver of a method: no statement assigns it, no call leaves its result in
it, and no special call names the method. Then the receiver points to an object only in the context that
consists of the object's element, which is the object itself or the class that stands for it, and the
context that the object was allocated in, cut off at the depth. -/
theorem receivers_determine_contexts {σ : Type} {ds : List Declaration} {p : Program}
    (built : (Builder.ofDeclarations ds).build = .ok p) {sel : Selector} {k : Nat}
    (follows : sel = .object k ∨ sel = .type k) {contexts : ContextTable} {own : σ} {fuel : Nat}
    {r : Run σ} (ran : analyze fuel (.all []) own (.initial p sel contexts) = r)
    (finished : r.verdict = .finished) {m : MethodId} {this : VarId}
    (bound : p.BoundByDispatch m this) :
    r.solver.program = p ∧ r.solver.Follows sel k this := by
  subst ran
  have owned := Program.scoped_of_build built
  have supports := (Solution.closed_received bound owned follows).supports_justified owned
  obtain ⟨running, -⟩ :=
    Analysis.running_of_finished supports (Program.indexed_of_build built) finished
  have program := running.program
  refine ⟨program, running.sound.legible.follows fun c w points => ?_⟩
  rw [Solver.catalog, program]
  exact running.sound.facts_le.points _ w points c rfl

namespace Examples

/-- A method makes an object, on which another method is called. -/
def nested : List Declaration :=
  [.type "Object" (.nominal ⟨none, [], false, false⟩),
   .type "A" (.nominal ⟨some ⟨0⟩, [], false, false⟩),
   .type "B" (.nominal ⟨some ⟨0⟩, [], false, false⟩),
   .method ⟨⟨1⟩, "main", [], none⟩ true false,
   .method ⟨⟨1⟩, "make", [], some ⟨2⟩⟩ false false,
   .method ⟨⟨2⟩, "use", [], none⟩ false false,
   .var ⟨1⟩ "made" ⟨2⟩, .var ⟨0⟩ "a" ⟨1⟩, .var ⟨0⟩ "b" ⟨2⟩,
   .plain ⟨1⟩ (.new ⟨2⟩ ⟨2⟩) rfl, .plain ⟨1⟩ (.ret (some ⟨2⟩)) rfl,
   .plain ⟨0⟩ (.new ⟨3⟩ ⟨1⟩) rfl,
   .call ⟨0⟩ .virtual ⟨⟨1⟩, "make", [], some ⟨2⟩⟩ (some ⟨3⟩) [] (some ⟨4⟩),
   .call ⟨0⟩ .virtual ⟨⟨2⟩, "use", [], none⟩ (some ⟨4⟩) [] none,
   .entry ⟨0⟩]

def nestedRun (sel : Selector) : Run Unit :=
  analyze 100 (.all []) () (.initial (.ofDeclarations nested) sel default)

end Examples

open Examples in
/-- The receiver of `use` was allocated by a method of `A`, whose own receiver was, too. -/
theorem receivers_determine_contexts_nested :
    (nestedRun (.type 2)).verdict = .finished ∧
    (nestedRun (.type 2)).solver.elements.contexts.get? ⟨2⟩ = some [.type ⟨1⟩, .type ⟨1⟩] ∧
    ((nestedRun (.type 2)).solver.objectsIn ⟨2⟩ ⟨1⟩).toList = [⟨1⟩] ∧
    (nestedRun (.type 2)).solver.Follows (.type 2) 2 ⟨1⟩ := by
  have built : (Builder.ofDeclarations nested).build = _ :=
    Program.build_ofDeclarations (by decide +kernel)
  obtain ⟨finished, context, points, bound⟩ : (nestedRun (.type 2)).verdict = .finished ∧
      (nestedRun (.type 2)).solver.elements.contexts.get? ⟨2⟩ = some [.type ⟨1⟩, .type ⟨1⟩] ∧
      ((nestedRun (.type 2)).solver.objectsIn ⟨2⟩ ⟨1⟩).toList = [⟨1⟩] ∧
      (Program.ofDeclarations nested).BoundByDispatch ⟨2⟩ ⟨1⟩ := by
    decide +kernel
  have determined := receivers_determine_contexts built (.inr rfl) rfl finished bound
  exact ⟨finished, context, points, determined.2⟩

end PointsTo
