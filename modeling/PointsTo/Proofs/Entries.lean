import PointsTo.Extensions
import PointsTo.Proofs.Relates

/-!
The entry points through which plugins change the state of an analysis. Whatever a plugin does with
them extends the state: it passes no object on, records no call and takes no work away.
-/
namespace PointsTo

open Facts Relation

variable {σ α β : Type}

namespace Solver

/-- A call of an entry point that gives a value. Entry points that do several of these at once are
left out. -/
inductive Entry : Solver → Solver → Prop
  | context (s : Solver) (c : Context) : Entry s (s.withElements (·.internContext c)).2
  | var (s : Solver) (c : ContextId) (v : VarId) : Entry s (s.internVar c v).2
  | object (s : Solver) (c : ContextId) (o : ObjectId) : Entry s (s.internObject c o).2
  | method (s : Solver) (c : ContextId) (m : MethodId) : Entry s (s.internMethod c m).2
  | site (s : Solver) (c : ContextId) (site : CallSiteId) : Entry s (s.internSite c site).2
  | allocation (s : Solver) (m : MethodId) (statement : Nat) (type : TypeId) :
    Entry s (s.allocate m statement type).2
  | mock (s : Solver) (description : String) (site : CallSiteId) (type : TypeId)
    (container : Option MethodId) : Entry s (s.mock description site type container).2
  | addObject (s : Solver) (p : Pointer) (o : ContextObjectId) : Entry s (s.addObject p o)
  | addObjects (s : Solver) (c : ContextId) (v : VarId) (objects : Objects) :
    Entry s (s.addObjectsIn c v objects)
  | addFlow (s t : Solver) (p q : Pointer) (k : FlowKind)
    (run : Solve.addFlow p q k s = (.ok ⟨⟩, t)) : Entry s t
  | queueCall (s : Solver) (edge : CallEdge) : Entry s (s.queueCall edge)
  | store (s : Solver) (key : String) (finding : Finding) : Entry s (s.store key finding)
  | warn (s : Solver) (text : String) : Entry s (s.warn text)

/-- What becomes of a state by calls of entry points. -/
abbrev Entered : Solver → Solver → Prop := ReflTransGen Entry

/-- The objects that are made are of the kind `M`. -/
def Makes (M : AbstractObject → Prop) (s t : Solver) : Prop :=
  ∀ o a, t.elements.heap.get? o = some a → s.elements.heap.get? o = some a ∨ M a

/-- What becomes of a state by calls of entry points that make objects of the kind `M` only. -/
abbrev EnteredBy (M : AbstractObject → Prop) : Solver → Solver → Prop :=
  ReflTransGen fun s t => Entry s t ∧ Makes M s t

section Makes

variable {M : AbstractObject → Prop} {s t : Solver}

instance : IsPreorder Solver (Makes M) where
  refl _ _ _ := .inl
  trans _ _ _ st tu o a h := (tu o a h).elim (st o a) .inr

theorem makes_of_same (same : t.elements.heap = s.elements.heap) : Makes M s t :=
  fun o a ha => .inl (by rw [← same]; exact ha)

theorem makes_of_intern {a : AbstractObject} (made : M a)
    (interned : t.elements.heap = (Table.intern s.elements.heap a).2) : Makes M s t := by
  intro o b hb
  rw [interned] at hb
  refine ((Table.intern_spec s.elements.heap a).2.2 o b hb).imp_right ?_
  rintro ⟨-, rfl⟩
  exact made

theorem EnteredBy.entered (h : EnteredBy M s t) : Entered s t :=
  ReflTransGen.mono (fun _ _ => And.left) s t h

theorem EnteredBy.makes (h : EnteredBy M s t) : Makes M s t := by
  induction h with
  | refl => exact refl_of (Makes M) s
  | tail _ step ih => exact trans_of (Makes M) ih step.2

end Makes

/-- A change of the flow graph and of the objects of its nodes only. -/
structure Rewires (s t : Solver) : Prop where
  elements : t.elements = s.elements
  events : t.events = s.events
  reachedMethods : t.reachedMethods = s.reachedMethods

instance : IsPreorder Solver Rewires where
  refl _ := ⟨rfl, rfl, rfl⟩
  trans _ _ _ st tu := ⟨tu.elements.trans st.elements, tu.events.trans st.events,
    tu.reachedMethods.trans st.reachedMethods⟩

variable {s : Solver}

theorem rewires_addToNode {n : NodeId} {o : ContextObjectId} : Rewires s (s.addToNode n o) := by
  rw [addToNode_eq, scheduleIf_eq]
  exact ⟨rfl, rfl, rfl⟩

theorem rewires_uniteInto {n : NodeId} {objects : Objects} : Rewires s (s.uniteInto n objects) := by
  rw [uniteInto_eq, scheduleIf_eq]
  exact ⟨rfl, rfl, rfl⟩

theorem rewires_addObject {p : Pointer} {o : ContextObjectId} : Rewires s (s.addObject p o) :=
  have added : Rewires (s.internNode p).2 (s.addObject p o) := rewires_addToNode
  ⟨added.elements, added.events, added.reachedMethods⟩

end Solver

theorem Solve.rewires_addFlow (p q : Pointer) (k : FlowKind) :
    Relates Solver.Rewires (addFlow p q k) :=
  .bind (.modifyGet fun _ => ⟨rfl, rfl, rfl⟩) fun n => .bind (.modifyGet fun _ => ⟨rfl, rfl, rfl⟩)
    fun m => .bind (.modifyGet fun _ => ⟨rfl, rfl, rfl⟩) fun fresh => by
      have propagated (objects : Objects) : Relates Solver.Rewires (propagate m k objects) :=
        fun s => extends_propagate.mono fun _ t h => h.1 ▸ Solver.rewires_uniteInto
      split
      · exact .bind .get fun _ => propagated _
      · exact .pure

namespace Solve

/-! ### What entry points keep -/

theorem extends_addFlow (p q : Pointer) (k : FlowKind) :
    Relates Solver.Extends (addFlow p q k) := by
  intro s
  refine .bind ensures_change ?_
  rintro n _ ⟨rfl, rfl⟩
  refine .bind ensures_change ?_
  rintro m u ⟨rfl, rfl⟩
  have su := (Solver.extends_internNode (s := s) (p := p)).trans
    (Solver.extends_internNode (p := q))
  refine Ensures.mono ?_ fun _ t ut => su.trans ut
  generalize ((s.internNode p).2.internNode q).2 = u
  generalize (s.internNode p).1 = n
  generalize ((s.internNode p).2.internNode q).1 = m
  refine .bind ensures_change ?_
  rintro fresh _ ⟨rfl, rfl⟩
  obtain ⟨-, eq⟩ | ⟨-, id, edges, -, eq⟩ := u.flows.add_cases ⟨n, m, k⟩
  · simp only [eq]
    exact .pure (.refl u)
  · simp only [eq, Option.isSome_some, if_true]
    refine .bind ensures_get ?_
    rintro _ _ ⟨rfl, rfl⟩
    refine extends_propagate.mono ?_
    rintro _ t ⟨-, extended, carried⟩
    exact extends_of_addEdge (f := ⟨n, m, k⟩) (by rw [eq]; exact extended) carried

end Solve

namespace Solver

variable {s t : Solver}

theorem extends_addObjectsIn {c : ContextId} {v : VarId} {objects : Objects} :
    s.Extends (s.addObjectsIn c v objects) := by
  unfold addObjectsIn
  split
  · exact .refl s
  · exact ((extends_elements Elements.within_internVar).trans extends_internNode).trans
      extends_uniteInto

theorem extends_store {key : String} {finding : Finding} : s.Extends (s.store key finding) :=
  { Extends.refl s with
    fresh := fun _ => .inl
    scheduled := fun h => ⟨h.filed, h.apart, h.waiting⟩
    calls := fun _ => .of_queue }

/-- Entry points only add to a state. -/
theorem Entry.extends (h : Entry s t) : s.Extends t := by
  cases h with
  | context => exact extends_elements Elements.within_internContext
  | var => exact extends_elements Elements.within_internVar
  | object => exact extends_elements Elements.within_internObject
  | method => exact extends_elements Elements.within_internMethod
  | site => exact extends_elements Elements.within_internSite
  | allocation => exact extends_elements Elements.within_allocate
  | mock => exact extends_elements Elements.within_mock
  | addObject => exact extends_internNode.trans extends_addToNode
  | addObjects => exact extends_addObjectsIn
  | addFlow _ p q k run => exact Solve.extends_addFlow p q k s _ _ run
  | queueCall => exact extends_queueCall
  | store => exact extends_store
  | warn => exact extends_warn

theorem Entered.extends (h : Entered s t) : s.Extends t := by
  induction h with
  | refl => exact .refl s
  | tail _ step ih => exact ih.trans step.extends

/-- A change that announces nothing and enters no method. -/
structure Silent (s t : Solver) : Prop where
  events : t.events = s.events
  reachedMethods : t.reachedMethods = s.reachedMethods

instance : IsPreorder Solver Silent where
  refl _ := ⟨rfl, rfl⟩
  trans _ _ _ st tu := ⟨tu.events.trans st.events, tu.reachedMethods.trans st.reachedMethods⟩

theorem Rewires.silent (h : Rewires s t) : Silent s t := ⟨h.events, h.reachedMethods⟩

end Solver

namespace Solver

variable {s t : Solver}

/-- Entry points announce nothing and enter no method. -/
theorem Entry.silent (h : Entry s t) : Silent s t := by
  cases h with
  | addObject p o => exact rewires_addObject.silent
  | addObjects c v objects =>
    unfold addObjectsIn
    split
    · exact refl_of Silent s
    · exact ⟨rewires_uniteInto.events, rewires_uniteInto.reachedMethods⟩
  | addFlow _ p q k run => exact (Solve.rewires_addFlow p q k s _ _ run).silent
  | _ => exact ⟨rfl, rfl⟩

theorem Entered.silent (h : Entered s t) : Silent s t := by
  induction h with
  | refl => exact refl_of Silent s
  | tail _ step ih => exact trans_of Silent ih step.silent

end Solver

/-! ### Computations that are made of entry points -/

namespace Solve

open Solver

variable {M : AbstractObject → Prop}

theorem entered_of_enteredBy {f : Solve α} (h : Relates (EnteredBy M) f) : Relates Entered f :=
  h.mono fun _ _ => EnteredBy.entered

theorem entered_modify {f : Solver → Solver} (h : ∀ s, Entry s (f s))
    (plain : ∀ s, (f s).elements.heap = s.elements.heap) :
    Relates (EnteredBy M) (modify f : Solve PUnit) :=
  .modify fun s => .single ⟨h s, makes_of_same (plain s)⟩

theorem entered_internVar (c : ContextId) (v : VarId) :
    Relates (EnteredBy M) (change (·.internVar c v)) :=
  .modifyGet fun s => .single ⟨.var s c v, makes_of_same rfl⟩

theorem entered_internObject (c : ContextId) (o : ObjectId) :
    Relates (EnteredBy M) (change (·.internObject c o)) :=
  .modifyGet fun s => .single ⟨.object s c o, makes_of_same rfl⟩

theorem entered_internMethod (c : ContextId) (m : MethodId) :
    Relates (EnteredBy M) (change (·.internMethod c m)) :=
  .modifyGet fun s => .single ⟨.method s c m, makes_of_same rfl⟩

theorem entered_internSite (c : ContextId) (site : CallSiteId) :
    Relates (EnteredBy M) (change (·.internSite c site)) :=
  .modifyGet fun s => .single ⟨.site s c site, makes_of_same rfl⟩

theorem entered_allocate (m : MethodId) (statement : Nat) (type : TypeId)
    (made : M ⟨.allocation m statement, type, some m⟩) :
    Relates (EnteredBy M) (change (·.allocate m statement type)) :=
  .modifyGet fun s => .single ⟨.allocation s m statement type, makes_of_intern made rfl⟩

theorem entered_mock (description : String) (site : CallSiteId) (type : TypeId)
    (container : Option MethodId) (made : M ⟨.mock description site, type, container⟩) :
    Relates (EnteredBy M) (change (·.mock description site type container)) :=
  .modifyGet fun s =>
    .single ⟨.mock s description site type container, makes_of_intern made rfl⟩

theorem entered_queueCall (edge : CallEdge) :
    Relates (EnteredBy M) (modify (·.queueCall edge) : Solve PUnit) :=
  entered_modify (fun s => .queueCall s edge) fun _ => rfl

theorem entered_warn (text : String) :
    Relates (EnteredBy M) (modify (·.warn text) : Solve PUnit) :=
  entered_modify (fun s => .warn s text) fun _ => rfl

theorem entered_addObjectOf (p : Pointer) (o : ContextObjectId) :
    Relates (EnteredBy M) (modify (·.addObject p o) : Solve PUnit) :=
  entered_modify (fun s => .addObject s p o) fun _ => by rw [rewires_addObject.elements]

theorem entered_addObjectIn (c : ContextId) (v : VarId) (d : ContextId) (o : ObjectId) :
    Relates (EnteredBy M) (modify (·.addObjectIn c v d o) : Solve PUnit) :=
  .modify fun s => ((ReflTransGen.single ⟨.var s c v, makes_of_same rfl⟩).tail
    ⟨.object _ d o, makes_of_same rfl⟩).tail
      ⟨.addObject _ _ _, makes_of_same (congrArg Elements.heap rewires_addObject.elements)⟩

theorem entered_addObjectsIn (c : ContextId) (v : VarId) (objects : Objects) :
    Relates (EnteredBy M) (modify (·.addObjectsIn c v objects) : Solve PUnit) :=
  entered_modify (fun s => .addObjects s c v objects) fun s => by
    unfold addObjectsIn
    split
    · rfl
    · change (uniteInto _ _ objects).elements.heap = _
      rw [rewires_uniteInto.elements]

theorem entered_addFlow (p q : Pointer) (k : FlowKind) :
    Relates (EnteredBy M) (addFlow p q k) := fun s a t run =>
  .single ⟨.addFlow s t p q k run,
    makes_of_same (by rw [(rewires_addFlow p q k s a t run).elements])⟩

theorem entered_addVarFlow (c : ContextId) (v : VarId) (d : ContextId) (w : VarId)
    (k : FlowKind) : Relates (EnteredBy M) (addVarFlow c v d w k) :=
  .bind (entered_internVar c v) fun _ =>
    .bind (entered_internVar d w) fun _ => entered_addFlow _ _ _

theorem entered_settle (select : Solver → Except Fault Selection) :
    Relates (EnteredBy M) (settle select) := by
  refine .bind .get fun s => .bind (.of_same fun t => ?_) fun selection => ?_
  · exact fun _ u run => show t = u from congrArg Prod.snd run
  · refine .modifyGet fun t => ?_
    cases selection with
    | known id => exact .refl
    | built context => exact .single ⟨.context t context, makes_of_same rfl⟩

theorem entered_bindReceiver (c : ContextId) (callee : MethodId) (o : ContextObjectId) :
    Relates (EnteredBy M) (bindReceiver c callee o) := by
  refine .bind relates_methodDecl fun d => ?_
  split
  · exact .bind (entered_internVar c _) fun _ => entered_addObjectOf _ o
  · exact .pure

end Solve

/-! ### Plugins -/

/-- A reaction that changes the solver by its entry points only. -/
def Reaction.Public (f : Reaction σ α) : Prop := Relates (Alike Solver.Entered) f

theorem Reaction.public_of_enteredBy {M : AbstractObject → Prop} {f : Reaction σ α}
    (h : Relates (Alike (Solver.EnteredBy M)) f) : f.Public :=
  h.mono fun _ _ => Solver.EnteredBy.entered

/-- A plugin that changes the solver by its entry points only. -/
structure Plugin.Public (plugin : Plugin σ) : Prop where
  onStart : plugin.onStart.Public
  onMethod : ∀ m, (plugin.onMethod m).Public
  onContextMethod : ∀ m, (plugin.onContextMethod m).Public
  onCall : ∀ edge, (plugin.onCall edge).Public
  onUnresolved : ∀ receiver c site, (plugin.onUnresolved receiver c site).Public
  onObjects : ∀ x delta, (plugin.onObjects x delta).Public
  onFinish : plugin.onFinish.Public

namespace Plugin.Public

variable {τ : Type}

/-- Plugins that use entry points only do so together. -/
theorem all {plugins : List (Plugin σ)} (h : ∀ p ∈ plugins, p.Public) :
    (Plugin.all plugins).Public where
  onStart := .forM fun p hp => (h p hp).onStart
  onMethod m := .forM fun p hp => (h p hp).onMethod m
  onContextMethod m := .forM fun p hp => (h p hp).onContextMethod m
  onCall edge := .forM fun p hp => (h p hp).onCall edge
  onUnresolved receiver c site := .foldlM fun p hp _ =>
    .bind ((h p hp).onUnresolved receiver c site) fun _ => .pure
  onObjects x delta := .forM fun p hp => (h p hp).onObjects x delta
  onFinish := .forM fun p hp => (h p hp).onFinish

theorem focus {p : Plugin σ} (h : p.Public) {view : τ → σ} {replace : σ → τ → τ} :
    (p.focus view replace).Public where
  onStart := Reaction.relates_focus h.onStart
  onMethod m := Reaction.relates_focus (h.onMethod m)
  onContextMethod m := Reaction.relates_focus (h.onContextMethod m)
  onCall edge := Reaction.relates_focus (h.onCall edge)
  onUnresolved receiver c site := Reaction.relates_focus (h.onUnresolved receiver c site)
  onObjects x delta := Reaction.relates_focus (h.onObjects x delta)
  onFinish := Reaction.relates_focus h.onFinish

end Plugin.Public
end PointsTo
