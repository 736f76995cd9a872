import PointsTo.Proofs.Sharing.Lockstep
import PointsTo.Solver.Step

/-!
Solving in lockstep: no decision of an analysis depends on the number of a context.
-/
namespace PointsTo

variable {W : Bond} {α β : Type}

namespace Solver

namespace Twins

variable {s t : Solver}

theorem elements (h : s.Twins W t) : s.elements.Twins W t.elements := by
  cases h with
  | mk same => exact same

theorem withElements {V : Bond} (h : s.Twins W t) (grown : Subrelation W V)
    {f f' : Elements → α × Elements} (same : (f s.elements).2.Twins V (f' t.elements).2) :
    (s.withElements f).2.Twins V (t.withElements f').2 := by
  cases h with
  | mk _ awaited => exact .mk same (awaited.imp fun _ _ same => same.mono grown)

theorem announce (h : s.Twins W t) {e e' : Event} (same : e.Twins W e') :
    (s.announce e).Twins W (t.announce e') := by
  cases h with
  | mk elements awaited =>
    refine .mk elements ?_
    change List.Forall₂ _ (s.events.push e).toList _
    rw [Queue.toList_push, Queue.toList_push]
    exact List.rel_append awaited (.cons same .nil)

theorem internVar (h : s.Twins W t) {c c' : ContextId} (same : W c c') (v : VarId) :
    (s.internVar c v).1 = (t.internVar c' v).1 ∧ (s.internVar c v).2.Twins W (t.internVar c' v).2 := by
  obtain ⟨id, vars⟩ := h.elements.intern_copy h.elements.vars same v
  exact ⟨id.symm, h.withElements (fun h => h) { h.elements with vars }⟩

theorem internObject (h : s.Twins W t) {c c' : ContextId} (same : W c c') (o : ObjectId) :
    (s.internObject c o).1 = (t.internObject c' o).1 ∧
      (s.internObject c o).2.Twins W (t.internObject c' o).2 := by
  obtain ⟨id, objects⟩ := h.elements.intern_copy h.elements.objects same o
  exact ⟨id.symm, h.withElements (fun h => h) { h.elements with objects }⟩

theorem internMethod (h : s.Twins W t) {c c' : ContextId} (same : W c c') (m : MethodId) :
    (s.internMethod c m).1 = (t.internMethod c' m).1 ∧
      (s.internMethod c m).2.Twins W (t.internMethod c' m).2 := by
  obtain ⟨id, methods⟩ := h.elements.intern_copy h.elements.methods same m
  exact ⟨id.symm, h.withElements (fun h => h) { h.elements with methods }⟩

theorem internSite (h : s.Twins W t) {c c' : ContextId} (same : W c c') (site : CallSiteId) :
    (s.internSite c site).1 = (t.internSite c' site).1 ∧
      (s.internSite c site).2.Twins W (t.internSite c' site).2 := by
  obtain ⟨id, sites⟩ := h.elements.intern_copy h.elements.sites same site
  exact ⟨id.symm, h.withElements (fun h => h) { h.elements with sites }⟩

theorem allocate (h : s.Twins W t) (m : MethodId) (statement : Nat) (type : TypeId) :
    (s.allocate m statement type).1 = (t.allocate m statement type).1 ∧
      (s.allocate m statement type).2.Twins W (t.allocate m statement type).2 := by
  have same : t.elements.heap.allocate m statement type = s.elements.heap.allocate m statement type :=
    by rw [h.elements.heap]
  have id := (congrArg Prod.fst same).symm
  exact ⟨id, h.withElements (fun h => h) { h.elements with heap := congrArg Prod.snd same }⟩

theorem mock (h : s.Twins W t) (description : String) (site : CallSiteId) (type : TypeId)
    (container : Option MethodId) :
    (s.mock description site type container).1 = (t.mock description site type container).1 ∧
      (s.mock description site type container).2.Twins W
        (t.mock description site type container).2 := by
  have same : t.elements.heap.mock description site type container =
      s.elements.heap.mock description site type container := by rw [h.elements.heap]
  have id := (congrArg Prod.fst same).symm
  exact ⟨id, h.withElements (fun h => h) { h.elements with heap := congrArg Prod.snd same }⟩

theorem scheduleIf (h : s.Twins W t) (grew : Bool) (n : NodeId) :
    (s.scheduleIf grew n).Twins W (t.scheduleIf grew n) := by
  cases h with
  | mk same awaited => cases grew <;> exact .mk same awaited

theorem internNode (h : s.Twins W t) (p : Pointer) :
    (s.internNode p).1 = (t.internNode p).1 ∧ (s.internNode p).2.Twins W (t.internNode p).2 := by
  cases h with
  | mk same awaited => exact ⟨rfl, .mk same awaited⟩

theorem addToNode (h : s.Twins W t) (n : NodeId) (o : ContextObjectId) :
    (s.addToNode n o).Twins W (t.addToNode n o) := by
  cases h with
  | mk same awaited =>
    simp only [Solver.addToNode]
    apply scheduleIf
    exact .mk same awaited

theorem uniteInto (h : s.Twins W t) (n : NodeId) (objects : Objects) :
    (s.uniteInto n objects).Twins W (t.uniteInto n objects) := by
  cases h with
  | mk same awaited =>
    simp only [Solver.uniteInto]
    apply scheduleIf
    exact .mk same awaited

theorem addObject (h : s.Twins W t) (p : Pointer) (o : ContextObjectId) :
    (s.addObject p o).Twins W (t.addObject p o) := by
  obtain ⟨node, twins⟩ := h.internNode p
  simp only [Solver.addObject, node]
  exact twins.addToNode _ o

theorem addObjectIn (h : s.Twins W t) {c c' d d' : ContextId} (same : W c c') (same' : W d d')
    (v : VarId) (o : ObjectId) : (s.addObjectIn c v d o).Twins W (t.addObjectIn c' v d' o) := by
  obtain ⟨var, twins⟩ := h.internVar same v
  obtain ⟨object, twins'⟩ := twins.internObject same' o
  simp only [Solver.addObjectIn, var, object]
  exact twins'.addObject _ _

theorem decides_eq (h : s.Twins W t) (kind : FlowKind) (o : ContextObjectId) :
    t.decides kind o = s.decides kind o := by
  cases h with
  | mk same awaited =>
    cases kind with
    | cast type =>
      rw [decides, decides, same.objectType?_eq]
    | _ => rfl

theorem passes_eq (h : s.Twins W t) (kind : FlowKind) (o : ContextObjectId) :
    t.passes kind o = s.passes kind o := by
  cases h with
  | mk same awaited =>
    cases kind with
    | cast type =>
      rw [passes, passes, same.objectType?_eq]
    | _ => rfl

theorem passing_eq (h : s.Twins W t) (kind : FlowKind) (objects : Objects) :
    t.passing kind objects = s.passing kind objects := by
  cases kind with
  | cast type => exact congrArg objects.filter (funext (h.passes_eq (.cast type)))
  | _ => rfl

end Twins
end Solver

/-! ### Selected contexts -/

namespace Selector

variable {e e' : Elements}

theorem sameEnd_known {A : α → β → Prop} {x : Option α} {y : Option β} (same : Option.Rel A x y) :
    SameEnd A (known x) (known y) := by
  cases same with
  | some related => exact .ok related
  | none => exact .error .unknownId

theorem sameEnd_pushed (h : e.Twins W e') (k : Nat) (element : ContextElement)
    {base base' : ContextId} (same : W base base') :
    SameEnd (Selection.Twins W) (pushed e k element base) (pushed e' k element base') := by
  rw [pushed, pushed, h.context_eq same]
  cases Context.extend k element (e.context base) with
  | ok context => exact .ok (.built context)
  | error fault => exact .error fault

theorem sameEnd_calleeContext (h : e.Twins W e') (sel : Selector) (site : ContextSiteId) :
    SameEnd (Selection.Twins W) (sel.calleeContext e site) (sel.calleeContext e' site) := by
  have found := sameEnd_known (h.sites.get? site)
  cases sel with
  | insensitive => exact .ok (.known h.empty)
  | callSite k =>
    apply found.bind
    intro pair pair' same
    rw [same.entity]
    exact sameEnd_pushed h k _ same.context
  | object k | type k =>
    apply found.bind
    intro pair pair' same
    exact .ok (.known same.context)

theorem sameEnd_dispatchContext (h : e.Twins W e') (sel : Selector) (p : Catalog)
    (site : ContextSiteId) (receiver : ContextObjectId) :
    SameEnd (Selection.Twins W) (sel.dispatchContext p e site receiver)
      (sel.dispatchContext p e' site receiver) := by
  have found := sameEnd_known (h.objects.get? receiver)
  cases sel with
  | insensitive => exact sameEnd_calleeContext h .insensitive site
  | callSite k => exact sameEnd_calleeContext h (.callSite k) site
  | object k =>
    apply found.bind
    intro pair pair' same
    rw [same.entity]
    exact sameEnd_pushed h k _ same.context
  | type k =>
    apply found.bind
    intro pair pair' same
    rw [same.entity, h.heap]
    cases (e.heap.get? pair.entity).bind (allocatorType? p) with
    | none => exact .error .unknownId
    | some type => exact sameEnd_pushed h k _ same.context

theorem sameEnd_heapContext (h : e.Twins W e') (sel : Selector) (m : ContextMethodId) :
    SameEnd (Selection.Twins W) (sel.heapContext e m) (sel.heapContext e' m) := by
  unfold heapContext
  split
  · exact .ok (.known h.empty)
  · apply (sameEnd_known (h.methods.get? m)).bind
    intro pair pair' same
    rw [h.context_eq same.context]
    dsimp only
    split
    · exact .ok (.known same.context)
    · exact .ok (.built _)

end Selector

namespace Solve

open Solver

/-! ### Lookups -/

/-- Two states in lockstep that are looked at, and lose nothing by it. -/
theorem lockstep_change {φ ψ : Solver → α × Solver}
    (h : ∀ s t, s.Twins W t → (φ s).1 = (ψ t).1 ∧ (φ s).2.Twins W (ψ t).2) :
    Lockstep Solver.Twins W (change φ) (change ψ) Same :=
  .modifyGet fun s t twins => ⟨W, id, (h s t twins).2, (h s t twins).1⟩

theorem lockstep_known {A : Bond → α → β → Prop} {x : Option α} {y : Option β}
    (same : Option.Rel (A W) x y) : Lockstep Solver.Twins W (known x) (known y) A := by
  cases same with
  | some related => exact .pure related
  | none => exact .throw

theorem lockstep_known_same (x : Option α) :
    Lockstep Solver.Twins W (known x) (known x) Same := by
  cases x with
  | some => exact .pure rfl
  | none => exact .throw

theorem lockstep_catalog : Lockstep Solver.Twins W catalog catalog Same := by
  apply Lockstep.get.bind
  rintro V grown s t ⟨same, awaited⟩
  exact .pure rfl

theorem lockstep_methodDecl (m : MethodId) :
    Lockstep Solver.Twins W (methodDecl m) (methodDecl m) Same :=
  lockstep_catalog.bindSame fun _ _ c => lockstep_known_same c.methods[m]?

theorem lockstep_callSite (site : CallSiteId) :
    Lockstep Solver.Twins W (callSite site) (callSite site) Same :=
  lockstep_catalog.bindSame fun _ _ c => lockstep_known_same c.callSites[site]?

theorem lockstep_siteText (site : CallSiteId) :
    Lockstep Solver.Twins W (siteText site) (siteText site) Same :=
  lockstep_catalog.bindSame fun _ _ c => lockstep_known_same (c.siteText? site)

theorem lockstep_varAt (v : ContextVarId) :
    Lockstep Solver.Twins W (varAt v) (varAt v) InContext.Twins :=
  Lockstep.get.bind fun _ _ _ _ twins => lockstep_known (twins.elements.vars.get? v)

theorem lockstep_methodAt (m : ContextMethodId) :
    Lockstep Solver.Twins W (methodAt m) (methodAt m) InContext.Twins :=
  Lockstep.get.bind fun _ _ _ _ twins => lockstep_known (twins.elements.methods.get? m)

theorem lockstep_siteAt (site : ContextSiteId) :
    Lockstep Solver.Twins W (siteAt site) (siteAt site) InContext.Twins :=
  Lockstep.get.bind fun _ _ _ _ twins => lockstep_known (twins.elements.sites.get? site)

theorem lockstep_objectAt (o : ContextObjectId) :
    Lockstep Solver.Twins W (objectAt o) (objectAt o) Same := by
  apply Lockstep.get.bind
  intro V grown s t twins
  rw [twins.elements.object?_eq o]
  exact lockstep_known_same (s.elements.object? o)

/-! ### Updates -/

/-- A context is selected, and given an id. -/
theorem lockstep_settle {select : Solver → Except Fault Selection}
    (same : ∀ V s t, s.Twins V t → SameEnd (Selection.Twins V) (select s) (select t)) :
    Lockstep Solver.Twins W (settle select) (settle select) fun V => V := by
  apply Lockstep.get.bind
  intro V grown s t twins
  apply (Lockstep.result (A := Selection.Twins) (same V s t twins)).bind
  intro V' grown' choice choice' related
  apply Lockstep.modifyGet
  intro s t twins
  obtain ⟨U, larger, elements, context⟩ := twins.elements.settle related
  exact ⟨U, larger, twins.withElements larger elements, context⟩

theorem lockstep_calleeContext (site : ContextSiteId) :
    Lockstep Solver.Twins W (calleeContext site) (calleeContext site) fun V => V := by
  apply lockstep_settle
  rintro V s t ⟨same, -⟩
  exact Selector.sameEnd_calleeContext same s.selector site

theorem lockstep_dispatchContext (site : ContextSiteId) (receiver : ContextObjectId) :
    Lockstep Solver.Twins W (dispatchContext site receiver) (dispatchContext site receiver)
      fun V => V := by
  apply lockstep_settle
  rintro V s t ⟨same, -⟩
  exact Selector.sameEnd_dispatchContext same s.selector s.catalog site receiver

theorem lockstep_heapContext (m : ContextMethodId) :
    Lockstep Solver.Twins W (heapContext m) (heapContext m) fun V => V := by
  apply lockstep_settle
  rintro V s t ⟨same, -⟩
  exact Selector.sameEnd_heapContext same s.selector m

theorem lockstep_propagate (target : NodeId) (kind : FlowKind) (objects : Objects) :
    Lockstep Solver.Twins W (propagate target kind objects) (propagate target kind objects) Same := by
  apply Lockstep.get.bind
  intro V grown s t twins
  have decides : t.decides kind = s.decides kind := funext fun o => twins.decides_eq kind o
  rw [decides]
  split
  · rw [twins.passing_eq]
    exact .set (twins.uniteInto target _)
  · exact .throw

theorem lockstep_addFlow (source target : Pointer) (kind : FlowKind) :
    Lockstep Solver.Twins W (addFlow source target kind) (addFlow source target kind) Same := by
  apply (lockstep_change fun s t twins => twins.internNode source).bindSame
  intro V grown source
  apply (lockstep_change fun s t twins => twins.internNode target).bindSame
  intro V grown target
  apply Lockstep.bindSame (lockstep_change ?_)
  · intro V grown fresh
    split
    · apply Lockstep.get.bind
      rintro V grown s t ⟨same, awaited⟩
      exact lockstep_propagate target kind _
    · exact .pure rfl
  · rintro s t ⟨same, awaited⟩
    exact ⟨rfl, .mk same awaited⟩

theorem lockstep_addVarFlow {c c' d d' : ContextId} (same : W c c') (same' : W d d')
    (source target : VarId) (kind : FlowKind) :
    Lockstep Solver.Twins W (addVarFlow c source d target kind) (addVarFlow c' source d' target kind)
      Same := by
  apply (lockstep_change fun s t twins => twins.internVar same source).bindSame
  intro V grown source
  apply (lockstep_change fun s t twins => twins.internVar (grown same') target).bindSame
  intro V grown target
  exact lockstep_addFlow (.var source) (.var target) kind

end Solve
end PointsTo
