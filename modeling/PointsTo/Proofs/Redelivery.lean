import PointsTo.Proofs.Calls.Roots

/-!
Facts that are delivered more than once. What a state knows only grows, whatever is done to it, and a
fact that is there already is taken note of without a trace: at most the form changes in which a set is
kept.
-/
namespace PointsTo

open Facts Relation

/-- The entry points that add objects and flows. -/
inductive Mutation
  /-- An abstract object, in its context, for a variable in a context. -/
  | objectIn (context : ContextId) (v : VarId) (heapContext : ContextId) (o : ObjectId)
  | varObject (v : ContextVarId) (o : ContextObjectId)
  | object (p : Pointer) (o : ContextObjectId)
  | objectsIn (context : ContextId) (v : VarId) (objects : Objects)
  | flow (source target : Pointer) (kind : FlowKind)
  /-- A flow between two variables, each in its context. -/
  | varFlow (sourceContext : ContextId) (source : VarId) (targetContext : ContextId)
    (target : VarId) (kind : FlowKind)

def Mutation.perform : Mutation → Solve Unit
  | objectIn context v heapContext o => modify (·.addObjectIn context v heapContext o)
  | varObject v o => modify (·.addVarObject v o)
  | object p o => modify (·.addObject p o)
  | objectsIn context v objects => modify (·.addObjectsIn context v objects)
  | flow source target kind => Solve.addFlow source target kind
  | varFlow sourceContext source targetContext target kind =>
    Solve.addVarFlow sourceContext source targetContext target kind

namespace Solver

variable {s t u : Solver}

/-! ### Growth -/

/-- Nothing that `s` knows is lost in `t`: sets of objects and the flow graph grow, calls and reached
methods are added at the end, and handles mean what they have meant. -/
structure Accrues (s t : Solver) : Prop where
  objects : ∀ p o, o ∈ s.pointsTo p → o ∈ t.pointsTo p
  nodes : s.flows.nodes.Within t.flows.nodes
  flows : s.flows.edges.toList <+: t.flows.edges.toList
  calls : s.calls.edges <+: t.calls.edges
  reached : s.calls.reached.toList <+: t.calls.reached.toList
  elements : s.elements.Within t.elements

instance : IsPreorder Solver Accrues where
  refl _ := ⟨fun _ _ => id, .refl _, List.prefix_rfl, List.prefix_rfl, List.prefix_rfl, .refl _⟩
  trans _ _ _ st tu :=
    { objects := fun p o mem => tu.objects p o (st.objects p o mem)
      nodes := st.nodes.trans tu.nodes
      flows := st.flows.trans tu.flows
      calls := st.calls.trans tu.calls
      reached := st.reached.trans tu.reached
      elements := st.elements.trans tu.elements }

theorem Grows.accrues (h : s.Grows t) : s.Accrues t where
  objects p o mem := by
    obtain ⟨n, hn, mem⟩ := mem_pointsTo_iff.1 mem
    exact mem_pointsTo_iff.2 ⟨n, h.nodes n p hn, h.objects n o mem⟩
  nodes := h.nodes
  flows := h.edges.isPrefix
  calls := h.recorded.isPrefix.map Call.edge
  reached := h.reached.isPrefix
  elements := h.elements

/-- A flow between two pointers. -/
def HasFlow (s : Solver) (p q : Pointer) (kind : FlowKind) : Prop :=
  ∃ n m, s.flows.node? p = some n ∧ s.flows.node? q = some m ∧ s.flows.Has ⟨n, m, kind⟩

namespace Accrues

variable (h : s.Accrues t)
include h

theorem objectsIn {context : ContextId} {v : VarId} {o : ContextObjectId}
    (mem : o ∈ s.objectsIn context v) : o ∈ t.objectsIn context v := by
  obtain ⟨x, found, mem⟩ := mem_objectsIn_iff.1 mem
  exact mem_objectsIn_iff.2 ⟨x, h.elements.vars.find? found, h.objects _ o mem⟩

theorem hasFlow {p q : Pointer} {kind : FlowKind} (flow : s.HasFlow p q kind) :
    t.HasFlow p q kind := by
  obtain ⟨n, m, hn, hm, has⟩ := flow
  refine ⟨n, m, h.nodes.find? hn, h.nodes.find? hm, ?_⟩
  exact Table.mem_toList_iff.1 (h.flows.subset (Table.mem_toList_iff.2 has))

end Accrues

/-! ### What leaves no trace -/

/-- The states are the same but for the form in which sets of objects are kept. -/
structure Agrees (s t : Solver) : Prop where
  rest : t = { s with points := t.points }
  pending : ∀ n o, o ∈ t.points.pendingOf n ↔ o ∈ s.points.pendingOf n
  propagated : ∀ n o, o ∈ t.points.propagatedOf n ↔ o ∈ s.points.propagatedOf n

namespace Agrees

theorem refl (s : Solver) : s.Agrees s := ⟨rfl, fun _ _ => .rfl, fun _ _ => .rfl⟩

/-- Every pointer points to the same objects. -/
theorem mem_pointsTo (h : s.Agrees t) {p : Pointer} {o : ContextObjectId} :
    o ∈ t.pointsTo p ↔ o ∈ s.pointsTo p := by
  rw [mem_pointsTo_iff, mem_pointsTo_iff, h.rest]
  simp only [PendingStore.mem_all, h.pending, h.propagated]

end Agrees

/-- Objects that a node has are added to it without a trace. -/
theorem agrees_addToNode {n : NodeId} {o : ContextObjectId} (known : o ∈ s.points.all n) :
    s.Agrees (s.addToNode n o) := by
  have still : (s.points.add n o).1 = false := by
    rw [← Bool.not_eq_true, PendingStore.add_fst, not_not]
    exact known
  rw [addToNode_eq, still]
  constructor
  case rest => rfl
  case pending =>
    intro m o'
    apply PendingStore.mem_pendingOf_add.trans (or_iff_left_of_imp _)
    rintro ⟨rfl, rfl, new⟩
    exact (PendingStore.mem_all.1 known).resolve_right new
  case propagated =>
    intro m o'
    exact iff_of_eq (congrArg (o' ∈ ·) PendingStore.propagatedOf_add)

theorem agrees_uniteInto {n : NodeId} {objects : Objects}
    (known : ∀ o ∈ objects, o ∈ s.points.all n) : s.Agrees (s.uniteInto n objects) := by
  have still : (s.points.union n objects).1 = false := by
    rw [← Bool.not_eq_true, PendingStore.union_fst]
    rintro ⟨o, mem, new⟩
    exact new (known o mem)
  rw [uniteInto_eq, still]
  constructor
  case rest => rfl
  case pending =>
    intro m o
    apply PendingStore.mem_pendingOf_union.trans (or_iff_left_of_imp _)
    rintro ⟨rfl, mem, new⟩
    exact (PendingStore.mem_all.1 (known o mem)).resolve_right new
  case propagated =>
    intro m o
    exact iff_of_eq (congrArg (o ∈ ·) PendingStore.propagatedOf_union)

/-! ### Handles that exist -/

theorem internVar_of_find? {context : ContextId} {v : VarId} {x : ContextVarId}
    (found : s.elements.vars.find? context v = some x) : s.internVar context v = (x, s) := by
  simp [internVar, withElements, Elements.internVar, CopyTable.intern_of_find? found]

theorem internObject_of_find? {context : ContextId} {o : ObjectId} {x : ContextObjectId}
    (found : s.elements.objects.find? context o = some x) : s.internObject context o = (x, s) := by
  simp [internObject, withElements, Elements.internObject, CopyTable.intern_of_find? found]

theorem internMethod_of_find? {context : ContextId} {m : MethodId} {x : ContextMethodId}
    (found : s.elements.methods.find? context m = some x) : s.internMethod context m = (x, s) := by
  simp [internMethod, withElements, Elements.internMethod, CopyTable.intern_of_find? found]

theorem internNode_of_node? {p : Pointer} {n : NodeId} (found : s.flows.node? p = some n) :
    s.internNode p = (n, s) := by
  have again : s.flows.nodes.intern p = (n, s.flows.nodes) := Table.intern_of_find? found
  simp [internNode, FlowGraph.internNode, again]

theorem find?_internVar {context : ContextId} {v : VarId} :
    (s.internVar context v).2.elements.vars.find? context v = some (s.internVar context v).1 :=
  Table.find?_of_get? CopyTable.get?_intern

theorem node?_internNode {p : Pointer} :
    (s.internNode p).2.flows.node? p = some (s.internNode p).1 :=
  FlowGraph.node?_eq_some_iff.2 FlowGraph.pointer?_internNode

/-! ### Objects that are there -/

theorem agrees_addObject {p : Pointer} {o : ContextObjectId} (known : o ∈ s.pointsTo p) :
    s.Agrees (s.addObject p o) := by
  obtain ⟨n, hn, mem⟩ := mem_pointsTo_iff.1 known
  rw [addObject, internNode_of_node? (FlowGraph.node?_eq_some_iff.2 hn)]
  exact agrees_addToNode mem

theorem agrees_addObjectIn {context heapContext : ContextId} {v : VarId} {o : ObjectId}
    {x : ContextObjectId} (found : s.elements.objects.find? heapContext o = some x)
    (known : x ∈ s.objectsIn context v) : s.Agrees (s.addObjectIn context v heapContext o) := by
  obtain ⟨copy, var, known⟩ := mem_objectsIn_iff.1 known
  simp only [addObjectIn, internVar_of_find? var, internObject_of_find? found]
  exact agrees_addObject known

/-- Any of the objects that a variable has are added to it without a trace. -/
theorem agrees_addObjectsIn {context : ContextId} {v : VarId} {objects : Objects}
    (known : ∀ o ∈ objects, o ∈ s.objectsIn context v) :
    s.Agrees (s.addObjectsIn context v objects) := by
  unfold addObjectsIn
  split
  next => exact .refl s
  next filled =>
    rw [HybridSet.isEmpty_iff] at filled
    push Not at filled
    obtain ⟨o, mem⟩ := filled
    obtain ⟨copy, var, points⟩ := mem_objectsIn_iff.1 (known o mem)
    obtain ⟨n, hn, -⟩ := mem_pointsTo_iff.1 points
    simp only [internVar_of_find? var, internNode_of_node? (FlowGraph.node?_eq_some_iff.2 hn)]
    apply agrees_uniteInto
    intro o mem
    obtain ⟨copy', var', points⟩ := mem_objectsIn_iff.1 (known o mem)
    cases var.symm.trans var'
    obtain ⟨n', hn', points⟩ := mem_pointsTo_iff.1 points
    -- a pointer has one node
    have node := FlowGraph.node?_eq_some_iff.2 hn
    cases node.symm.trans (FlowGraph.node?_eq_some_iff.2 hn')
    exact points

theorem flows_addToNode {n : NodeId} {o : ContextObjectId} : (s.addToNode n o).flows = s.flows := by
  rw [addToNode_eq, scheduleIf_eq]

theorem flows_uniteInto {n : NodeId} {objects : Objects} :
    (s.uniteInto n objects).flows = s.flows := by
  rw [uniteInto_eq, scheduleIf_eq]

theorem mem_addObject {p : Pointer} {o : ContextObjectId} : o ∈ (s.addObject p o).pointsTo p := by
  have added : o ∈ (s.addObject p o).points.all (s.internNode p).1 :=
    mem_addToNode.2 (.inr ⟨rfl, rfl⟩)
  have flows : (s.addObject p o).flows = (s.internNode p).2.flows := flows_addToNode
  rw [mem_pointsTo_iff, flows]
  exact ⟨_, FlowGraph.pointer?_internNode, added⟩

end Solver

namespace Solve

open Solver

variable {s t : Solver} {p q : Pointer} {kind : FlowKind}

/-! ### Flows that are there -/

theorem change_run {α : Type} (f : Solver → α × Solver) (s : Solver) :
    change f s = (.ok (f s).1, (f s).2) := rfl

theorem get_run (s : Solver) : (get : Solve Solver) s = (.ok s, s) := rfl

theorem set_run (s t : Solver) : (set t : Solve PUnit) s = (.ok ⟨⟩, t) := rfl

/-- A flow that is there is added without a trace. -/
theorem addFlow_of_hasFlow (h : s.HasFlow p q kind) : addFlow p q kind s = (.ok ⟨⟩, s) := by
  obtain ⟨n, m, hn, hm, has⟩ := h
  obtain ⟨-, same⟩ | ⟨new, -⟩ := s.flows.add_cases ⟨n, m, kind⟩
  · simp only [addFlow, Ensures.bind_run, change_run, internNode_of_node? hn,
      internNode_of_node? hm, same]
    rfl
  · exact absurd has new

theorem hasFlow_addFlow (p q : Pointer) (kind : FlowKind) (s : Solver) :
    Ensures (addFlow p q kind) s fun _ t => t.HasFlow p q kind := by
  refine .bind ensures_change ?_
  rintro n t ⟨rfl, rfl⟩
  have source := s.node?_internNode (p := p)
  generalize (s.internNode p).1 = n at source ⊢
  generalize (s.internNode p).2 = t at source ⊢
  refine .bind ensures_change ?_
  rintro m u ⟨rfl, rfl⟩
  have target := t.node?_internNode (p := q)
  have source : (t.internNode q).2.flows.node? p = some n :=
    (extends_internNode (s := t) (p := q)).nodes.find? source
  generalize (t.internNode q).1 = m at target ⊢
  generalize (t.internNode q).2 = u at source target ⊢
  refine .bind ensures_change ?_
  rintro fresh v ⟨-, rfl⟩
  have added : HasFlow { u with flows := (u.flows.add ⟨n, m, kind⟩).2 } p q kind := by
    refine ⟨n, m, ?_, ?_, FlowGraph.has_add.2 (.inr rfl)⟩
    · rwa [FlowGraph.node?, FlowGraph.nodes_add]
    · rwa [FlowGraph.node?, FlowGraph.nodes_add]
  split
  · refine .bind ensures_get ?_
    rintro _ _ ⟨rfl, rfl⟩
    refine extends_propagate.mono ?_
    rintro _ w ⟨-, extended, -⟩
    exact extended.toGrows.accrues.hasFlow added
  · exact .pure added

theorem propagate_run {n : NodeId} {objects : Objects}
    (decides : ∀ o ∈ objects, s.decides kind o = true) :
    propagate n kind objects s = (.ok ⟨⟩, s.uniteInto n (s.passing kind objects)) := by
  have all : objects.toList.all (s.decides kind) = true :=
    List.all_eq_true.2 fun o mem => decides o (HybridSet.mem_toList.1 mem)
  simp only [propagate, Ensures.bind_run, get_run, all, if_true]
  rfl

/-- Flows can be added, unless a cast has to pass on objects whose types are not known. -/
theorem exists_addFlow (decides : ∀ n, ∀ o ∈ s.points.propagatedOf n, s.decides kind o = true)
    (p q : Pointer) : ∃ t, addFlow p q kind s = (.ok ⟨⟩, t) := by
  simp only [addFlow, Ensures.bind_run, change_run]
  split
  · simp only [Ensures.bind_run, get_run]
    exact ⟨_, propagate_run (decides _)⟩
  · exact ⟨_, rfl⟩

end Solve

namespace Mutation

open Solver

variable {s t : Solver} {m : Mutation}

/-! ### Mutations -/

/-- Whatever the mutation adds is there. -/
def Holds (s : Solver) : Mutation → Prop
  | objectIn context v heapContext o =>
    ∃ x, s.elements.objects.find? heapContext o = some x ∧ x ∈ s.objectsIn context v
  | varObject v o => o ∈ s.varObjects v
  | object p o => o ∈ s.pointsTo p
  | objectsIn context v objects => ∀ o ∈ objects, o ∈ s.objectsIn context v
  | flow source target kind => s.HasFlow source target kind
  | varFlow sourceContext source targetContext target kind =>
    ∃ x y, s.elements.vars.find? sourceContext source = some x ∧
      s.elements.vars.find? targetContext target = some y ∧ s.HasFlow (.var x) (.var y) kind

/-- No cast has to pass on objects whose types are not known. -/
def Decides (s : Solver) : Mutation → Prop
  | flow _ _ kind | varFlow _ _ _ _ kind =>
    ∀ n, ∀ o ∈ s.points.propagatedOf n, s.decides kind o = true
  | _ => True

theorem Holds.mono (h : m.Holds s) (st : s.Accrues t) : m.Holds t := by
  cases m with
  | objectIn =>
    obtain ⟨x, found, mem⟩ := h
    exact ⟨x, st.elements.objects.find? found, st.objectsIn mem⟩
  | varObject => exact st.objects _ _ h
  | object => exact st.objects _ _ h
  | objectsIn => exact fun o mem => st.objectsIn (h o mem)
  | flow => exact st.hasFlow h
  | varFlow =>
    obtain ⟨x, y, hx, hy, flow⟩ := h
    exact ⟨x, y, st.elements.vars.find? hx, st.elements.vars.find? hy, st.hasFlow flow⟩

theorem entered_perform (m : Mutation) : Relates Entered m.perform := by
  apply Solve.entered_of_enteredBy (M := fun _ => True)
  cases m with
  | objectIn => exact Solve.entered_addObjectIn _ _ _ _
  | varObject v o => exact Solve.entered_addObjectOf (.var v) o
  | object p o => exact Solve.entered_addObjectOf p o
  | objectsIn => exact Solve.entered_addObjectsIn _ _ _
  | flow => exact Solve.entered_addFlow _ _ _
  | varFlow => exact Solve.entered_addVarFlow _ _ _ _ _

theorem accrues_perform (m : Mutation) : Relates Accrues m.perform :=
  m.entered_perform.mono fun _ _ entered => entered.extends.toGrows.accrues

/-- What has been added is there. -/
theorem holds_perform (m : Mutation) (s : Solver) :
    Ensures m.perform s fun _ t => m.Holds t := by
  cases m with
  | objectIn context v heapContext o =>
    apply Ensures.modify
    let u := ((s.internVar context v).2.internObject heapContext o).2
    have object : u.elements.objects.find? heapContext o =
        some ((s.internVar context v).2.internObject heapContext o).1 :=
      Table.find?_of_get? CopyTable.get?_intern
    have var : u.elements.vars.find? context v = some (s.internVar context v).1 := find?_internVar
    have elements : (s.addObjectIn context v heapContext o).elements = u.elements :=
      rewires_addObject.elements
    refine ⟨_, ?_, mem_objectsIn_iff.2 ⟨_, ?_, mem_addObject⟩⟩
    · rwa [elements]
    · rwa [elements]
  | varObject | object => exact .modify mem_addObject
  | objectsIn context v objects =>
    apply Ensures.modify
    intro o mem
    have filled : ¬ objects.isEmpty = true := fun empty => HybridSet.isEmpty_iff.1 empty o mem
    let u := ((s.internVar context v).2.internNode (.var (s.internVar context v).1)).2
    have added : s.addObjectsIn context v objects = u.uniteInto _ objects := if_neg filled
    have var : u.elements.vars.find? context v = some (s.internVar context v).1 := find?_internVar
    rw [added, mem_objectsIn_iff, rewires_uniteInto.elements]
    refine ⟨_, var, mem_pointsTo_iff.2 ⟨_, ?_, mem_uniteInto.2 (.inr ⟨rfl, mem⟩)⟩⟩
    rw [flows_uniteInto]
    exact FlowGraph.pointer?_internNode
  | flow => exact Solve.hasFlow_addFlow _ _ _ s
  | varFlow sourceContext source targetContext target kind =>
    refine .bind Solve.ensures_change ?_
    rintro x t ⟨rfl, rfl⟩
    refine .bind Solve.ensures_change ?_
    rintro y u ⟨rfl, rfl⟩
    refine ((Solve.hasFlow_addFlow _ _ kind _).and (Solve.rewires_addFlow _ _ kind _)).mono ?_
    rintro _ v ⟨flow, rewired⟩
    refine ⟨_, _, ?_, ?_, flow⟩
    · rw [rewired.elements]
      apply Elements.within_internVar.vars.find?
      exact find?_internVar
    · rw [rewired.elements]
      exact find?_internVar

/-- What is there is added without a trace. -/
theorem perform_of_holds (h : m.Holds s) : ∃ t, m.perform s = (.ok ⟨⟩, t) ∧ s.Agrees t := by
  cases m with
  | objectIn =>
    obtain ⟨x, found, known⟩ := h
    exact ⟨_, rfl, agrees_addObjectIn found known⟩
  | varObject | object => exact ⟨_, rfl, agrees_addObject h⟩
  | objectsIn => exact ⟨_, rfl, agrees_addObjectsIn h⟩
  | flow => exact ⟨s, Solve.addFlow_of_hasFlow h, .refl s⟩
  | varFlow =>
    obtain ⟨x, y, hx, hy, flow⟩ := h
    refine ⟨s, ?_, .refl s⟩
    simp only [perform, Solve.addVarFlow, Ensures.bind_run, Solve.change_run,
      internVar_of_find? hx, internVar_of_find? hy]
    exact Solve.addFlow_of_hasFlow flow

theorem exists_perform (h : m.Decides s) : ∃ t, m.perform s = (.ok ⟨⟩, t) := by
  cases m with
  | objectIn | varObject | object | objectsIn => exact ⟨_, rfl⟩
  | flow p q => exact Solve.exists_addFlow h p q
  | varFlow sourceContext source targetContext target =>
    simp only [perform, Solve.addVarFlow, Ensures.bind_run, Solve.change_run]
    -- handles of variables do not matter to casts
    exact Solve.exists_addFlow (s := ((s.internVar _ _).2.internVar _ _).2) h _ _

end Mutation

namespace Solve

open Solver

variable {s : Solver}

/-! ### Pieces of work -/

theorem accrues_added {caller : ContextMethodId} {edge : CallEdge} {s t : Solver}
    (added : Added caller edge s t) : s.Accrues t := by
  cases added with
  | again => exact refl_of Accrues s
  | first fresh rest _ linked =>
    obtain ⟨old, -⟩ | ⟨-, -, reached, calls, -⟩ := s.calls.add_cases caller edge
    · exact absurd old fresh
    · have recorded : s.Accrues { s with calls := (s.calls.add caller edge).2 } :=
        { refl_of Accrues s with calls := calls.isPrefix.map Call.edge, reached := reached.isPrefix }
      have told := trans_of Contributes (contributes_announce rfl) linked.contributes
      exact trans_of Accrues recorded (rest.trans told.toExtends).toGrows.accrues

theorem accrues_handed {n : NodeId} {s t : Solver} (handed : Handed n s t) : s.Accrues t := by
  have flushed : s.Accrues { s with points := (s.points.flush n).2 } :=
    { refl_of Accrues s with
      objects := fun p o mem => by
        obtain ⟨n, hn, mem⟩ := mem_pointsTo_iff.1 mem
        exact mem_pointsTo_iff.2 ⟨n, hn, PendingStore.mem_all_flush.2 mem⟩ }
  exact trans_of Accrues flushed handed.contributes.1.toGrows.accrues

theorem accrues_step : Relates Accrues step := by
  apply relates_step
  case works => exact fun s t works => works.toGrows.accrues
  case taken => exact fun s _ _ => { refl_of Accrues s with }
  case adds => exact fun _ _ _ _ _ added => accrues_added added
  case hands => exact fun _ _ _ handed => accrues_handed handed

/-- A call that has been recorded is added without a trace. -/
theorem processCallEdge_of_records (h : s.Rooted) {edge : CallEdge}
    (old : ∃ call, s.calls.Records call ∧ call.ends = (edge.site, edge.callee)) :
    processCallEdge edge s = (.ok ⟨⟩, s) := by
  obtain ⟨call, recorded, ends⟩ := id old
  obtain ⟨site, decl, hsite, hdecl, hcaller⟩ := h.encloses call recorded
  obtain ⟨same, -⟩ := Prod.mk.inj ends
  rw [same] at hsite
  have reached : s.calls.isReached call.caller = true :=
    CallGraph.isReached_iff.2 (h.ends call recorded).1
  have around : s.internMethod site.context decl.container = (call.caller, s) :=
    internMethod_of_find? (Table.find?_of_get? hcaller)
  have siteRun : siteAt edge.site s = (.ok site, s) := by
    change known (s.elements.sites.get? edge.site) s = _
    rw [hsite]
    rfl
  have declRun : callSite site.entity s = (.ok decl, s) := by
    change known (s.program.callSites[site.entity]?) s = _
    rw [hdecl]
    rfl
  obtain ⟨-, again⟩ | ⟨new, -⟩ := s.calls.add_cases call.caller edge
  · simp only [processCallEdge, Ensures.bind_run, siteRun, declRun, change_run, around, get_run,
      reached, again, Bool.not_true, Bool.false_eq_true, if_false]
    rfl
  · exact absurd old new

/-- A recorded call that waits in the queue leaves it without a trace. -/
theorem step_of_records (h : s.Rooted) {edge : CallEdge} {rest : Queue CallEdge}
    (next : s.callQueue.pop? = some (edge, rest))
    (old : ∃ call, s.calls.Records call ∧ call.ends = (edge.site, edge.callee)) :
    step s = (.ok true, { s with callQueue := rest }) := by
  have rooted : Rooted { s with callQueue := rest } := h.grow rfl (.refl _) rfl
  have again := processCallEdge_of_records rooted old
  simp only [step, Ensures.bind_run, get_run, next, set_run, again]
  rfl

end Solve

/-- What may be delivered to a state more than once. -/
structure Solver.Steady (s : Solver) : Prop where
  /-- Mutations and pieces of work only add to what is known. -/
  mutates : ∀ (m : Mutation) t, m.perform s = (.ok ⟨⟩, t) → s.Accrues t
  works : ∀ more t, Solve.step s = (.ok more, t) → s.Accrues t
  /-- What a mutation adds is there afterwards. -/
  delivers : ∀ (m : Mutation) t, m.perform s = (.ok ⟨⟩, t) → m.Holds t
  /-- Mutations succeed, unless a cast has to pass on objects whose types are not known. -/
  succeeds : ∀ m : Mutation, m.Decides s → ∃ t, m.perform s = (.ok ⟨⟩, t)
  /-- A mutation that is repeated, at once or whenever more is known, leaves no trace. -/
  repeats : ∀ (m : Mutation) t u, m.perform s = (.ok ⟨⟩, t) → t.Accrues u →
    ∃ v, m.perform u = (.ok ⟨⟩, v) ∧ u.Agrees v
  /-- Objects that a variable has are added to it without a trace. -/
  injects : ∀ context v objects, (∀ o ∈ objects, o ∈ s.objectsIn context v) →
    s.Agrees (s.addObjectsIn context v objects)
  /-- A call between ends that a call connects already only leaves the queue. -/
  recalls : ∀ edge rest, s.callQueue.pop? = some (edge, rest) →
    (∃ e ∈ s.calls.edges, e.site = edge.site ∧ e.callee = edge.callee) →
    Solve.step s = (.ok true, { s with callQueue := rest })

theorem Solver.Rooted.steady {s : Solver} (h : s.Rooted) : s.Steady where
  mutates m t run := m.accrues_perform s _ t run
  works more t run := Solve.accrues_step s more t run
  delivers m t run := m.holds_perform s _ t run
  succeeds _ := Mutation.exists_perform
  repeats m t u run tu := Mutation.perform_of_holds ((m.holds_perform s _ t run).mono tu)
  injects _ _ _ known := agrees_addObjectsIn known
  recalls edge rest next := by
    rintro ⟨e, found, site, callee⟩
    obtain ⟨call, recorded, rfl⟩ := CallGraph.mem_edges.1 found
    exact Solve.step_of_records h next ⟨call, recorded, Prod.ext site callee⟩

open Analysis in
/-- Facts may be delivered again. Take any program, any selector and any plugins that use entry points
only, and any state of the solver that can be seen from outside. Whatever mutation is performed and
whatever piece of work is done, sets of objects and flows grow, calls and reached methods are added at
the end, and handles keep their meaning. What a mutation adds is there afterwards. When it is performed
a second time, at once or later, it changes nothing but the form in which sets are kept: no set, no
flow, no call and no queue. The same is true of any objects that are added to a variable that has them
already, and a call that is recorded already only leaves the queue. -/
theorem redelivery_harmless {σ : Type} {plugins : List (Plugin σ)}
    (guarded : ∀ plugin ∈ plugins, plugin.Public) {p : Program} {sel : Selector}
    {contexts : ContextTable} {own : σ} {s : Solver}
    (shown : Shows (.all plugins) (own, .initial p sel contexts) s) : s.Steady := by
  obtain ⟨-, rooted⟩ := shown.rooted guarded
  exact rooted.steady

namespace Lambda.Examples

/-- The call that a plugin has found. -/
def linkedCall : CallEdge := ⟨⟨0⟩, ⟨1⟩, .extension callTag ⟨1⟩⟩

end Lambda.Examples

open Analysis Lambda.Examples in
/-- The only call of the example, when it is queued again, leaves no trace. -/
theorem redelivery_harmless_linked : linkedCall ∈ linked.solver.calls.edges ∧
    ∃ rest, (linked.solver.queueCall linkedCall).callQueue.pop? = some (linkedCall, rest) ∧
      Solve.step (linked.solver.queueCall linkedCall) =
        (.ok true, { linked.solver.queueCall linkedCall with callQueue := rest }) := by
  obtain ⟨finished, found, next⟩ : linked.verdict = .finished ∧
      linkedCall ∈ linked.solver.calls.edges ∧
      (linked.solver.queueCall linkedCall).callQueue.pop?.map Prod.fst = some linkedCall := by
    decide +kernel
  have shown := shows_entered_of_finished (.all linking.public_plugins) finished
    (.single (.queueCall linked.solver linkedCall))
  have steady := redelivery_harmless linking.public_plugins shown
  generalize linked.solver = s at found next steady ⊢
  obtain ⟨⟨_, rest⟩, next, rfl⟩ := Option.map_eq_some_iff.1 next
  exact ⟨found, rest, next, steady.recalls _ rest next ⟨_, found, rfl, rfl⟩⟩

end PointsTo
