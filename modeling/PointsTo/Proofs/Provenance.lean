import PointsTo.Proofs.Extensions
import PointsTo.Proofs.Scope

/-!
Where the objects of a variable come from. A variable that nothing assigns but the calls of its method
gets objects along the parameter flows of recorded calls only.
-/
namespace PointsTo

open Facts

/-- The variable that a statement assigns. -/
def Statement.target? : Statement → Option VarId
  | .new lhs _ | .assign lhs _ | .cast lhs _ _ => some lhs
  | .loadField lhs _ _ | .loadArray lhs _ | .loadStatic lhs _ => some lhs
  | .storeField .. | .storeArray .. | .storeStatic .. | .invoke _ | .ret _ => none

/-- Variables that may get objects otherwise than as parameters: what a statement assigns, what stands
at a call, and receivers. -/
inductive Catalog.Assigns (p : Catalog) (v : VarId) : Prop
  | statement (s : Statement) (contains : p.Contains s) (target : s.target? = some v)
  | site (site : CallSiteId) (decl : CallSite) (found : p.callSites[site]? = some decl)
    (mem : v ∈ decl.vars)
  | receiver (m : MethodId) (d : MethodDecl) (found : p.methods[m]? = some d)
    (this : d.receiver = some v)

namespace Solver

variable {s t u : Solver}

/-! ### Nodes and calls -/

/-- A node that stands for a variable in a context. -/
def Stands (s : Solver) (n : NodeId) (var : InContext .var) : Prop :=
  ∃ x, s.flows.pointer? n = some (.var x) ∧ s.elements.vars.get? x = some var

theorem Stands.grows {n : NodeId} {var : InContext .var} (h : s.Stands n var) (g : s.Grows t) :
    t.Stands n var := by
  obtain ⟨x, hp, hx⟩ := h
  exact ⟨x, g.nodes n _ hp, g.elements.vars x _ hx⟩

/-- A node that may get objects otherwise than as a parameter. -/
def Ordinary (s : Solver) (n : NodeId) : Prop :=
  ∃ q, s.flows.pointer? n = some q ∧ ∀ x, q = .var x →
    ∃ var, s.elements.vars.get? x = some var ∧ s.program.Assigns var.entity

theorem Ordinary.grows {n : NodeId} (h : s.Ordinary n) (g : s.Grows t) : t.Ordinary n := by
  obtain ⟨q, hq, vars⟩ := h
  refine ⟨q, g.nodes n q hq, fun x hx => ?_⟩
  obtain ⟨var, hvar, assigns⟩ := vars x hx
  exact ⟨var, g.elements.vars x var hvar, by rw [g.program]; exact assigns⟩

theorem Stands.ordinary {n : NodeId} {var : InContext .var} (h : s.Stands n var)
    (assigns : s.program.Assigns var.entity) : s.Ordinary n := by
  obtain ⟨x, hp, hx⟩ := h
  refine ⟨_, hp, fun x' same => ?_⟩
  cases same
  exact ⟨var, hx, assigns⟩

theorem Stands.unique {n : NodeId} {v w : InContext .var} (hv : s.Stands n v) (hw : s.Stands n w) :
    v = w := by
  obtain ⟨x, hp, hx⟩ := hv
  obtain ⟨y, hq, hy⟩ := hw
  cases hp.symm.trans hq
  exact Option.some.inj (hx.symm.trans hy)

/-- A node that stands for a variable which nothing assigns is not ordinary. -/
theorem Stands.assigns {n : NodeId} {var : InContext .var} (h : s.Stands n var)
    (ordinary : s.Ordinary n) : s.program.Assigns var.entity := by
  obtain ⟨x, hp, hx⟩ := h
  obtain ⟨q, hq, vars⟩ := ordinary
  cases hp.symm.trans hq
  obtain ⟨var', hvar, assigns⟩ := vars x rfl
  cases hx.symm.trans hvar
  exact assigns

/-- A recorded call, with the declarations of its call site and of its callee. -/
structure RecordsAt (s : Solver) (edge : CallEdge) (site : InContext .callSite) (decl : CallSite)
    (callee : InContext .method) (d : MethodDecl) : Prop where
  recorded : ∃ call, s.calls.Records call ∧ call.edge = edge
  siteAt : s.elements.sites.get? edge.site = some site
  callSite : s.program.callSites[site.entity]? = some decl
  methodAt : s.elements.methods.get? edge.callee = some callee
  methodDecl : s.program.methods[callee.entity]? = some d

variable {edge : CallEdge} {site : InContext .callSite} {decl : CallSite}
  {callee : InContext .method} {d : MethodDecl}

theorem RecordsAt.grows (h : s.RecordsAt edge site decl callee d) (g : s.Grows t) :
    t.RecordsAt edge site decl callee d := by
  obtain ⟨⟨call, ⟨id, records⟩, same⟩, hs, hd, hc, hm⟩ := h
  exact ⟨⟨call, ⟨id, g.recorded id call records⟩, same⟩, g.elements.sites _ _ hs,
    by rw [g.program, hd], g.elements.methods _ _ hc, by rw [g.program, hm]⟩

/-- What a call passes to the parameters of its callee, each variable in its context. -/
def passed? (s : Solver) (kind : CallEdgeKind) (site : InContext .callSite) (decl : CallSite)
    (d : MethodDecl) : Option (List (ContextId × VarId)) :=
  match kind with
  | .extension _ origin => do
    let creation ← s.elements.sites.get? origin
    let created ← s.program.callSites[creation.entity]?
    return Lambda.arguments d creation created site decl
  | _ => some (decl.args.map (site.context, ·))

theorem passed?_grows {kind : CallEdgeKind} {list : List (ContextId × VarId)}
    (h : s.passed? kind site decl d = some list) (g : s.Grows t) :
    t.passed? kind site decl d = some list := by
  cases kind with
  | extension tag origin =>
    simp only [passed?, Option.bind_eq_bind, Option.bind_eq_some_iff] at h ⊢
    obtain ⟨creation, hc, created, hcreated, same⟩ := h
    exact ⟨creation, g.elements.sites origin creation hc, created, by rw [g.program, hcreated],
      same⟩
  | _ => exact h

/-- A flow passes what a recorded call has in the place of a parameter to this parameter. -/
structure Passes (s : Solver) (f : Flow) (edge : CallEdge) (site : InContext .callSite)
    (decl : CallSite) (callee : InContext .method) (d : MethodDecl) (i : Nat) : Prop
    extends s.RecordsAt edge site decl callee d where
  argument : ∃ list c v, s.passed? edge.kind site decl d = some list ∧ list[i]? = some (c, v) ∧
    s.Stands f.source ⟨c, v⟩
  param : ∃ v, d.params[i]? = some v ∧ s.Stands f.target ⟨callee.context, v⟩

theorem Passes.grows {f : Flow} {i : Nat} (h : s.Passes f edge site decl callee d i)
    (g : s.Grows t) : t.Passes f edge site decl callee d i := by
  obtain ⟨records, ⟨list, c, v, hl, hi, stands⟩, w, hw, stands'⟩ := h
  exact ⟨records.grows g, ⟨list, c, v, passed?_grows hl g, hi, stands.grows g⟩, w, hw,
    stands'.grows g⟩

/-- A flow is the passing of a parameter along a recorded call. -/
def PassesSome (s : Solver) (f : Flow) : Prop :=
  ∃ edge site decl callee d i, s.Passes f edge site decl callee d i

theorem PassesSome.grows {f : Flow} (h : s.PassesSome f) (g : s.Grows t) : t.PassesSome f := by
  obtain ⟨edge, site, decl, callee, d, i, h⟩ := h
  exact ⟨edge, site, decl, callee, d, i, h.grows g⟩

/-! ### Traced states -/

/-- Flows end in ordinary nodes or pass parameters, the objects of other nodes have come along flows,
and the calls that are announced are on record. -/
structure Traced (s : Solver) : Prop where
  flows : ∀ f, s.flows.Has f → s.Ordinary f.target ∨ s.PassesSome f
  objects : ∀ n o, o ∈ s.points.all n → s.Ordinary n ∨
    ∃ f, s.flows.Has f ∧ f.target = n ∧ o ∈ s.points.all f.source
  announced : ∀ edge, .call edge ∈ s.events.toList → ∃ call, s.calls.Records call ∧ call.edge = edge

/-- What is new can be traced. -/
structure Traces (s t : Solver) : Prop extends s.Grows t where
  newFlows : ∀ f, t.flows.Has f → s.flows.Has f ∨ t.Ordinary f.target ∨ t.PassesSome f
  newObjects : ∀ n o, o ∈ t.points.all n → o ∈ s.points.all n ∨ t.Ordinary n ∨
    ∃ f, t.flows.Has f ∧ f.target = n ∧ o ∈ t.points.all f.source
  newCalls : ∀ edge, .call edge ∈ t.events.toList → .call edge ∈ s.events.toList ∨
    ∃ call, t.calls.Records call ∧ call.edge = edge

theorem Grows.records (g : s.Grows t) (h : ∃ call, s.calls.Records call ∧ call.edge = edge) :
    ∃ call, t.calls.Records call ∧ call.edge = edge := by
  obtain ⟨call, ⟨id, records⟩, same⟩ := h
  exact ⟨call, ⟨id, g.recorded id call records⟩, same⟩

theorem Grows.arrived (g : s.Grows t) {n : NodeId} {o : ContextObjectId}
    (h : s.Ordinary n ∨ ∃ f, s.flows.Has f ∧ f.target = n ∧ o ∈ s.points.all f.source) :
    t.Ordinary n ∨ ∃ f, t.flows.Has f ∧ f.target = n ∧ o ∈ t.points.all f.source := by
  refine h.imp (·.grows g) ?_
  rintro ⟨f, hf, target, mem⟩
  exact ⟨f, g.has hf, target, g.objects _ _ mem⟩

instance : IsPreorder Solver Traces where
  refl s := ⟨.refl s, fun _ => .inl, fun _ _ => .inl, fun _ => .inl⟩
  trans s t u st tu := by
    have g := tu.toGrows
    refine ⟨st.toGrows.trans g, fun f hf => ?_, fun n o ho => ?_, fun edge he => ?_⟩
    · obtain old | new := tu.newFlows f hf
      · exact (st.newFlows f old).imp_right (.imp (·.grows g) (·.grows g))
      · exact .inr new
    · obtain old | new := tu.newObjects n o ho
      · exact (st.newObjects n o old).imp_right g.arrived
      · exact .inr new
    · obtain old | new := tu.newCalls edge he
      · exact (st.newCalls edge old).imp_right g.records
      · exact .inr new

/-- A state that grows in traceable ways stays traced. -/
theorem Traced.traces (h : s.Traced) (st : s.Traces t) : t.Traced where
  flows f hf := (st.newFlows f hf).elim
    (fun old => (h.flows f old).imp (·.grows st.toGrows) (·.grows st.toGrows)) id
  objects n o ho := (st.newObjects n o ho).elim (fun old => st.toGrows.arrived (h.objects n o old)) id
  announced edge he := (st.newCalls edge he).elim
    (fun old => st.toGrows.records (h.announced edge old)) id

/-! ### Single changes -/

/-- Changes that concern neither flows nor objects nor events. -/
theorem Traces.of_same (g : s.Grows t) (flows : t.flows = s.flows) (points : t.points = s.points)
    (events : t.events = s.events) : s.Traces t :=
  ⟨g, fun _ hf => .inl (flows ▸ hf), fun _ _ ho => .inl (points ▸ ho),
    fun _ he => .inl (events ▸ he)⟩

theorem traces_internNode {p : Pointer} : s.Traces (s.internNode p).2 :=
  ⟨extends_internNode.toGrows, fun _ => .inl, fun _ _ => .inl, fun _ => .inl⟩

theorem traces_addToNode {n : NodeId} {o : ContextObjectId} (hn : s.Ordinary n) :
    s.Traces (s.addToNode n o) := by
  have g := (extends_addToNode (s := s) (n := n) (o := o)).toGrows
  refine ⟨g, fun f hf => .inl ?_, fun m o' ho => ?_, fun _ => .inl ∘ ?_⟩
  · rwa [addToNode_eq, scheduleIf_eq] at hf
  · obtain old | ⟨rfl, -⟩ := mem_addToNode.1 ho
    · exact .inl old
    · exact .inr (.inl (hn.grows g))
  · rw [rewires_addToNode.events]
    exact id

/-- A set of objects reaches an ordinary node, or comes along a flow. -/
theorem traces_uniteInto {n : NodeId} {objects : Objects}
    (h : s.Ordinary n ∨ ∃ f, s.flows.Has f ∧ f.target = n ∧ ∀ o ∈ objects, o ∈ s.points.all f.source) :
    s.Traces (s.uniteInto n objects) := by
  have g : s.Grows (s.uniteInto n objects) := extends_uniteInto.toGrows
  refine ⟨g, fun f hf => .inl ?_, fun m o ho => ?_, fun _ => .inl ∘ ?_⟩
  · rwa [uniteInto_eq, scheduleIf_eq] at hf
  · obtain old | ⟨rfl, mem⟩ := mem_uniteInto.1 ho
    · exact .inl old
    · refine .inr (g.arrived (h.imp_right ?_))
      rintro ⟨f, hf, target, sub⟩
      exact ⟨f, hf, target, sub o mem⟩
  · rw [rewires_uniteInto.events]
    exact id

theorem stands_internNode {x : ContextVarId} {var : InContext .var}
    (hx : s.elements.vars.get? x = some var) :
    (s.internNode (.var x)).2.Stands (s.internNode (.var x)).1 var :=
  ⟨x, FlowGraph.pointer?_internNode, hx⟩

theorem traces_internVar {c : ContextId} {v : VarId} : s.Traces (s.internVar c v).2 :=
  .of_same (extends_elements Elements.within_internVar).toGrows rfl rfl rfl

theorem get?_internVar {c : ContextId} {v : VarId} :
    (s.internVar c v).2.elements.vars.get? (s.internVar c v).1 = some ⟨c, v⟩ :=
  CopyTable.get?_intern

theorem traces_addVarObject {x : ContextVarId} {var : InContext .var} {o : ContextObjectId}
    (hx : s.elements.vars.get? x = some var) (assigns : s.program.Assigns var.entity) :
    s.Traces (s.addVarObject x o) :=
  trans_of Traces traces_internNode
    (traces_addToNode ((stands_internNode hx).ordinary assigns))

theorem traces_addObjectIn {c d : ContextId} {v : VarId} {o : ObjectId}
    (assigns : s.program.Assigns v) : s.Traces (s.addObjectIn c v d o) := by
  have interned : (s.internVar c v).2.Traces ((s.internVar c v).2.internObject d o).2 :=
    .of_same (extends_elements Elements.within_internObject).toGrows rfl rfl rfl
  exact trans_of Traces (trans_of Traces traces_internVar interned)
    (traces_addVarObject (interned.elements.vars _ _ get?_internVar) assigns)

theorem traces_addObjectsIn {c : ContextId} {v : VarId} {objects : Objects}
    (assigns : s.program.Assigns v) : s.Traces (s.addObjectsIn c v objects) := by
  unfold addObjectsIn
  split
  · exact refl_of Traces s
  · exact trans_of Traces (trans_of Traces traces_internVar traces_internNode)
      (traces_uniteInto (.inl ((stands_internNode get?_internVar).ordinary assigns)))

end Solver

namespace Solve

open Solver

variable {s : Solver} {p : Program}

/-! ### Flows -/

/-- Objects are passed along a flow. -/
theorem traces_propagate {f : Flow} (hf : s.flows.Has f) {objects : Objects}
    (sub : ∀ o ∈ objects, o ∈ s.points.all f.source) :
    Ensures (propagate f.target f.kind objects) s fun _ t => s.Traces t := by
  refine extends_propagate.mono ?_
  rintro _ _ ⟨rfl, -⟩
  refine traces_uniteInto (.inr ⟨f, hf, rfl, fun o ho => sub o ?_⟩)
  exact (mem_passing.1 ho).1

/-- A new flow ends in an ordinary node, or passes a parameter. -/
theorem traces_addFlow {P Q : Pointer} {k : FlowKind}
    (ends : ∀ t n m, s.Grows t → t.flows.pointer? n = some P → t.flows.pointer? m = some Q →
      t.Ordinary m ∨ t.PassesSome ⟨n, m, k⟩) :
    Ensures (addFlow P Q k) s fun _ t => s.Traces t := by
  refine .bind ensures_change ?_
  rintro n _ ⟨rfl, rfl⟩
  refine .bind ensures_change ?_
  rintro m u ⟨rfl, rfl⟩
  have su := trans_of Traces (traces_internNode (s := s) (p := P)) (traces_internNode (p := Q))
  have hn : ((s.internNode P).2.internNode Q).2.flows.pointer? (s.internNode P).1 = some P :=
    (traces_internNode (p := Q)).nodes _ _ FlowGraph.pointer?_internNode
  have hm : ((s.internNode P).2.internNode Q).2.flows.pointer? ((s.internNode P).2.internNode Q).1 =
      some Q := FlowGraph.pointer?_internNode
  refine Ensures.mono ?_ fun _ t ut => trans_of Traces su ut
  generalize ((s.internNode P).2.internNode Q).2 = u at su hn hm ⊢
  generalize (s.internNode P).1 = n at hn ⊢
  generalize ((s.internNode P).2.internNode Q).1 = m at hm ⊢
  have g : u.Grows { u with flows := (u.flows.add ⟨n, m, k⟩).2 } := grows_addEdge
  have added : u.Traces { u with flows := (u.flows.add ⟨n, m, k⟩).2 } := by
    refine ⟨g, fun f hf => (FlowGraph.has_add.1 hf).imp_right ?_, fun _ _ => .inl, fun _ => .inl⟩
    rintro rfl
    exact ends _ n m (su.toGrows.trans g) (g.nodes n _ hn) (g.nodes m _ hm)
  have has : (u.flows.add ⟨n, m, k⟩).2.Has ⟨n, m, k⟩ := FlowGraph.has_add.2 (.inr rfl)
  refine .bind ensures_change ?_
  rintro fresh _ ⟨rfl, rfl⟩
  obtain ⟨-, eq⟩ | ⟨-, id, edges, -, eq⟩ := u.flows.add_cases ⟨n, m, k⟩
  · simp only [eq]
    exact .pure (refl_of Traces u)
  · simp only [eq, Option.isSome_some, if_true] at added has ⊢
    refine .bind ensures_get ?_
    rintro _ _ ⟨rfl, rfl⟩
    refine (traces_propagate has fun o ho => ?_).mono fun _ t => trans_of Traces added
    exact PendingStore.mem_all.2 (.inr ho)

/-- A flow from a place to a variable in a context. -/
theorem traces_flowToVar {c : ContextId} {v : VarId} {P : Pointer} {k : FlowKind}
    (ends : ∀ t n m, s.Grows t → t.flows.pointer? n = some P → t.Stands m ⟨c, v⟩ →
      t.Ordinary m ∨ t.PassesSome ⟨n, m, k⟩) :
    Ensures (do let x ← change (·.internVar c v); addFlow P (.var x) k) s fun _ t => s.Traces t := by
  refine .bind ensures_change ?_
  rintro x _ ⟨rfl, rfl⟩
  have named := traces_internVar (s := s) (c := c) (v := v)
  refine (traces_addFlow fun t n m st hn hm => ?_).mono fun _ t => trans_of Traces named
  exact ends t n m (named.toGrows.trans st) hn ⟨_, hm, st.elements.vars _ _ get?_internVar⟩

/-- A flow from a variable to a variable, each in its context. -/
theorem traces_addVarFlow {c d : ContextId} {v w : VarId} {k : FlowKind}
    (ends : ∀ t n m, s.Grows t → t.Stands n ⟨c, v⟩ → t.Stands m ⟨d, w⟩ →
      t.Ordinary m ∨ t.PassesSome ⟨n, m, k⟩) :
    Ensures (addVarFlow c v d w k) s fun _ t => s.Traces t := by
  refine .bind ensures_change ?_
  rintro x _ ⟨rfl, rfl⟩
  have named := traces_internVar (s := s) (c := c) (v := v)
  refine (traces_flowToVar fun t n m st hn hm => ?_).mono fun _ t => trans_of Traces named
  exact ends t n m (named.toGrows.trans st) ⟨_, hn, st.elements.vars _ _ get?_internVar⟩ hm

/-- A flow that passes a parameter along a recorded call. -/
theorem traces_pass {edge : CallEdge} {site : InContext .callSite} {decl : CallSite}
    {callee : InContext .method} {d : MethodDecl} (h : s.RecordsAt edge site decl callee d)
    {list : List (ContextId × VarId)} (hl : s.passed? edge.kind site decl d = some list) {i : Nat}
    {arg : ContextId × VarId} (harg : list[i]? = some arg) {param : VarId}
    (hparam : d.params[i]? = some param) :
    Ensures (addVarFlow arg.1 arg.2 callee.context param .parameter) s fun _ t => s.Traces t :=
  traces_addVarFlow fun _ _ _ st hn hm => .inr ⟨edge, site, decl, callee, d, i, h.grows st,
    ⟨list, arg.1, arg.2, passed?_grows hl st, harg, hn⟩, param, hparam, hm⟩

/-- The parameters of a recorded call are passed. -/
theorem traces_passAll {edge : CallEdge} {site : InContext .callSite} {decl : CallSite}
    {callee : InContext .method} {d : MethodDecl} (h : s.RecordsAt edge site decl callee d)
    {list : List (ContextId × VarId)} (hl : s.passed? edge.kind site decl d = some list) :
    Ensures ((list.zip d.params).forM fun (arg, param) =>
      addVarFlow arg.1 arg.2 callee.context param .parameter) s fun _ t => s.Traces t := by
  refine (Ensures.forM (R := Traces) (D := fun _ _ => True) (fun _ t _ => refl_of Traces t)
    (fun _ _ _ => trans_of Traces) (fun _ _ _ _ => id) (refl_of Traces s) ?_).mono fun _ t => And.left
  rintro ⟨arg, param⟩ mem t st
  obtain ⟨i, hi⟩ := List.getElem?_of_mem mem
  obtain ⟨harg, hparam⟩ := List.getElem?_zip_eq_some.1 hi
  exact (traces_pass (h.grows st.toGrows) (passed?_grows hl st.toGrows) harg hparam).mono
    fun _ u tu => ⟨tu, trivial⟩

end Solve
end PointsTo
