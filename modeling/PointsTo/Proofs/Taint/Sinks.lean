import PointsTo.Proofs.Answers
import PointsTo.Proofs.Configured

/-!
Which flows are reported, and which tainted values are not missed: whatever reaches a parameter of a
sink along calls that pass their arguments in place is reported at one of these calls.
-/
namespace PointsTo

open Facts

/-! ### Flows -/

namespace Solution

variable (F : Solution) (p : Program)

/-- In some context, a tainted value of the source call of a flow is at the argument of the sink
call. -/
def Delivers (f : Taint.TaintFlow) : Prop :=
  ∃ decl arg, p.callSites[f.sink]? = some decl ∧ decl.args[f.index]? = some arg ∧
    ∃ c w, F.points (.var c arg) w ∧ Taint.sourceCall? w.object = some f.source

/-- A flow into a call of a sink. -/
def Reports (sinks : List (Taint.SinkRule MethodId)) (f : Taint.TaintFlow) : Prop :=
  F.Delivers p f ∧ ∃ sink ∈ sinks, sink.index = f.index ∧
    ∃ via c c', F.calls via c f.sink c' sink.method

end Solution

namespace Taint

variable {s : Solver} {f : TaintFlow}

/-- The flows that are found at a call. -/
theorem mem_flowsAt (legible : s.Legible) {call : CallSiteId} {index : Nat} {flows : List TaintFlow}
    (h : (do
      let decl ← s.program.callSites[call]?
      match decl.args[index]? with
      | none => return []
      | some arg =>
        let objects ← (← s.objectsOf? arg).mapM s.elements.heap.get?
        return (objects.filterMap sourceCall?).map fun source => ⟨source, call, index⟩) =
          some flows) :
    f ∈ flows ↔ f.sink = call ∧ f.index = index ∧ s.facts.Delivers s.program f := by
  obtain ⟨decl, hd, h⟩ := Option.bind_eq_some_iff.1 h
  split at h
  next noArg =>
    cases h
    refine ⟨(by cases ·), ?_⟩
    rintro ⟨rfl, rfl, decl', arg, hd', harg, -⟩
    cases hd.symm.trans hd'
    cases noArg.symm.trans harg
  next arg harg =>
    obtain ⟨ids, hids, mem⟩ := legible.objectsOf? arg
    obtain ⟨ids', hids', h⟩ := Option.bind_eq_some_iff.1 h
    cases hids.symm.trans hids'
    obtain ⟨objects, hobjects, same⟩ := Option.bind_eq_some_iff.1 h
    cases same
    rw [mapM_eq_some_iff] at hobjects
    rw [List.mem_map]
    constructor
    · rintro ⟨source, hsource, rfl⟩
      obtain ⟨a, ha, tainted⟩ := List.mem_filterMap.1 hsource
      obtain ⟨o, ho, heap⟩ := exists_mem_left hobjects a ha
      obtain ⟨c, w, points, heap'⟩ := (mem o).1 ho
      cases heap.symm.trans heap'
      exact ⟨rfl, rfl, decl, arg, hd, harg, c, w, points, tainted⟩
    · rintro ⟨rfl, rfl, decl', arg', hd', harg', c, w, points, tainted⟩
      cases hd.symm.trans hd'
      cases harg.symm.trans harg'
      obtain ⟨x, hw⟩ : ∃ x, s.elements.value? x = some w := by
        obtain ⟨-, x, -, hw, -⟩ := points
        exact ⟨x, hw⟩
      obtain ⟨o, -, heap⟩ := Elements.value?_eq_some_iff.1 hw
      obtain ⟨a, ha, heap'⟩ := exists_mem_right hobjects o ((mem o).2 ⟨c, w, points, heap⟩)
      cases heap.symm.trans heap'
      exact ⟨f.source, List.mem_filterMap.2 ⟨_, ha, tainted⟩, rfl⟩

theorem mem_flowsInto (legible : s.Legible) {sink : SinkRule MethodId} {flows : List TaintFlow}
    (h : flowsInto? s sink = some flows) :
    f ∈ flows ↔ s.facts.Delivers s.program f ∧ sink.index = f.index ∧
      ∃ via c c', s.facts.calls via c f.sink c' sink.method := by
  obtain ⟨calls, hcalls, callers⟩ := legible.callersOf? sink.method
  obtain ⟨calls', hcalls', h⟩ := Option.bind_eq_some_iff.1 h
  cases hcalls.symm.trans hcalls'
  obtain ⟨lists, hlists, same⟩ := Option.bind_eq_some_iff.1 h
  cases same
  rw [mapM_eq_some_iff] at hlists
  rw [List.mem_flatten]
  constructor
  · rintro ⟨list, hlist, mem⟩
    obtain ⟨call, hcall, found⟩ := exists_mem_left hlists list hlist
    obtain ⟨rfl, same, delivers⟩ := (mem_flowsAt legible found).1 mem
    exact ⟨delivers, same.symm, (callers _).1 hcall⟩
  · rintro ⟨delivers, same, calls⟩
    obtain ⟨list, hlist, found⟩ := exists_mem_right hlists f.sink ((callers _).2 calls)
    exact ⟨list, hlist, (mem_flowsAt legible found).2 ⟨rfl, same.symm, delivers⟩⟩

/-- The flows that are found are the flows into the calls of sinks. -/
theorem mem_flows (legible : s.Legible) {sinks : List (SinkRule MethodId)} {flows : List TaintFlow}
    (h : flows? s sinks = some flows) : f ∈ flows ↔ s.facts.Reports s.program sinks f := by
  obtain ⟨lists, hlists, same⟩ := Option.bind_eq_some_iff.1 h
  cases same
  rw [mapM_eq_some_iff] at hlists
  rw [mem_ascending, List.mem_flatten]
  constructor
  · rintro ⟨list, hlist, mem⟩
    obtain ⟨sink, hsink, found⟩ := exists_mem_left hlists list hlist
    obtain ⟨delivers, calls⟩ := (mem_flowsInto legible found).1 mem
    exact ⟨delivers, sink, hsink, calls⟩
  · rintro ⟨delivers, sink, hsink, calls⟩
    obtain ⟨list, hlist, found⟩ := exists_mem_right hlists sink hsink
    exact ⟨list, hlist, (mem_flowsInto legible found).2 ⟨delivers, calls⟩⟩

end Taint

/-! ### Parameters -/

namespace Catalog

variable {p : Catalog}

/-- A variable that no statement of a method assigns, and that stands at none of its calls. -/
structure Untouched (p : Catalog) (m : MethodId) (d : MethodDecl) (v : VarId) : Prop where
  body : ∀ s ∈ d.body, s.target? ≠ some v
  sites : ∀ (site : CallSiteId) decl, p.callSites[site]? = some decl → decl.container = m →
    v ∉ decl.vars

instance {m : MethodId} {d : MethodDecl} {v : VarId} : Decidable (p.Untouched m d v) :=
  decidable_of_iff ((∀ s ∈ d.body, s.target? ≠ some v) ∧
    ∀ decl ∈ p.callSites.toList, decl.container = m → v ∉ decl.vars) <| by
    constructor
    · rintro ⟨body, sites⟩
      exact ⟨body, fun site decl hd => sites decl (Roster.mem_toList_iff.2 ⟨site, hd⟩)⟩
    · rintro ⟨body, sites⟩
      refine ⟨body, fun decl mem => ?_⟩
      obtain ⟨site, hd⟩ := Roster.mem_toList_iff.1 mem
      exact sites site decl hd

theorem mem_mentioned_of_target? {s : Statement} {v : VarId} (h : s.target? = some v) :
    v ∈ Builder.mentioned s := by
  cases s <;> cases h <;> simp [Builder.mentioned]

/-- Nothing assigns a parameter that its method leaves alone. -/
theorem Untouched.not_assigns {m : MethodId} {d : MethodDecl} {v : VarId}
    (h : p.Untouched m d v) (owned : p.Scoped) (hd : p.methods[m]? = some d)
    (param : v ∈ d.params) : ¬ p.Assigns v := by
  have own := (owned.methods m d hd).params v param
  rintro (⟨s, ⟨m', d', hd', mem⟩, target⟩ | ⟨site, decl, found, mem⟩ | ⟨m', d', hd', this⟩)
  · cases own.unique ((owned.methods m' d' hd').body s mem v (mem_mentioned_of_target? target))
    cases hd.symm.trans hd'
    exact h.body s mem target
  · exact h.sites site decl found ((owned.sites site decl found v mem).unique own) mem
  · cases own.unique ((owned.methods m' d' hd').receiver v this)
    cases hd.symm.trans hd'
    have apart := (owned.methods m d hd).apart
    rw [this, Option.toList_some, List.singleton_append, List.nodup_cons] at apart
    exact apart.1 param

/-- What a call passes to a parameter of its callee. -/
def Hands (p : Catalog) (via : Via) (decl : CallSite) (d : MethodDecl) (i : Nat) (v : VarId) : Prop :=
  match via with
  | .extension _ _ creation => ∃ created, p.callSites[creation]? = some created ∧
    ∃ captured, (Lambda.Use.passed decl created d)[i]? = some (captured, v)
  | _ => decl.args[i]? = some v

end Catalog

theorem hands_of_passed? {s : Solver} {kind : CallEdgeKind} {site : InContext .callSite}
    {decl : CallSite} {d : MethodDecl} {list : List (ContextId × VarId)}
    (hlist : s.passed? kind site decl d = some list) {via : Via}
    (hvia : s.elements.via? kind = some via) {i : Nat} {c : ContextId} {v : VarId}
    (hv : list[i]? = some (c, v)) : s.program.Hands via decl d i v := by
  cases kind with
  | extension tag origin =>
    obtain ⟨creation, hcreation, hlist⟩ := Option.bind_eq_some_iff.1 hlist
    obtain ⟨created, hcreated, same⟩ := Option.bind_eq_some_iff.1 hlist
    cases same
    obtain ⟨pair, hpair, rfl⟩ := Option.map_eq_some_iff.1 hvia
    obtain ⟨_, hd, -⟩ := Elements.copy?_eq_some_iff.1 hpair
    cases hcreation.symm.trans hd
    rw [Lambda.Use.contextArguments_eq, List.getElem?_map] at hv
    obtain ⟨⟨captured, w⟩, found, same⟩ := Option.map_eq_some_iff.1 hv
    cases same
    exact ⟨created, hcreated, captured, found⟩
  | _ =>
    cases hlist
    cases hvia
    rw [List.getElem?_map] at hv
    obtain ⟨w, found, same⟩ := Option.map_eq_some_iff.1 hv
    cases same
    exact found

open Solver in
/-- Whatever reaches a parameter that its method leaves alone has been passed by a call. -/
theorem Solver.Traced.handed {F : Solution} {s : Solver} (traced : s.Traced) (hs : Sound F s)
    (owned : s.program.toCatalog.Scoped) {m : MethodId} {d : MethodDecl}
    (hd : s.program.methods[m]? = some d) {i : Nat} {x : VarId} (hx : d.params[i]? = some x)
    (untouched : s.program.Untouched m d x) {c : Situation} {w : Value}
    (points : s.facts.points (.var c x) w) :
    ∃ via c₁ site decl v, s.facts.calls via c₁ site c m ∧ s.program.callSites[site]? = some decl ∧
      s.program.Hands via decl d i v ∧ ∃ c₂, s.facts.points (.var c₂ v) w := by
  have param : x ∈ d.params := List.mem_of_getElem? hx
  -- the object has come along a flow, which passes a parameter
  obtain ⟨n, o, hn, ho, mem⟩ := points_iff.1 points
  obtain ⟨copy, hp, hcopy⟩ := Taint.pointer?_of_place? hn
  obtain ⟨context, hvar, hc⟩ := Elements.copy?_eq_some_iff.1 hcopy
  have stands : s.Stands n ⟨context, x⟩ := ⟨copy, hp, hvar⟩
  have special : ¬ s.Ordinary n := fun ordinary =>
    untouched.not_assigns owned hd param (stands.assigns ordinary)
  obtain ⟨f, hf, rfl, arrived⟩ := (traced.objects n o mem).resolve_left special
  obtain ⟨edge, site, decl, callee, d', j, passes⟩ := (traced.flows f hf).resolve_left special
  -- the parameter is this one
  obtain ⟨v', hv', stands'⟩ := passes.param
  cases stands.unique stands'
  have own := (owned.methods _ d' passes.methodDecl).params x (List.mem_of_getElem? hv')
  cases own.unique ((owned.methods m d hd).params x param)
  cases hd.symm.trans passes.methodDecl
  have apart := ((List.nodup_append.1 (owned.methods _ d hd).apart).2.1)
  obtain ⟨lt, -⟩ := List.getElem?_eq_some_iff.1 hx
  cases (List.getElem?_inj lt apart).1 (hx.trans hv'.symm)
  -- and the object was at what the call passes
  obtain ⟨⟨call, recorded, rfl⟩, hsite, hdecl, hcallee, -⟩ := passes.toRecordsAt
  obtain ⟨via, c₁, site', _, _, hvia, hsite', hm', -⟩ := hs.recorded call recorded
  obtain ⟨_, found, -⟩ := Elements.copy?_eq_some_iff.1 hsite'
  cases hsite.symm.trans found
  have hm : s.elements.copy? s.elements.methods call.edge.callee = some (c, callee.entity) :=
    Elements.copy?_eq_some_iff.2 ⟨_, hcallee, hc⟩
  obtain ⟨list, context₂, v, hlist, hv, ⟨y, hy, hvar₂⟩⟩ := passes.argument
  obtain ⟨c₂, hc₂⟩ := hs.readable.vars y _ hvar₂
  have source : s.place? f.source = some (.var c₂ v) := Option.bind_eq_some_iff.2
    ⟨_, hy, Elements.place?_var (Elements.copy?_eq_some_iff.2 ⟨_, hvar₂, hc₂⟩)⟩
  refine ⟨via, c₁, site', decl, v, ⟨call, recorded, hvia, hsite', hm⟩, hdecl, ?_, c₂,
    points_iff.2 ⟨f.source, o, source, ho, arrived⟩⟩
  exact hands_of_passed? hlist hvia hv

/-- Whatever the calls of a method in a context pass to a parameter is their argument in the same
place. -/
def Solution.InPlace (F : Solution) (p : Program) (c : Situation) (m : MethodId) (d : MethodDecl)
    (i : Nat) : Prop :=
  ∀ via c₁ site decl v, F.calls via c₁ site c m → p.callSites[site]? = some decl →
    p.Hands via decl d i v → decl.args[i]? = some v

namespace Taint

/-- No sink is missed where arguments are passed in place. When a run with taint tracking ends without
a fault, for whatever selector and rules, with or without function values: a tainted value at a
parameter of a sink that the sink leaves alone is reported at a call of the sink, provided that
calls of the sink pass their arguments in place. -/
theorem sinks_reported {ds : List Declaration} {p : Program}
    (built : (Builder.ofDeclarations ds).build = .ok p) {c : Configuration} {rules : Rules}
    (on : c.rules = some rules) {contexts : ContextTable} {fuel : Nat} {r : Run Extensions}
    (ran : analyze fuel (.all c.plugins) {} (.initial p c.selector contexts) = r)
    (finished : r.verdict = .finished) :
    ∃ flows, r.solver.finding? findingKey = some (.flows flows) ∧
      ∀ sink ∈ rules.sinks, ∀ d x, p.methods[sink.method]? = some d →
        d.params[sink.index]? = some x → p.Untouched sink.method d x →
        ∀ e, r.solver.facts.InPlace p e sink.method d sink.index →
          ∀ w q, r.solver.facts.points (.var e x) w → sourceCall? w.object = some q →
            ∃ flow ∈ flows, flow.source = q ∧ flow.index = sink.index ∧
              ∃ via e', r.solver.facts.calls via e' flow.sink e sink.method := by
  have owned := Program.scoped_of_build built
  obtain ⟨runs, -, stored⟩ := Configuration.runs_of_finished Configuration.confines_all
    (Program.indexed_of_build built) owned ran finished
  obtain ⟨flows, hflows, finding⟩ := stored rules on
  refine ⟨flows, finding, fun sink mem d x hd hx untouched e inPlace w q points tainted => ?_⟩
  rw [← runs.program] at hd untouched owned
  obtain ⟨via, e', site, decl, v, call, hdecl, hands, e₂, points₂⟩ :=
    runs.traced.handed runs.sound owned hd hx untouched points
  rw [runs.program] at hdecl hands
  have harg := inPlace via e' site decl v call hdecl hands
  refine ⟨⟨q, site, sink.index⟩, (mem_flows runs.sound.legible hflows).2 ⟨?_, sink, mem, rfl, ?_⟩,
    rfl, rfl, via, e', call⟩
  · exact ⟨decl, v, by rw [runs.program, hdecl], harg, e₂, w, points₂, tainted⟩
  · exact ⟨via, e', e, call⟩

namespace Examples

/-- A program that reads a text, and then uses it. -/
def used (uses : List Declaration) : List Declaration :=
  [.type "Object" (.nominal ⟨none, [], false, false⟩),
   .type "Text" (.nominal ⟨some ⟨0⟩, [], false, false⟩),
   .type "Action" (.nominal ⟨none, [], true, true⟩),
   .type "Consumer" (.nominal ⟨none, [], true, true⟩),
   .type "Main" (.nominal ⟨some ⟨0⟩, [], false, false⟩),
   .method ⟨⟨4⟩, "read", [], some ⟨1⟩⟩ true false,
   .method ⟨⟨4⟩, "write", [⟨1⟩], none⟩ true false,
   .method ⟨⟨2⟩, "run", [], none⟩ false true,
   .method ⟨⟨3⟩, "accept", [⟨1⟩], none⟩ false true,
   .method ⟨⟨4⟩, "main", [], none⟩ true false,
   .var ⟨4⟩ "text" ⟨1⟩, .var ⟨4⟩ "action" ⟨2⟩, .var ⟨4⟩ "consumer" ⟨3⟩,
   .call ⟨4⟩ .static ⟨⟨4⟩, "read", [], some ⟨1⟩⟩ none [] (some ⟨4⟩)] ++ uses ++ [.entry ⟨4⟩]

/-- A reference to the method that writes. -/
def writes : DynamicCall := ⟨.lambda, some ⟨.invokeStatic, ⟨4⟩, "write", [⟨1⟩], none⟩⟩

/-- The text is handed to a function value that writes. -/
def handing : List Declaration := used
  [.dynamicCall ⟨4⟩ writes "accept" (some ⟨3⟩) [] (some ⟨6⟩),
   .call ⟨4⟩ .interface ⟨⟨3⟩, "accept", [⟨1⟩], none⟩ (some ⟨6⟩) [⟨4⟩] none]

/-- The text is captured by a function value that writes. -/
def capturing : List Declaration := used
  [.dynamicCall ⟨4⟩ writes "run" (some ⟨2⟩) [⟨4⟩] (some ⟨5⟩),
   .call ⟨4⟩ .interface ⟨⟨2⟩, "run", [], none⟩ (some ⟨5⟩) [] none]

/-- What is read is tainted, and must not be written. -/
def guarding : Configuration := ⟨.insensitive, true, some { sources := [⟨⟨0⟩, ⟨1⟩⟩], sinks := [⟨⟨1⟩, 0⟩] }⟩

def handed : Run Extensions :=
  analyze 100 (.all guarding.plugins) {} (.initial (.ofDeclarations handing) .insensitive default)

def captured : Run Extensions :=
  analyze 100 (.all guarding.plugins) {} (.initial (.ofDeclarations capturing) .insensitive default)

theorem handed_eq : analyze 100 (.all guarding.plugins) {}
    (.initial (.ofDeclarations handing) guarding.selector default) = handed := rfl

/-- The method that writes. -/
def writing : MethodDecl := ⟨⟨⟨4⟩, "write", [⟨1⟩], none⟩, true, false, none, [⟨0⟩], [], #[]⟩

/-- The reference to the method that writes, which captures nothing. -/
def referring : CallSite :=
  ⟨⟨4⟩, 1, .dynamic writes, ⟨⟨4⟩, "accept", [], some ⟨3⟩⟩, none, [], some ⟨6⟩⟩

/-- The call that hands the text to the function value. -/
def accepting : CallSite :=
  ⟨⟨4⟩, 2, .interface, ⟨⟨3⟩, "accept", [⟨1⟩], none⟩, some ⟨6⟩, [⟨4⟩], none⟩

end Examples

open Taint.Examples in
/-- A text that is handed to a function value is reported at the call of the function value. -/
theorem sinks_reported_handed : handed.verdict = .finished ∧
    ∃ flows, handed.solver.finding? findingKey = some (.flows flows) ∧
      ∃ flow ∈ flows, flow.source = ⟨0⟩ ∧ flow.index = 0 ∧
        ∃ via e', handed.solver.facts.calls via e' flow.sink [] ⟨1⟩ := by
  have built : (Builder.ofDeclarations handing).build = .ok (.ofDeclarations handing) :=
    Program.build_ofDeclarations (by decide +kernel)
  obtain ⟨finished, points⟩ : handed.verdict = .finished ∧
      handed.solver.facts.points (.var [] ⟨0⟩) (tainted ⟨0⟩ ⟨1⟩) := by decide +kernel
  obtain ⟨hd, untouched⟩ :
      (Program.ofDeclarations handing).methods[(⟨1⟩ : MethodId)]? = some writing ∧
      (Program.ofDeclarations handing).Untouched ⟨1⟩ writing ⟨0⟩ := by decide +kernel
  obtain ⟨flows, finding, reported⟩ := sinks_reported built rfl handed_eq finished
  refine ⟨finished, flows, finding,
    reported ⟨⟨1⟩, 0⟩ (by decide) writing ⟨0⟩ hd rfl untouched [] ?_ _ _ points sourceCall?_tainted⟩
  -- the only call is that of the function value
  have only : ∀ call ∈ handed.solver.calls.calls.toList,
      handed.solver.elements.copy? handed.solver.elements.methods call.edge.callee = some ([], ⟨1⟩) →
      handed.solver.elements.via? call.edge.kind = some (.extension Lambda.callTag [] ⟨1⟩) ∧
      handed.solver.elements.copy? handed.solver.elements.sites call.edge.site = some ([], ⟨2⟩) := by
    decide +kernel
  obtain ⟨hcreated, haccepting⟩ :
      (Program.ofDeclarations handing).callSites[(⟨1⟩ : CallSiteId)]? = some referring ∧
      (Program.ofDeclarations handing).callSites[(⟨2⟩ : CallSiteId)]? = some accepting := by
    decide +kernel
  rintro via e' site decl v ⟨call, recorded, hvia, hsite, hm⟩ hdecl hands
  obtain ⟨hvia', hsite'⟩ := only call (Table.mem_toList_iff.2 recorded) hm
  cases hvia.symm.trans hvia'
  cases hsite.symm.trans hsite'
  cases haccepting.symm.trans hdecl
  obtain ⟨created, hcreated', captured, passed⟩ := hands
  cases hcreated.symm.trans hcreated'
  cases passed
  rfl

open Taint.Examples in
/-- A text that is captured by a function value reaches the parameter of the method that writes, which
leaves it alone, and is not reported. -/
theorem sinks_unreported_captured : captured.verdict = .finished ∧
    (Program.ofDeclarations capturing).methods[(⟨1⟩ : MethodId)]? = some writing ∧
    (Program.ofDeclarations capturing).Untouched ⟨1⟩ writing ⟨0⟩ ∧
    captured.solver.facts.calls (.extension Lambda.callTag [] ⟨1⟩) [] ⟨2⟩ [] ⟨1⟩ ∧
    captured.solver.facts.points (.var [] ⟨0⟩) (tainted ⟨0⟩ ⟨1⟩) ∧
    captured.solver.finding? findingKey = some (.flows []) := by
  decide +kernel

end Taint
end PointsTo
