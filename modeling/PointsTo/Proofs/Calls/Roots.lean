import PointsTo.Proofs.Delivery.News
import PointsTo.Proofs.Lambda.Completeness

/-!
The call graph of a run. Every call leads from the method around its call site to its callee, and every
method is an entry or the callee of a method that was reached before it. So the calls lead from the
entries to all methods.
-/
namespace PointsTo

namespace Solver

variable {s t : Solver} {cm : ContextMethodId}

/-- An entry of the program in the empty context. -/
def IsRoot (s : Solver) (cm : ContextMethodId) : Prop :=
  ∃ m ∈ s.program.entries, s.elements.methods.get? cm = some ⟨ContextTable.emptyId, m⟩

/-- A method is an entry, or it is called from one of the methods that come `before` it. -/
def Stems (s : Solver) (before : List ContextMethodId) (cm : ContextMethodId) : Prop :=
  s.IsRoot cm ∨ ∃ call, s.calls.Records call ∧ call.edge.callee = cm ∧ call.caller ∈ before

/-- The calls connect reached methods, and no method is reached without a reason. -/
structure Rooted (s : Solver) : Prop where
  encloses : ∀ call, s.calls.Records call → s.Encloses call.caller call.edge.site
  ends : ∀ call, s.calls.Records call →
    s.calls.Reaches call.caller ∧ s.calls.Reaches call.edge.callee
  stems : ∀ before cm after, s.calls.reached.toList = before ++ cm :: after → s.Stems before cm

theorem IsRoot.mono (h : s.IsRoot cm) (program : t.program = s.program)
    (elements : s.elements.Within t.elements) : t.IsRoot cm := by
  obtain ⟨m, entry, pair⟩ := h
  exact ⟨m, program ▸ entry, elements.methods cm _ pair⟩

theorem Stems.mono {before : List ContextMethodId} (h : s.Stems before cm)
    (program : t.program = s.program) (elements : s.elements.Within t.elements)
    (records : ∀ call, s.calls.Records call → t.calls.Records call) : t.Stems before cm := by
  rcases h with root | ⟨call, recorded, ends⟩
  · exact .inl (root.mono program elements)
  · exact .inr ⟨call, records call recorded, ends⟩

theorem rooted_initial {p : Program} {sel : Selector} {contexts : ContextTable} :
    (initial p sel contexts).Rooted where
  encloses := by
    rintro call ⟨i, h⟩
    cases h
  ends := by
    rintro call ⟨i, h⟩
    cases h
  stems before cm after split := by
    have nothing : (initial p sel contexts).calls.reached.toList = [] := rfl
    simp [nothing] at split

namespace Rooted

variable (h : s.Rooted)
include h

/-- A state may grow by whatever is no call. -/
theorem grow (program : t.program = s.program) (elements : s.elements.Within t.elements)
    (calls : t.calls = s.calls) : t.Rooted where
  encloses call recorded := (h.encloses call (calls ▸ recorded)).mono elements program
  ends call recorded := by
    rw [calls] at recorded ⊢
    exact h.ends call recorded
  stems before cm after split := by
    rw [calls] at split
    exact (h.stems before cm after split).mono program elements fun call recorded => calls ▸ recorded

/-- A method that has just been reached comes last. -/
theorem stems_append {g : CallGraph} {news : List ContextMethodId}
    (records : ∀ call, s.calls.Records call → g.Records call)
    (reached : g.reached.toList = s.calls.reached.toList ++ news)
    (new : news = [] ∨ ∃ x, news = [x] ∧ Stems { s with calls := g } s.calls.reached.toList x)
    (before : List ContextMethodId) (cm : ContextMethodId) (after : List ContextMethodId)
    (split : g.reached.toList = before ++ cm :: after) :
    Stems { s with calls := g } before cm := by
  rw [reached] at split
  rcases split_append split with ⟨rest, old⟩ | ⟨rest, rfl, added⟩
  · exact (h.stems before cm rest old).mono rfl (.refl _) records
  · rcases new with rfl | ⟨x, rfl, stems⟩
    · simp at added
    · rcases List.singleton_eq_append_iff.1 added with ⟨rfl, last⟩ | ⟨-, last⟩
      · cases last
        rwa [List.append_nil]
      · cases last

theorem reach (root : s.IsRoot cm) : Rooted { s with calls := (s.calls.reach cm).2 } where
  encloses call recorded := by
    rw [CallGraph.Records, CallGraph.calls_reach] at recorded
    exact h.encloses call recorded
  ends call recorded := by
    rw [CallGraph.Records, CallGraph.calls_reach] at recorded
    have ends := h.ends call recorded
    exact ⟨CallGraph.reaches_reach.2 (.inl ends.1), CallGraph.reaches_reach.2 (.inl ends.2)⟩
  stems := by
    apply h.stems_append _ CallGraph.reached_reach
    · split
      · exact .inr ⟨cm, rfl, .inl root⟩
      · exact .inl rfl
    · intro call recorded
      rwa [CallGraph.Records, CallGraph.calls_reach]

theorem add {caller : ContextMethodId} {edge : CallEdge} (encloses : s.Encloses caller edge.site)
    (reached : s.calls.Reaches caller) :
    Rooted { s with calls := (s.calls.add caller edge).2 } := by
  rcases s.calls.add_cases caller edge with ⟨-, eq⟩ | ⟨-, fresh, -, -, reaches, records⟩
  · rwa [eq]
  constructor
  case encloses =>
    intro call recorded
    rcases (records call).1 recorded with old | rfl
    · exact h.encloses call old
    · exact encloses
  case ends =>
    intro call recorded
    rcases (records call).1 recorded with old | rfl
    · have ends := h.ends call old
      exact ⟨(reaches _).2 (.inl ends.1), (reaches _).2 (.inl ends.2)⟩
    · exact ⟨(reaches _).2 (.inl reached), (reaches _).2 (.inr (.inr rfl))⟩
  case stems =>
    apply h.stems_append _ (CallGraph.reached_add fresh reached)
    · split
      · exact .inl rfl
      · refine .inr ⟨edge.callee, rfl, .inr ⟨⟨caller, edge⟩, ?_, rfl, ?_⟩⟩
        · exact (records _).2 (.inr rfl)
        · exact CallGraph.mem_reached.2 reached
    · exact fun call old => (records call).2 (.inl old)

end Rooted

/-- A computation that leaves the program alone, and after which no method is reached without a reason. -/
structure Roots (s t : Solver) : Prop where
  program : t.program = s.program
  rooted : s.Rooted → t.Rooted

instance : IsPreorder Solver Roots where
  refl _ := ⟨rfl, id⟩
  trans _ _ _ st tu := ⟨tu.program.trans st.program, fun h => tu.rooted (st.rooted h)⟩

theorem Extends.roots (st : s.Extends t) : s.Roots t :=
  ⟨st.program, fun h => h.grow st.program st.elements st.sameCalls⟩

/-! ### Ways along the calls -/

/-- Calls, each of which starts where the one before it has led, from one method to another. -/
inductive Leads (s : Solver) (start : ContextMethodId) : List CallEdge → ContextMethodId → Prop
  | stay : Leads s start [] start
  | call {path : List CallEdge} {caller : ContextMethodId} {edge : CallEdge}
    (way : Leads s start path caller) (found : edge ∈ s.calls.edges)
    (leaves : s.Encloses caller edge.site) : Leads s start (path ++ [edge]) edge.callee

/-- The calls lead from an entry to every method that has been reached. -/
theorem Rooted.exists_leads (h : s.Rooted) (reached : s.calls.Reaches cm) :
    ∃ root path, s.IsRoot root ∧ s.Leads root path cm := by
  obtain ⟨before, after, split⟩ := List.append_of_mem (CallGraph.mem_reached.2 reached)
  -- the methods that come before a method are fewer
  induction hn : before.length using Nat.strongRecOn generalizing before cm after with
  | _ n ih =>
    rcases h.stems before cm after split with root | ⟨call, recorded, rfl, earlier⟩
    · exact ⟨cm, [], root, .stay⟩
    · obtain ⟨first, rest, rfl⟩ := List.append_of_mem earlier
      have shorter : first.length < n := by
        rw [← hn, List.length_append, List.length_cons]
        omega
      rw [List.append_assoc] at split
      obtain ⟨root, path, isRoot, way⟩ :=
        ih first.length shorter (h.ends call recorded).1 first _ split rfl
      refine ⟨root, path ++ [call.edge], isRoot, .call way ?_ (h.encloses call recorded)⟩
      exact List.mem_map.2 ⟨call, Table.mem_toList_iff.2 recorded, rfl⟩

end Solver

/-! ### Pieces of work -/

namespace Solve

open Solver

theorem roots_admitted {s t : Solver} {cm : ContextMethodId} (root : s.IsRoot cm)
    (admitted : Admitted cm s t) : s.Roots t := by
  cases admitted with
  | again => exact refl_of Roots s
  | first _ rest => 
    refine trans_of Roots ⟨?_, fun h => h.reach root⟩ rest.roots
    rfl

/-- Entries are reached in the empty context. -/
theorem roots_reachEntries : Relates Roots reachEntries := by
  intro s
  refine .bind ensures_catalog ?_
  rintro _ _ ⟨rfl, rfl⟩
  refine (Ensures.forM (R := Roots) (D := fun _ _ => True) (fun _ t _ => refl_of Roots t)
    (fun _ _ _ => trans_of Roots) (fun _ _ _ _ => id) (refl_of Roots s)
    fun m entry t st => ?_).mono fun _ _ => And.left
  refine .bind ensures_change ?_
  rintro cm _ ⟨rfl, rfl⟩
  refine (ensures_admitted _).mono fun _ u admitted => ⟨?_, trivial⟩
  refine trans_of Roots (Entry.method t _ m).extends.roots (roots_admitted ?_ admitted)
  exact ⟨m, st.program ▸ entry, CopyTable.get?_intern⟩

theorem roots_added {s t : Solver} {caller : ContextMethodId} {edge : CallEdge}
    (encloses : s.Encloses caller edge.site) (reached : s.calls.Reaches caller)
    (added : Added caller edge s t) : s.Roots t := by
  cases added.recorded with
  | again => exact refl_of Roots s
  | first _ rest =>
    refine trans_of Roots ⟨?_, fun h => h.add encloses reached⟩ rest.roots
    rfl

theorem roots_processCallEdge (edge : CallEdge) : Relates Roots (processCallEdge edge) := by
  intro s
  refine (ensures_added edge).mono ?_
  rintro _ t ⟨site, decl, hsite, hdecl, reached, added⟩
  have interned := (Entry.method s site.context decl.container).extends.roots
  exact trans_of Roots interned (roots_added (encloses_internMethod hsite hdecl) reached added)

/-- What nodes pass on has no part in it. -/
theorem roots_processNode (n : NodeId) : Relates Roots (processNode n) := by
  intro s
  refine (handed_processNode n).mono ?_
  intro _ t handed
  have grown := handed.contributes.1.toExtends
  exact ⟨grown.program, fun h => h.grow grown.program grown.elements grown.sameCalls⟩

theorem roots_step : Relates Roots step := by
  intro s
  apply ensures_step_cases
  case call =>
    intro edge rest _
    exact (roots_processCallEdge edge _).mono fun _ _ st =>
      ⟨st.program, fun h => st.rooted (h.grow rfl (.refl _) rfl)⟩
  case node =>
    intro n rest _ _
    exact (roots_processNode n _).mono fun _ _ st =>
      ⟨st.program, fun h => st.rooted (h.grow rfl (.refl _) rfl)⟩
  case idle => exact fun _ => refl_of Roots s

end Solve

namespace Analysis

open Solver

variable {σ : Type}

theorem maintained_rooted (p : Program) :
    Maintained fun s => s.program = p ∧ s.Rooted where
  contributes s t st := by
    rintro ⟨program, h⟩
    exact ⟨st.program.trans program, st.toExtends.roots.rooted h⟩
  events s rest h := ⟨h.1, h.2.grow rfl (.refl _) rfl⟩
  entries := Solve.roots_reachEntries.mono fun s t st h =>
    ⟨st.program.trans h.1, st.rooted h.2⟩
  work := Solve.roots_step.mono fun s t st h => ⟨st.program.trans h.1, st.rooted h.2⟩

/-- The states of the solver that somebody else can see: the one at the head of the loop, and those
that plugins come across while they react, whatever they do through the entry points. -/
inductive Shows (plugin : Plugin σ) (start : σ × Solver) : Solver → Prop
  | starting {s : Solver} (entered : Entered start.2 s) : Shows plugin start s
  | between {st : σ × Solver} (visited : Visits plugin start st) : Shows plugin start st.2
  | reacting {st : σ × Solver} {s : Solver} {e : Event} {rest : Queue Event}
    (visited : Visits plugin start st) (next : st.2.events.toList = e :: rest.toList)
    (entered : Entered { st.2 with events := rest } s) : Shows plugin start s
  | finishing {st last : σ × Solver} {s : Solver} (visited : Visits plugin start st)
    (ended : step plugin st = (.ok false, last)) (entered : Entered last.2 s) :
    Shows plugin start s

/-- What the solver maintains holds in every state that it shows. -/
theorem Maintained.shows {I : Solver → Prop} (h : Maintained I) {plugin : Plugin σ}
    (guarded : plugin.Public) {start : σ × Solver} (hs : I start.2) {s : Solver}
    (shown : Shows plugin start s) : I s := by
  cases shown with
  | starting entered => exact h.contributes _ _ entered.contributes hs
  | between visited => exact h.visits guarded hs visited
  | reacting visited _ entered =>
    exact h.contributes _ _ entered.contributes (h.events _ _ (h.visits guarded hs visited))
  | finishing visited ended entered =>
    have last := (h.step guarded _ (h.visits guarded hs visited) _ _ ended).1
    exact h.contributes _ _ entered.contributes last

/-- Whatever entry points make of the state in which a run has finished is shown, too. -/
theorem shows_entered_of_finished {plugin : Plugin σ} (guarded : plugin.Public) {fuel : Nat} {own : σ}
    {s t : Solver} (finished : (analyze fuel plugin own s).verdict = .finished)
    (entered : Entered (analyze fuel plugin own s).solver t) : Shows plugin (own, s) t := by
  obtain ⟨last, st, visited, ended, said⟩ := exists_last_of_finished finished
  exact .finishing visited ended (Relation.ReflTransGen.trans (guarded.onFinish st _ _ said) entered)

/-- The state in which a run has finished is one that the solver shows. -/
theorem shows_of_finished {plugin : Plugin σ} (guarded : plugin.Public) {fuel : Nat} {own : σ}
    {s : Solver} (finished : (analyze fuel plugin own s).verdict = .finished) :
    Shows plugin (own, s) (analyze fuel plugin own s).solver :=
  shows_entered_of_finished guarded finished .refl

theorem Shows.rooted {plugins : List (Plugin σ)} (guarded : ∀ plugin ∈ plugins, plugin.Public)
    {p : Program} {sel : Selector} {contexts : ContextTable} {own : σ} {s : Solver}
    (shown : Shows (.all plugins) (own, .initial p sel contexts) s) : s.program = p ∧ s.Rooted :=
  (maintained_rooted p).shows (.all guarded) (by exact ⟨rfl, rooted_initial⟩) shown

end Analysis

/-- The call graph of a state. -/
structure Solver.Charted (s : Solver) : Prop where
  /-- There is at most one call from a call site to a callee. -/
  once : s.calls.edges.Pairwise fun e e' => (e.site, e.callee) ≠ (e'.site, e'.callee)
  /-- No method is listed twice, and the methods that are listed are those that count as reached. -/
  distinct : s.calls.reached.toList.Nodup
  listed : ∀ cm, s.calls.isReached cm = true ↔ cm ∈ s.calls.reached.toList
  /-- A call leads from the method around its call site, in the context of the call site, to its callee. -/
  ends : ∀ call ∈ s.calls.calls.toList, s.Encloses call.caller call.edge.site ∧
    call.caller ∈ s.calls.reached.toList ∧ call.edge.callee ∈ s.calls.reached.toList
  /-- The calls of a call site are filed in the order in which they were found. -/
  filed : ∀ cs, (s.calls.bySite.callsOf cs).reverse.map Call.edge =
    s.calls.edges.filter fun e => e.site == cs
  leaving : ∀ cm e, e ∈ s.calls.calleesOf cm ↔ e ∈ s.calls.edges ∧ s.Encloses cm e.site
  entering : ∀ cm e, e ∈ s.calls.callersOf cm ↔ e ∈ s.calls.edges ∧ e.callee = cm
  /-- A method is an entry, or it is called from a method that was reached before it. -/
  stems : ∀ before cm after, s.calls.reached.toList = before ++ cm :: after →
    s.IsRoot cm ∨ ∃ call ∈ s.calls.calls.toList, call.edge.callee = cm ∧ call.caller ∈ before
  connected : ∀ cm ∈ s.calls.reached.toList, ∃ root path, s.IsRoot root ∧ s.Leads root path cm

namespace Solver

variable {s : Solver} {cm caller : ContextMethodId} {cs : ContextSiteId}

/-- A call site is in one method. -/
theorem Encloses.unique (h : s.Encloses cm cs) (h' : s.Encloses caller cs) : cm = caller := by
  obtain ⟨site, decl, hsite, hdecl, hcm⟩ := h
  obtain ⟨site', decl', hsite', hdecl', hcaller⟩ := h'
  cases hsite.symm.trans hsite'
  cases hdecl.symm.trans hdecl'
  exact Table.id_eq_of_key_eq hcm hcaller rfl

theorem Rooted.charted (h : s.Rooted) : s.Charted := by
  constructor
  case once => 
    have keys := Table.nodup_keys s.calls.calls
    rw [CallGraph.edges, List.pairwise_map]
    exact List.pairwise_map.1 keys
  case distinct => exact s.calls.nodup_reached
  case listed =>
    intro cm
    rw [CallGraph.isReached_iff, CallGraph.mem_reached]
  case ends =>
    intro call found
    have recorded : s.calls.Records call := Table.mem_toList_iff.1 found
    have ends := h.ends call recorded
    exact ⟨h.encloses call recorded, CallGraph.mem_reached.2 ends.1, CallGraph.mem_reached.2 ends.2⟩
  case filed =>
    intro cs
    rw [CallIndex.callsOf_eq, List.reverse_reverse, CallGraph.edges, List.filter_map]
    rfl
  case leaving =>
    intro cm e
    rw [CallGraph.mem_calleesOf, CallGraph.mem_edges]
    constructor
    · intro recorded
      exact ⟨⟨_, recorded, rfl⟩, h.encloses _ recorded⟩
    · rintro ⟨⟨⟨caller, e⟩, recorded, rfl⟩, encloses⟩
      rwa [encloses.unique (h.encloses _ recorded)]
  case entering =>
    intro cm e
    rw [CallGraph.mem_callersOf, CallGraph.mem_edges]
    constructor
    · rintro ⟨call, recorded, same, callee⟩
      exact ⟨⟨call, recorded, same⟩, callee⟩
    · rintro ⟨⟨call, recorded, same⟩, callee⟩
      exact ⟨call, recorded, same, callee⟩
  case stems =>
    intro before cm after split
    rcases h.stems before cm after split with root | ⟨call, recorded, ends⟩
    · exact .inl root
    · exact .inr ⟨call, Table.mem_toList_iff.2 recorded, ends⟩
  case connected =>
    intro cm reached
    exact h.exists_leads (CallGraph.mem_reached.1 reached)

end Solver

open Analysis in
/-- The call graph is in order at all times. Take any program, any selector and any plugins that use
entry points only, and any state of the solver that can be seen from outside: before the run, between
two transitions, and whenever a plugin reacts. There is at most one call from a call site to a callee.
The reached methods are listed once, and they are the nodes of the graph. A call leads from the method
that contains its call site, in the context of the call site, to its callee; the calls of a call site
are filed in the order in which they were found. And a method is an entry in the empty context or the
callee of a method that was reached before it, so that the calls lead to it from an entry. -/
theorem call_graph_charted {σ : Type} {plugins : List (Plugin σ)}
    (guarded : ∀ plugin ∈ plugins, plugin.Public) {p : Program} {sel : Selector}
    {contexts : ContextTable} {own : σ} {s : Solver}
    (shown : Shows (.all plugins) (own, .initial p sel contexts) s) :
    s.program = p ∧ s.Charted := by
  obtain ⟨program, rooted⟩ := (maintained_rooted p).shows (.all guarded)
    (by exact ⟨rfl, Solver.rooted_initial⟩) shown
  exact ⟨program, rooted.charted⟩

open Analysis Lambda.Examples in
/-- On the example, a plugin has found the only call. -/
theorem call_graph_charted_linked :
    Shows (.all linking.plugins) ({}, .initial (.ofDeclarations functions) (.object 1) default)
      linked.solver ∧
    linked.solver.calls.edges = [⟨⟨0⟩, ⟨1⟩, .extension Lambda.callTag ⟨1⟩⟩] ∧
    linked.solver.Charted := by
  have finished : linked.verdict = .finished := by decide +kernel
  have shown := shows_of_finished (.all linking.public_plugins) finished
  exact ⟨shown, by decide +kernel, (call_graph_charted linking.public_plugins shown).2⟩

end PointsTo
