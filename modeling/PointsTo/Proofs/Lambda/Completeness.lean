import PointsTo.Proofs.Configured

/-!
What function values have achieved when a run ends, with or without taint tracking: none of them is
missing, and no call on them, whenever its receivers arrived.
-/
namespace PointsTo

open Facts

namespace Sound

variable {F : Solution} {s : Solver} {P : Place} {v : Value}

/-- Whatever a place holds fits the program. -/
theorem fits_of_points (hs : Sound F s) (points : s.Points P v) : s.program.Fits v.object := by
  obtain ⟨o, ho⟩ := Solver.exists_object_of_points points
  exact hs.fits o v.object ho

/-- There is one function value for each creation site. -/
theorem eq_functionValue (hs : Sound F s) (owned : s.program.toCatalog.Scoped) {m : MethodId}
    {site : CallSiteId} {result : VarId} {type : TypeId}
    (creates : Lambda.Creates s.program m site result type) (points : s.Points P v)
    (origin : v.object.origin = .mock Lambda.functionValue site) :
    v.object = ⟨.mock Lambda.functionValue site, type, some m⟩ := by
  obtain ⟨d, decl, hd, mem, hdecl, -, -, ht⟩ := creates
  have fits := hs.fits_of_points points
  obtain ⟨context, ⟨origin', type', container⟩⟩ := v
  cases origin
  have houses : s.program.Houses Lambda.functionValue site type' container := fits
  obtain ⟨_, _, decl', -, -, -, hdecl', ht'⟩ := houses.made rfl
  cases hdecl.symm.trans hdecl'
  cases ht.symm.trans ht'.result
  rw [Lambda.container_of_houses owned hd mem houses]

/-- There is one constructed object for each creation site and each class. -/
theorem eq_constructed (hs : Sound F s) {u : Lambda.Use} {created : CallSite} {d : MethodDecl}
    (hc : s.program.callSites[u.creation]? = some created) (points : s.Points P v)
    (origin : v.object.origin = .mock Lambda.constructedObject u.creation)
    (type : v.object.type = d.ref.owner) : v.object = (u.constructed created d).object := by
  have fits := hs.fits_of_points points
  obtain ⟨context, ⟨origin', type', container⟩⟩ := v
  cases origin
  cases type
  have houses : s.program.Houses Lambda.constructedObject u.creation d.ref.owner container := fits
  rw [Lambda.Use.constructed, houses.bound (.inr rfl) created hc]

end Sound

namespace Lambda

/-- A method is called on a receiver, which is bound to its `this`. -/
structure Use.Invokes (u : Use) (p : Program) (sel : Selector) (F : Solution) (o : Value)
    (callee : MethodId) : Prop where
  call : ∃ via, F.calls via u.context u.site
    (sel.dispatchSituation p.toCatalog u.context u.site o) callee
  receiver : ∀ d this, p.methods[callee]? = some d → d.receiver = some this →
    F.points (.var (sel.dispatchSituation p.toCatalog u.context u.site o) this) o

/-- What a call on a function value that hands over `target` comes to, by the kind of its handle: the
call of a static method, the call of a constructor on a new object, which is also the result, or the
calls of what `target` is on each of the receivers. -/
structure Use.Served (u : Use) (p : Program) (sel : Selector) (F : Solution)
    (decl created : CallSite) (handle : MethodHandle) (target : MethodId) : Prop where
  static : handle.kind = .invokeStatic →
    ∃ via, F.calls via u.context u.site (sel.calleeSituation u.context u.site) target
  constructor : handle.kind = .newInvokeSpecial → ∃ d, p.methods[target]? = some d ∧
    u.Invokes p sel F (u.constructed created d) target ∧
    (∀ result, decl.result = some result →
      F.points (.var u.context result) (u.constructed created d)) ∧
    ∀ P v, F.points P v → v.object.origin = .mock constructedObject u.creation →
      v.object.type = d.ref.owner → v.object = (u.constructed created d).object
  receivers : handle.kind ∈ [.invokeInterface, .invokeVirtual, .invokeSpecial] →
    ∀ P, u.receiver? decl created = some P → ∀ o, F.points P o → ∀ m,
      p.dispatch o.object.type handle.target.sub = some m → u.Invokes p sel F o m

variable {F : Solution} {l : State} {s : Solver} {u : Use} {p : Program} {sel : Selector}

/-- In a quiet state a method that has been called is on record as called. -/
theorem Use.Serves.invokes {o : Value} {callee : MethodId} (h : u.Serves s o callee)
    (running : Analysis.Running F p sel s) (quiet : s.Quiet) :
    u.Invokes p sel s.facts o callee := by
  obtain ⟨rfl, rfl⟩ := And.intro running.program running.selector
  exact ⟨running.calls_of_quiet quiet h.1, h.2⟩

/-- In a quiet state the calls on a function value that a call site meets have been made. -/
theorem Attends.served (h : Attends l s) (running : Analysis.Running F p sel s) (quiet : s.Quiet)
    (meets : u.Meets p s.facts.points) {decl created : CallSite} {handle : MethodHandle}
    {target : MethodId} (takes : u.Takes p decl created handle target) :
    u.Served p sel s.facts decl created handle target := by
  have engaged := h.engaged running quiet meets
  have settled := engaged decl created handle target (by rw [running.program]; exact takes)
  refine ⟨fun hk => ?_, fun hk => ?_, fun hk P receiver o points m hm => ?_⟩
  · rw [hk, Use.Settled, running.selector] at settled
    exact running.calls_of_quiet quiet settled
  · rw [hk] at settled
    obtain ⟨d, hd, serves, placed⟩ := settled
    rw [running.program] at hd
    refine ⟨d, hd, serves.invokes running quiet, placed, fun P v points origin type => ?_⟩
    exact running.sound.eq_constructed (by rw [running.program]; exact takes.creation) points
      origin type
  · have waits : u.Waits l s decl created := by
      simp only [List.mem_cons, List.not_mem_nil, or_false] at hk
      obtain hk | hk | hk := hk <;>
      · rw [hk] at settled
        exact settled
    obtain ⟨bootstrap, hk⟩ := takes.kind
    have answers := h.answers running quiet waits receiver points
    rw [Use.Answers, running.program] at answers
    exact (answers _ _ _ _ takes.creation hk hm).invokes running quiet

/-! ### Finished runs -/

/-- Function values are never missed. When a run with function values ends without a fault, with or
without taint tracking and for whatever selector, then in every context in which a method is reached the
one function value of each of its creation sites is an object of the result, and every call on a
function value has been made, on all the receivers that there are in the end. -/
theorem function_values_served {ds : List Declaration} {p : Program}
    (built : (Builder.ofDeclarations ds).build = .ok p) {c : Configuration} (on : c.lambda = true)
    {contexts : ContextTable} {fuel : Nat} {r : Run Extensions}
    (ran : analyze fuel (.all c.plugins) {} (.initial p c.selector contexts) = r)
    (finished : r.verdict = .finished) :
    (∀ d m site result type, r.solver.facts.reached d m → Creates p m site result type →
      r.solver.facts.points (.var d result) (valueIn d m site type) ∧
      ∀ P v, r.solver.facts.points P v → v.object.origin = .mock functionValue site →
        v.object = (valueIn d m site type).object) ∧
    ∀ (u : Use) decl created handle target, u.Meets p r.solver.facts.points →
      u.Takes p decl created handle target →
        u.Served p c.selector r.solver.facts decl created handle target := by
  have owned := Program.scoped_of_build built
  obtain ⟨runs, quiet, -⟩ := Configuration.runs_of_finished Configuration.confines_all
    (Program.indexed_of_build built) owned ran finished
  have tends := runs.lambda on
  refine ⟨?_, fun u decl created handle target meets takes =>
    tends.served runs.toRunning quiet meets takes⟩
  rintro d m site result type ⟨cm, reached, hcm⟩ creates
  rw [← runs.program] at creates owned
  obtain announced | seated := tends.receives.contextMethods cm reached
  · rw [Solver.entrances, quiet.1] at announced
    cases announced
  exact ⟨seated d m hcm site result type creates,
    fun P v points origin => runs.sound.eq_functionValue owned creates points origin⟩

namespace Examples

/-- Function values, beside taint tracking without rules. -/
def linking : Configuration := ⟨.object 1, true, some {}⟩

def linked : Run Extensions :=
  analyze 100 (.all linking.plugins) {} (.initial (.ofDeclarations functions) (.object 1) default)

theorem linked_eq : analyze 100 (.all linking.plugins) {}
    (.initial (.ofDeclarations functions) linking.selector default) = linked := rfl

theorem built_functions :
    (Builder.ofDeclarations functions).build = .ok (.ofDeclarations functions) :=
  Program.build_ofDeclarations (by decide +kernel)

/-- The handle of the method of the class. -/
def applies : MethodHandle := ⟨.invokeVirtual, ⟨2⟩, "apply", [⟨0⟩], some ⟨0⟩⟩

/-- The creation of the function value. -/
def referring : CallSite :=
  ⟨⟨4⟩, 0, .dynamic ⟨.lambda, some applies⟩, ⟨⟨4⟩, "apply", [], some ⟨3⟩⟩, none, [], some ⟨11⟩⟩

end Examples

open Lambda.Examples in
/-- The function value is made, and the method that it hands over is called on the first argument. -/
theorem function_values_served_functions : linked.verdict = .finished ∧
    linked.solver.facts.points (.var [] ⟨11⟩) (valueIn [] ⟨4⟩ ⟨0⟩ ⟨3⟩) ∧
    (Use.mk [] ⟨1⟩ [] ⟨0⟩).Invokes (.ofDeclarations functions) (.object 1) linked.solver.facts
      ⟨[], .allocation ⟨4⟩ 0, ⟨2⟩, some ⟨4⟩⟩ ⟨1⟩ := by
  let u : Use := ⟨[], ⟨1⟩, [], ⟨0⟩⟩
  let a : Value := ⟨[], .allocation ⟨4⟩ 0, ⟨2⟩, some ⟨4⟩⟩
  let main : MethodDecl := ⟨⟨⟨4⟩, "main", [], none⟩, true, false, none, [], [],
    #[.new ⟨9⟩ ⟨2⟩, .assign ⟨10⟩ ⟨9⟩, .invoke ⟨0⟩, .assign ⟨11⟩ ⟨10⟩, .invoke ⟨1⟩]⟩
  obtain ⟨hd, hdecl, hcreated, target, contains, base, none, dispatched⟩ :
      (Program.ofDeclarations functions).methods[(⟨4⟩ : MethodId)]? = some main ∧
      (Program.ofDeclarations functions).callSites[(⟨1⟩ : CallSiteId)]? = some applying ∧
      (Program.ofDeclarations functions).callSites[(⟨0⟩ : CallSiteId)]? = some referring ∧
      (Program.ofDeclarations functions).resolve applies.target = some ⟨1⟩ ∧
      (Program.ofDeclarations functions).Contains (.invoke ⟨1⟩) ∧
      (Program.ofDeclarations functions).base? (.invoke ⟨1⟩) = some ⟨11⟩ ∧
      (Program.ofDeclarations functions).dispatch ⟨3⟩ applying.target.sub = none ∧
      (Program.ofDeclarations functions).dispatch a.object.type applies.target.sub = some ⟨1⟩ := by
    decide +kernel
  obtain ⟨finished, reached, receiver⟩ : linked.verdict = .finished ∧
      linked.solver.facts.reached [] ⟨4⟩ ∧ linked.solver.facts.points (.var [] ⟨9⟩) a := by
    decide +kernel
  obtain ⟨values, served⟩ := function_values_served built_functions rfl linked_eq finished
  obtain ⟨value, -⟩ := values [] ⟨4⟩ ⟨0⟩ ⟨11⟩ ⟨3⟩ reached
    ⟨main, referring, hd, by decide +kernel, hcreated, rfl, rfl, rfl⟩
  have meets : u.Meets (.ofDeclarations functions) linked.solver.facts.points :=
    ⟨⟨11⟩, valueIn [] ⟨4⟩ ⟨0⟩ ⟨3⟩, value, ⟨contains, base, applying, hdecl, none⟩, rfl, rfl⟩
  have takes : u.Takes (.ofDeclarations functions) applying referring applies ⟨1⟩ :=
    ⟨hdecl, hcreated, rfl, ⟨_, rfl⟩, target⟩
  exact ⟨finished, value, (served u _ _ _ _ meets takes).receivers (by decide) (.var [] ⟨9⟩) rfl a
    receiver ⟨1⟩ dispatched⟩

end Lambda
end PointsTo
