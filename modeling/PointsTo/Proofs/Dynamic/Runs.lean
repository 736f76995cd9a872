import PointsTo.Proofs.Dynamic.Petitions
import PointsTo.Proofs.LeastSolution
import PointsTo.Proofs.Limits.Runs
import PointsTo.Proofs.Termination.Runs

/-!
Runs without plugins. They fail exactly when a method that the constraints make reachable contains a
call that only plugins could take care of, and they name such a call.
-/
namespace PointsTo

open Analysis Solver

/-! ### Calls that only plugins could take care of -/

namespace Program

variable {p : Program} {m : MethodId} {site : CallSiteId} {call : DynamicCall}

/-- A method contains a call that is linked at run time by a mechanism other than the concatenation of
strings. -/
def Requires (p : Program) (m : MethodId) (site : CallSiteId) (call : DynamicCall) : Prop :=
  ∃ d decl, p.methods[m]? = some d ∧ .invoke site ∈ d.body ∧ p.callSites[site]? = some decl ∧
    decl.kind = .dynamic call ∧ call.bootstrap ≠ .stringConcat

theorem isUnsupported_iff {decl : CallSite} : decl.isUnsupported = true ↔
    ∃ call, decl.kind = .dynamic call ∧ call.bootstrap ≠ .stringConcat := by
  unfold CallSite.isUnsupported
  cases decl.kind with
  | dynamic call => simp
  | static | special | virtual | interface => simp

/-- Plugins are asked about the calls that a method contains and that only they could take care of. -/
theorem mem_petitions {pair : InContext .method} {e : Event} : e ∈ p.petitions pair ↔
    ∃ site call, p.Requires pair.entity site call ∧ e = .unresolved none pair.context site := by
  unfold petitions
  constructor
  · intro mem
    split at mem
    next d hd =>
      obtain ⟨statement, hs, asked⟩ := List.mem_flatMap.1 mem
      cases statement with
      | invoke site =>
        simp only [petitionsOf] at asked
        split at asked
        next unsupported =>
          obtain ⟨decl, hdecl, unsupported⟩ := (Option.any_eq_true _ _).1 unsupported
          obtain ⟨call, hk, other⟩ := isUnsupported_iff.1 unsupported
          exact ⟨site, call, ⟨d, decl, hd, Array.mem_toList_iff.1 hs, hdecl, hk, other⟩,
            List.mem_singleton.1 asked⟩
        next => cases asked
      | _ => cases asked
    next => cases mem
  · rintro ⟨site, call, ⟨d, decl, hd, hs, hdecl, hk, other⟩, rfl⟩
    rw [hd]
    refine List.mem_flatMap.2 ⟨_, Array.mem_toList_iff.2 hs, ?_⟩
    rw [petitionsOf, if_pos]
    · exact List.mem_singleton_self _
    · rw [hdecl]
      exact isUnsupported_iff.2 ⟨call, hk, other⟩

/-- A fault that names a call which is required by a method that is reached, and its mechanism. -/
def Blames (p : Program) (F : Solution) (fault : Fault) : Prop :=
  ∃ c m site call text, F.reached c m ∧ p.Requires m site call ∧ p.siteText? site = some text ∧
    fault = .unsupportedDynamicCall text call.bootstrap.name

end Program

/-! ### Runs without plugins -/

/-- What holds throughout a run without plugins: moreover, the state is in order, and plugins would
still have to be asked about all calls that only they could take care of. -/
structure Calm (F : Solution) (p : Program) (sel : Selector) (s : Solver) : Prop
    extends Running F p sel s where
  grounded : Grounded p sel none s
  bounded : s.Bounded sel
  petitioned : s.Petitioned

namespace Calm

variable {F : Solution} {p : Program} {sel : Selector} {s t : Solver}

/-- An event that asks for nothing may be taken away. -/
theorem events (h : Calm F p sel s) {e : Event} {rest : Queue Event}
    (next : s.events.toList = e :: rest.toList) (plain : e.isPetition = false) :
    Calm F p sel { s with events := rest } := by
  have sub : rest.toList ⊆ s.events.toList := by simp [next]
  refine ⟨h.toRunning.events rest sub, (h.grounded.withEvents sub).grounded,
    h.bounded.of_same rfl rfl sub .inl, h.petitioned.grow rfl (.refl _) rfl ?_⟩
  rw [Solver.petitions, Solver.petitions, next, List.filter_cons_of_neg (by simp [plain])]

theorem warn (h : Calm F p sel s) (text : String) : Calm F p sel (s.warn text) where
  toRunning := h.adds h.sound.warn
  grounded := h.grounded.warn.grounded
  bounded := h.bounded.of_same rfl rfl (fun _ => id) .inl
  petitioned := h.petitioned.grow rfl (.refl _) rfl rfl

section Work

variable (room : sel.limit < Context.limitBound)
include room

/-- Where there is room for contexts, the solver's own work fails for internal reasons only. -/
theorem endures : sel.Endures Fault.IsInternal :=
  ⟨trivial, fun _ => trivial, fun crowded => absurd room (Nat.not_lt.2 crowded)⟩

/-- Work does not fail. -/
theorem ends_step (h : Calm F p sel s) (supports : F.Supports p sel) :
    Ends Solve.step s (fun more t => Calm F p sel t ∧ (more = false → t = s ∧ Solve.Idle s))
      fun _ _ => False := by
  have safe := Solve.safe_step h.grounded
  have confined := Solve.confines_step (endures room) h.bounded
  refine .of_run (fun more t run => ?_) fun fault t run => ?_
  · obtain ⟨hi, grows, -, last⟩ := Solve.ensures_step h.toInvariant
      (by rwa [h.program, h.selector]) (h.program ▸ h.grounded.wellFormed.indexed) more t run
    exact ⟨⟨h.toRunning.grows grows hi, (safe.ensures more t run).grounded,
      (confined.ensures more t run).1, Solve.petitions_step s more t run h.petitioned⟩, last⟩
  · exact safe.not_isInternal run (confined.failed run).1

/-- The entries are reached without a fault. -/
theorem ends_reachEntries (supports : F.Supports p sel) (built : p.WellFormed) (contexts : ContextTable) :
    Ends Solve.reachEntries (.initial p sel contexts) (fun _ t => Calm F p sel t)
      fun _ _ => False := by
  have safe := Solve.advancing_reachEntries (grounded_initial sel contexts built)
  have bounded : (initial p sel contexts).Bounded sel := bounded_initial
  have confined := Solve.confines_reachEntries (endures room) bounded
  refine .of_run (fun _ t run => ?_) fun fault t run => ?_
  · obtain ⟨hi, grows, -, entries⟩ := Solve.ensures_reachEntries invariant_initial supports ⟨⟩ t run
    exact ⟨⟨hi, grows.program, grows.selector, entries⟩, (safe.ensures ⟨⟩ t run).1.grounded,
      (confined.ensures ⟨⟩ t run).1, Solve.petitions_reachEntries _ ⟨⟩ t run .initial⟩
  · exact safe.not_isInternal run (confined.failed run).1

end Work

/-- A method that only plugins could take care of is reached where an event asks for help. -/
theorem requires_of_asked (h : Calm F p sel s) {c : ContextId} {site : CallSiteId}
    (asked : .unresolved none c site ∈ s.events.toList) :
    ∃ σ m call, F.reached σ m ∧ p.Requires m site call := by
  obtain ⟨cm, pair, reached, hpair, mem⟩ :=
    h.petitioned.sound _ (List.mem_filter.2 ⟨asked, rfl⟩)
  rw [h.program] at mem
  obtain ⟨site, call, requires, same⟩ := Program.mem_petitions.1 mem
  obtain ⟨σ, m, hcm, fact⟩ := h.sound.reached cm reached
  obtain ⟨d, hd, -⟩ := Elements.copy?_eq_some_iff.1 hcm
  cases hpair.symm.trans hd
  cases same
  exact ⟨σ, m, call, fact, requires⟩

/-- A refusal is told to the user when a receiver is known; otherwise the run fails, and names the
call. -/
theorem ends_reject (receiver : Option ContextObjectId) (site : CallSiteId) :
    Ends (reject receiver site) s (fun _ t => receiver ≠ none ∧ ∃ text, t = s.warn text) fun fault _ =>
      fault = .unknownId ∨ receiver = none ∧ ∀ decl call, s.program.callSites[site]? = some decl →
        decl.kind = .dynamic call → ∃ text, s.program.siteText? site = some text ∧
          fault = .unsupportedDynamicCall text call.bootstrap.name := by
  have unknown {α : Type} {f : Solve α} {P : α → Prop} (look : Solve.Looks f s P) :
      Ends f s (fun a t => t = s ∧ P a) fun fault _ => fault = .unknownId ∨ receiver = none ∧
        ∀ decl call, s.program.callSites[site]? = some decl → decl.kind = .dynamic call →
          ∃ text, s.program.siteText? site = some text ∧
            fault = .unsupportedDynamicCall text call.bootstrap.name :=
    look.mono (fun _ _ => id) fun _ _ failed => .inl failed.2
  cases receiver with
  | none =>
    refine (unknown Solve.looks_callSite).bind ?_
    rintro decl _ ⟨rfl, hdecl⟩
    refine (unknown Solve.looks_siteText).bind ?_
    rintro text _ ⟨rfl, htext⟩
    refine .inr ⟨rfl, fun decl' call hdecl' hk => ⟨text, htext, ?_⟩⟩
    cases hdecl.symm.trans hdecl'
    rw [hk]
  | some o =>
    refine (unknown Solve.looks_siteText).bind ?_
    rintro text _ ⟨rfl, -⟩
    refine (unknown Solve.looks_objectAt).bind ?_
    rintro a _ ⟨rfl, -⟩
    refine (unknown Solve.looks_catalog).bind ?_
    rintro catalog _ ⟨rfl, -⟩
    refine (unknown Solve.looks_known).bind ?_
    rintro name _ ⟨rfl, -⟩
    exact ⟨nofun, _, rfl⟩

variable {σ : Type} {own : σ}

/-- Without plugins, nothing is done about an event but to refuse a call. The refusal of one that only
plugins could take care of ends the run. -/
theorem ends_dispatch (h : Calm F p sel s) {e : Event} {rest : Queue Event}
    (next : s.events.toList = e :: rest.toList) :
    Ends (dispatch (.all []) e) (own, { s with events := rest })
      (fun _ st => Calm F p sel st.2) fun fault _ => p.Blames F fault := by
  cases e with
  | method | contextMethod | call | objects => exact h.events next rfl
  | unresolved receiver c site =>
    have asked : .unresolved receiver c site ∈ s.events.toList := by simp [next]
    have sub : rest.toList ⊆ s.events.toList := by simp [next]
    have advances := h.grounded.withEvents sub
    have vouched := (h.grounded.announced _ asked).kept advances.toKeeps
    have safe := advancing_reject vouched advances.grounded
    refine Reaction.ends_solve (.of_run (fun _ t run => ?_) fun fault t run => ?_)
    · obtain ⟨known, text, rfl⟩ := (ends_reject receiver site).ensures _ t run
      refine (h.events next ?_).warn text
      cases receiver with
      | none => exact absurd rfl known
      | some => rfl
    · obtain rfl | ⟨rfl, blames⟩ := (ends_reject receiver site).failed run
      · exact absurd trivial (safe.not_isInternal run)
      · obtain ⟨c, m, call, reached, requires⟩ := h.requires_of_asked asked
        obtain ⟨d, decl, hd, hs, hdecl, hk, other⟩ := requires
        rw [h.program] at blames
        obtain ⟨text, htext, named⟩ := blames decl call hdecl hk
        exact ⟨c, m, site, call, text, reached, ⟨d, decl, hd, hs, hdecl, hk, other⟩, htext, named⟩

/-- When nothing is left to do, no method is reached that requires plugins. -/
theorem supported (h : Calm F p sel s) (core : ∀ via c site c' m, F.calls via c site c' m → via.IsCore)
    (quiet : s.Quiet) {c : Situation} {m : MethodId} (reached : (Solution.least p sel).reached c m)
    {site : CallSiteId} {call : DynamicCall} : ¬ p.Requires m site call := by
  intro requires
  obtain ⟨cm, hcm, place⟩ := reached _ (h.closed quiet core)
  obtain ⟨pair, hpair, asked⟩ := h.petitioned.complete cm hcm
  obtain ⟨d, hd, -⟩ := Elements.copy?_eq_some_iff.1 place
  cases hpair.symm.trans hd
  rw [h.program] at asked
  have mem := asked (Program.mem_petitions.2 ⟨site, call, requires, rfl⟩)
  rw [petitions, quiet.1] at mem
  cases mem

/-- What a transition does: it goes on, or there is nothing left to do. -/
theorem ends_transition (room : sel.limit < Context.limitBound) (supports : F.Supports p sel)
    {st : σ × Solver} (h : Calm F p sel st.2) : Ends (Analysis.step (.all [])) st
      (fun more st' => if more then Calm F p sel st'.2 else Calm F p sel st'.2 ∧ st'.2.Quiet)
      fun fault _ => p.Blames F fault := by
  obtain ⟨own, s⟩ := st
  have chosen : Ends (Reaction.solve nextEvent) (own, s) _ fun fault _ => p.Blames F fault :=
    Reaction.ends_solve (Q := fun event st => st.1 = own ∧ Takes s event st.2)
      (ends_nextEvent.mono (fun _ _ chosen => ⟨rfl, chosen⟩) fun _ _ => False.elim)
  refine chosen.bind ?_
  rintro event ⟨_, t⟩ ⟨rfl, chosen⟩
  cases event with
  | some e =>
    obtain ⟨rest, next, rfl⟩ := chosen
    exact (h.ends_dispatch next).bind fun _ _ h => h
  | none =>
    obtain ⟨noEvents, rfl⟩ := chosen
    refine Reaction.ends_solve ((h.ends_step room supports).mono (fun more t done => ?_)
      fun _ _ => False.elim)
    obtain ⟨ht, last⟩ := done
    cases more with
    | true => exact ht
    | false =>
      obtain ⟨rfl, idle⟩ := last rfl
      exact ⟨ht, noEvents, idle⟩

end Calm

/-- When a run without plugins finishes, no reached method requires them; when it fails, it names a call
for which one does. -/
theorem ends_plain {p : Program} {sel : Selector} (built : p.WellFormed)
    (room : sel.limit < Context.limitBound) {σ : Type} (contexts : ContextTable) (own : σ) (fuel : Nat) :
    ((analyze fuel (.all []) own (.initial p sel contexts)).verdict = .finished →
      ∀ c m site call, (Solution.least p sel).reached c m → ¬ p.Requires m site call) ∧
    ∀ fault, (analyze fuel (.all []) own (.initial p sel contexts)).verdict = .failed fault →
      p.Blames (.least p sel) fault := by
  have supports : ((Solution.least p sel).justified p sel).Supports p sel :=
    Solution.closed_least.supports_justified built.owned
  have core (via c site c' m) (call : ((Solution.least p sel).justified p sel).calls via c site c' m) :
      via.IsCore := by
    obtain ⟨-, decl, -, -, selects⟩ := call
    exact Solution.isCore_of_via? selects.via_eq
  let I (st : σ × Solver) := Calm ((Solution.least p sel).justified p sel) p sel st.2
  let L := ∀ c m site call, (Solution.least p sel).reached c m → ¬ p.Requires m site call
  let E (fault : Fault) (_ : σ × Solver) := p.Blames (.least p sel) fault
  have start : Ends (Plugin.all []).onStart (own, .initial p sel contexts) (fun _ st =>
      Ends (Reaction.solve Solve.reachEntries) st (fun _ => I) E) E :=
    Reaction.ends_solve ((Calm.ends_reachEntries room supports built contexts).mono
      (fun _ _ calm => calm) fun _ _ => False.elim)
  have finish (st : σ × Solver) (h : I st ∧ st.2.Quiet) :
      Ends (Plugin.all []).onFinish st (fun _ _ => L) E :=
    fun c m site call reached => h.1.supported core h.2 reached
  generalize ran : analyze fuel (.all []) own (.initial p sel contexts) = r
  have ends := ends_analyze (fun st h => Calm.ends_transition room supports h) start finish ran
  rcases r with ⟨_ | fault | _, own', t⟩
  · exact ⟨fun _ => ends, nofun⟩
  · refine ⟨nofun, ?_⟩
    rintro _ ⟨⟩
    exact ends
  · exact ⟨nofun, nofun⟩

/-- Calls that only plugins could take care of fail a run without plugins exactly when they are
reachable. Take any accepted program, and any selector under whose limit there is room for contexts. The
run comes to an end. It finishes if and only if no method requires plugins among those that the least
solution of the constraints reaches; otherwise it names a call for which such a method does, and the
mechanism that links it. The run may start with contexts left behind by other runs. -/
theorem unsupported_calls_fail {d : Description} {p : Program}
    (accepted : d.assemble.result = .ok p) {sel : Selector} (room : sel.limit < Context.limitBound)
    {σ : Type} (contexts : ContextTable) (own : σ) : ∃ n r,
    (∀ fuel ≥ n, analyze fuel (.all []) own (.initial p sel contexts) = r) ∧
    (r.verdict = .finished ↔
      ∀ c m site call, (Solution.least p sel).reached c m → ¬ p.Requires m site call) ∧
    (r.verdict ≠ .finished → ∃ c m site call text, (Solution.least p sel).reached c m ∧
      p.Requires m site call ∧ p.siteText? site = some text ∧
      r.verdict = .failed (.unsupportedDynamicCall text call.bootstrap.name)) := by
  have built := Description.wellFormed_of_assemble accepted
  have guarded : (Plugin.all ([] : List (Plugin σ))).Public := .all (by simp)
  have secure : (Plugin.all ([] : List (Plugin σ))).Secure p sel fun _ _ => True := .all (by simp)
  obtain ⟨all, down⟩ := exists_left_lt_of_secure guarded secure (fun _ _ _ _ _ => trivial) built
    contexts own trivial
  obtain ⟨n, r, ended, same⟩ := exists_end_of_run down
  obtain ⟨finished, failed⟩ := ends_plain built room contexts own n
  rw [same n le_rfl] at finished failed
  have blames (unfinished : r.verdict ≠ .finished) :
      ∃ fault, r.verdict = .failed fault ∧ p.Blames (.least p sel) fault := by
    cases verdict : r.verdict with
    | finished => exact absurd verdict unfinished
    | unfinished => exact absurd verdict ended
    | failed fault => exact ⟨fault, rfl, failed fault verdict⟩
  refine ⟨n, r, same, ⟨finished, fun supported => ?_⟩, fun unfinished => ?_⟩
  · by_contra unfinished
    obtain ⟨fault, -, c, m, site, call, text, reached, requires, -⟩ := blames unfinished
    exact supported c m site call reached requires
  · obtain ⟨fault, verdict, c, m, site, call, text, reached, requires, named, rfl⟩ :=
      blames unfinished
    exact ⟨c, m, site, call, text, reached, requires, named, verdict⟩

open Examples in
/-- The example asks for a function value in its entry. -/
theorem unsupported_calls_fail_supply : supply.assemble.result = .ok supplyProgram ∧
    Selector.limit (.object 2) < Context.limitBound ∧
    (analyze 30 (.all []) () (.initial supplyProgram (.object 2) leftBehind)).verdict =
      .failed (.unsupportedDynamicCall "<A: void main()>[0]get" "LambdaMetafactory") ∧
    ∃ n r, (∀ fuel ≥ n, analyze fuel (.all []) () (.initial supplyProgram (.object 2) leftBehind) = r) ∧
      (r.verdict = .finished ↔ ∀ c m site call, (Solution.least supplyProgram (.object 2)).reached c m →
        ¬ supplyProgram.Requires m site call) ∧
      (r.verdict ≠ .finished → ∃ c m site call text,
        (Solution.least supplyProgram (.object 2)).reached c m ∧ supplyProgram.Requires m site call ∧
        supplyProgram.siteText? site = some text ∧
        r.verdict = .failed (.unsupportedDynamicCall text call.bootstrap.name)) := by
  have accepted : supply.assemble.result = .ok supplyProgram := eq_ok_of_isOk (by decide +kernel)
  have room : Selector.limit (.object 2) < Context.limitBound := by decide +kernel
  exact ⟨accepted, room, by decide +kernel, unsupported_calls_fail accepted room leftBehind ()⟩

namespace Examples

/-- A program whose entry calls a static method. -/
def calling : Description where
  classes :=
    [⟨"A", none, [], false, false, [],
      [⟨"f", [], "void", true, false, [], []⟩,
       ⟨"main", [], "void", true, false, [], [.invoke .static "<A: void f()>" none [] none]⟩]⟩]
  entries := ["<A: void main()>"]

def callingProgram : Program := calling.assemble.result.toOption.getD default

end Examples

theorem Analysis.verdict_of_entries {σ : Type} {fuel : Nat} {own : σ} {s : Solver} {fault : Fault}
    (failed : (Solve.reachEntries s).1 = .error fault) :
    (analyze fuel (.all []) own s).verdict = .failed fault := by
  rcases run : Solve.reachEntries s with ⟨r, t⟩
  rw [run] at failed
  have entries : Reaction.solve Solve.reachEntries (own, s) = (.error fault, own, t) := by
    simp only [Reaction.solve, run, show r = _ from failed]
  have whole : runWithin fuel (.all []) (own, s) = (.error fault, own, t) := by
    change (do
      Reaction.solve Solve.reachEntries
      if ← loop (.all []) fuel then
        return .finished
      else return .unfinished : Reaction σ Verdict) (own, s) = _
    rw [Ensures.bind_run, entries]
  simp only [analyze, whole]

open Examples in
/-- Without room for contexts, a run fails although its program contains no call that only plugins could
take care of. -/
theorem supported_calls_crowded : calling.assemble.result = .ok callingProgram ∧
    (∀ fuel, (analyze fuel (.all []) ()
      (.initial callingProgram (.callSite Context.limitBound) default)).verdict = .failed .noRoom) ∧
    ∀ c m site call, (Solution.least callingProgram (.callSite Context.limitBound)).reached c m →
      ¬ callingProgram.Requires m site call := by
  have accepted : calling.assemble.result = .ok callingProgram := eq_ok_of_isOk (by decide +kernel)
  have entries : (Solve.reachEntries (.initial callingProgram (.callSite Context.limitBound)
      default)).1 = .error .noRoom := by decide +kernel
  have static : ∀ decl ∈ callingProgram.callSites.toList, decl.kind = .static := by decide +kernel
  refine ⟨accepted, fun fuel => verdict_of_entries entries, fun c m site call _ => ?_⟩
  rintro ⟨d, decl, -, -, hdecl, hk, -⟩
  cases hk.symm.trans (static decl (Roster.mem_toList_iff.2 ⟨site, hdecl⟩))

end PointsTo
