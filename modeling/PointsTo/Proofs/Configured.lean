import PointsTo.Proofs.Lambda.Supplies
import PointsTo.Proofs.Provenance.Plugins
import PointsTo.Proofs.Taint.Runs

/-!
Runs with the plugins that come with the analysis, whichever of them are on: each attends to every
event, and what one of them adds does not undo what another has done.
-/
namespace PointsTo

open Facts

namespace Extensions

/-- Function values have nothing to do before and after a run. -/
theorem onStart_lambdaPlugin : lambdaPlugin.onStart = pure () := rfl

theorem onFinish_lambdaPlugin : lambdaPlugin.onFinish = pure () := rfl

theorem onStart_taintPlugin {rules : Taint.Rules} : (taintPlugin rules).onStart = pure () := rfl

end Extensions

namespace Configuration

variable {c : Configuration} {F : Solution} {p : Program}

/-- Sets of facts that neither the constraints nor taint tracking lead out of. Function values may
lead anywhere. -/
structure Confines (c : Configuration) (F : Solution) (p : Program) : Prop where
  supports : F.Supports p c.selector
  lambda : c.lambda = true → F = .all
  taint : ∀ rules, c.rules = some rules → F.Taints p rules

theorem confines_all : c.Confines .all p where
  supports := Solution.supports_all
  lambda _ := rfl
  taint _ _ := ⟨fun _ _ _ _ _ _ _ _ _ _ _ _ => Solution.points_all,
    fun _ _ _ _ _ _ _ _ _ _ _ _ _ _ _ _ _ _ _ => Solution.points_all⟩

/-- What holds throughout a run. -/
structure Runs (c : Configuration) (F : Solution) (p : Program) (own : Extensions) (s : Solver) :
    Prop extends Analysis.Running F p c.selector s where
  lambda : c.lambda = true → Lambda.Tends own.lambda s
  taint : ∀ rules, c.rules = some rules → Taint.Attends F rules own.taint s
  traced : s.Traced
  sited : Taint.Sited p own.taint

/-- What the reactions to an event achieve. -/
structure Responds (c : Configuration) (F : Solution) (e : Event) (a b : Extensions × Solver) :
    Prop where
  adds : Adds F a.2 b.2
  lambda : c.lambda = true → Lambda.Reacts (a.1.lambda, a.2) (b.1.lambda, b.2) ∧
    Lambda.Handled e a.1.lambda b.2 b.1.lambda ∧
    Lambda.Supplied e a.1.lambda a.2 b.1.lambda b.2
  taint : ∀ rules, c.rules = some rules →
    Taint.Reacts F (a.1.taint, a.2) (b.1.taint, b.2) ∧
    Taint.Handled rules e a.1.taint b.1.taint b.2

variable {own : Extensions} {s : Solver}

/-- What function values have been given lasts while other facts are added. -/
theorem lambda_adds {e : Event} {l l' : Lambda.State} {t u : Solver} (known : Lambda.Knows l s)
    (he : s.Attests .all e) (tu : Adds .all t u)
    (h : Lambda.Reacts (l, s) (l', t) ∧ Lambda.Handled e l t l' ∧ Lambda.Supplied e l s l' t) :
    Lambda.Reacts (l, s) (l', u) ∧ Lambda.Handled e l u l' ∧ Lambda.Supplied e l s l' u := by
  obtain ⟨reacts, handled, supplied⟩ := h
  exact ⟨reacts.trans (.of_adds reacts.knows tu),
    handled.adds known he reacts.adds.toGrows tu.toGrows,
    supplied.adds he reacts.adds.toGrows reacts.knows tu⟩

/-- All plugins respond to an event. -/
theorem ensures_responds (confines : c.Confines F s.program) (hs : Sound F s)
    (known : c.lambda = true → Lambda.Knows own.lambda s)
    (derived : ∀ rules, c.rules = some rules → Taint.Derived F s.program own.taint) {e : Event}
    (he : s.Attests F e) :
    Ensures (Analysis.dispatch (.all c.plugins) e) (own, s) fun _ st =>
      c.Responds F e (own, s) st := by
  have same (on : c.lambda = true) : F = .all := confines.lambda on
  refine ensures_dispatch (P := fun own' t => Adds F s t ∧ own'.taint = own.taint ∧
      (c.lambda = true → Lambda.Reacts (own.lambda, s) (own'.lambda, t) ∧
        Lambda.Handled e own.lambda t own'.lambda ∧
        Lambda.Supplied e own.lambda s own'.lambda t))
    (Q := fun own' t => c.Responds F e (own, s) (own', t))
    (fun on => ?_) (fun off => ?_) (fun rules on => ?_) (fun off => ?_) ?_
  · -- function values react first
    cases same on
    refine ((Lambda.ensures_react hs (known on) he).and
      (Lambda.ensures_supplied hs (known on) he)).mono ?_
    rintro _ st ⟨⟨reacts, handled⟩, supplied⟩
    exact ⟨reacts.adds, rfl, fun _ => ⟨reacts, handled, supplied⟩⟩
  · exact ⟨.refl hs, rfl, fun on => by rw [off] at on; cases on⟩
  · rintro own' t ⟨st, sameTaint, lambda⟩
    have hk := derived rules on
    have hk' : Taint.Derived F t.program own'.taint := by
      rw [st.program, sameTaint]
      exact hk
    have taints : F.Taints t.program rules := by
      rw [st.program]
      exact confines.taint rules on
    refine (Taint.ensures_react st.sound hk' taints (he.grows st.toGrows)).mono ?_
    rintro _ ⟨k, u⟩ ⟨reacts, handled⟩
    refine ⟨st.trans reacts.adds, fun on => ?_, fun rules' on' => ?_⟩
    · have tu := reacts.adds
      rw [same on] at tu he
      exact lambda_adds (known on) he tu (lambda on)
    · cases on.symm.trans on'
      rw [sameTaint] at reacts handled
      exact ⟨.trans (.of_adds hk st) reacts, handled⟩
  · rintro own' t ⟨st, -, lambda⟩
    exact ⟨st, lambda, fun rules on => by rw [off] at on; cases on⟩
  · rintro own' t text ⟨st, lambda, taint⟩
    refine ⟨st.trans st.sound.warn, fun on => ?_, fun rules on => ?_⟩
    · have tu : Adds F t (t.warn text) := st.sound.warn
      rw [same on] at tu he
      exact lambda_adds (known on) he tu (lambda on)
    · obtain ⟨reacts, handled⟩ := taint rules on
      have tu : Adds F t (t.warn text) := st.sound.warn
      exact ⟨reacts.trans (.of_adds reacts.derived tu),
        handled.adds st.sound (he.grows st.toGrows) tu⟩

/-- What the plugins add in response to an event can be traced. -/
theorem ensures_tracked (sited : Taint.Sited s.program own.taint) {e : Event}
    (recorded : ∀ edge, e = .call edge → ∃ call, s.calls.Records call ∧ call.edge = edge) :
    Ensures (Analysis.dispatch (.all c.plugins) e) (own, s) fun _ st =>
      s.Traces st.2 ∧ Taint.Sited s.program st.1.taint := by
  refine ensures_dispatch (P := fun own' t => s.Traces t ∧ own'.taint = own.taint)
    (Q := fun own' t => s.Traces t ∧ Taint.Sited s.program own'.taint) (fun _ => ?_)
    (fun _ => ⟨refl_of Solver.Traces s, rfl⟩) (fun rules _ => ?_) (fun _ own' t h => ?_) ?_
  · exact (Lambda.traces_react recorded).mono fun _ st traces => ⟨traces, rfl⟩
  · rintro own' t ⟨st, same⟩
    refine (Taint.sitedTraces_react (p := s.program) (own'.taint, t)).mono ?_
    rintro _ ⟨k, u⟩ tracks
    rw [same] at tracks
    obtain ⟨tu, sited⟩ := tracks st.program sited
    exact ⟨trans_of Solver.Traces st tu, sited⟩
  · exact ⟨h.1, h.2 ▸ sited⟩
  · rintro own' t text ⟨st, sited⟩
    exact ⟨trans_of Solver.Traces st (.of_same Solver.extends_warn.toGrows rfl rfl rfl), sited⟩

/-! ### Whole runs -/

namespace Runs

variable {t : Solver}

/-- A piece of work announces what it does. -/
theorem work (h : c.Runs F p own s) (running : Analysis.Running F p c.selector t) (g : s.Grows t)
    (told : s.Told t) (welcomes : s.Welcomes t) (traced : t.Traced)
    (same : c.lambda = true → F = .all) : c.Runs F p own t where
  toRunning := running
  traced := traced
  sited := h.sited
  lambda on := by
    have hs := h.sound
    rw [same on] at hs
    exact (h.lambda on).work hs g told welcomes
  taint rules on := (h.taint rules on).work h.sound g told

/-- The handling of an event. -/
theorem event {e : Event} {rest : Queue Event} {own' : Extensions} (h : c.Runs F p own s)
    (next : s.events.toList = e :: rest.toList) (owned : p.toCatalog.Scoped)
    (responds : c.Responds F e (own, { s with events := rest }) (own', t))
    (welcomes : Solver.Welcomes { s with events := rest } t)
    (tracked : Solver.Traces { s with events := rest } t ∧ Taint.Sited p own'.taint)
    (same : c.lambda = true → F = .all) : c.Runs F p own' t where
  toRunning := (h.toRunning.events rest fun e he => by simp [next, he]).adds responds.adds
  traced := by
    have taken : s.Traces { s with events := rest } :=
      ⟨Analysis.grows_events, fun _ => .inl, fun _ _ => .inl,
        fun edge he => .inl (by rw [next]; exact List.mem_cons_of_mem _ he)⟩
    exact (h.traced.traces taken).traces tracked.1
  sited := tracked.2
  lambda on := by
    have hs := h.sound
    rw [same on] at hs
    obtain ⟨reacts, handled, supplied⟩ := responds.lambda on
    exact (h.lambda on).event hs next (by rw [h.program]; exact owned) reacts handled supplied
      welcomes
  taint rules on :=
    have ⟨reacts, handled⟩ := responds.taint rules on
    (h.taint rules on).event h.sound next reacts handled

end Runs

/-- A run reaches a quiet state in which every constraint has contributed, all that is announced has
been dealt with, and the taint flows are left. Whatever else is maintained throughout the run holds
in this state, too. -/
theorem runs_and_of_finished (confines : c.Confines F p) (indexed : p.Indexed)
    (owned : p.toCatalog.Scoped) {J : Extensions → Solver → Prop}
    (start' : ∀ contexts, Ensures Solve.reachEntries (.initial p c.selector contexts) fun _ => J {})
    (event' : ∀ own s e rest, c.Runs F p own s → J own s → s.events.toList = e :: rest.toList →
      Ensures (Analysis.dispatch (.all c.plugins) e) (own, { s with events := rest })
        fun _ st => J st.1 st.2)
    (work' : ∀ own s, c.Runs F p own s → J own s → Ensures Solve.step s fun _ => J own)
    (store' : ∀ own s key finding, J own s → J own (s.store key finding))
    {contexts : ContextTable} {fuel : Nat} {r : Run Extensions}
    (ran : analyze fuel (.all c.plugins) {} (.initial p c.selector contexts) = r)
    (finished : r.verdict = .finished) :
    c.Runs F p r.plugins r.solver ∧ J r.plugins r.solver ∧ r.solver.Quiet ∧
      ∀ rules, c.rules = some rules → ∃ flows, Taint.flows? r.solver rules.sinks = some flows ∧
        r.solver.finding? Taint.findingKey = some (.flows flows) := by
  subst ran
  have start : Ensures Solve.reachEntries (.initial p c.selector contexts) fun _ t =>
      c.Runs F p {} t ∧ J {} t := by
    refine ((((Solve.ensures_reachEntries Analysis.invariant_initial confines.supports).and
      (Solve.welcomes_reachEntries _)).and (Solve.traces_reachEntries (p := p) _)).and
        (start' contexts)).mono ?_
    rintro _ t ⟨⟨⟨⟨hi, st, still, entries⟩, welcomes⟩, traces⟩, kept⟩
    refine ⟨?_, kept⟩
    exact {
      toInvariant := hi
      program := st.program
      selector := st.selector
      entries
      lambda := fun _ => Lambda.Tends.initial.work Analysis.sound_initial st still.told welcomes
      taint := fun _ _ => Taint.Attends.initial.work Analysis.sound_initial st still.told
      traced := Solver.traced_initial.traces (traces rfl)
      sited := Taint.sited_initial }
  let Q (own : Extensions) (s : Solver) := c.Runs F p own s ∧ J own s ∧ s.Quiet ∧
    ∀ rules, c.rules = some rules → ∃ flows, Taint.flows? s rules.sinks = some flows ∧
      s.finding? Taint.findingKey = some (.flows flows)
  refine Analysis.of_finished (Q := Q) finished
    (Analysis.ensures_runWithin (I := fun own s => c.Runs F p own s ∧ J own s) (Q := Q) ?_ ?_ ?_ ?_)
  · rintro own s e rest ⟨h, kept⟩ next
    have running := h.toRunning.events rest fun e he => by simp [next, he]
    have responds : Ensures (Analysis.dispatch (.all c.plugins) e) (own, { s with events := rest })
        fun _ st => c.Responds F e (own, { s with events := rest }) st :=
      ensures_responds (by rw [running.program]; exact confines) running.sound
        (fun on => (h.lambda on).toKnows.grows Analysis.grows_events)
        (fun rules on => (h.taint rules on).derived) (h.sound.announced e (by simp [next]))
    have tracked : Ensures (Analysis.dispatch (.all c.plugins) e) (own, { s with events := rest })
        fun _ st => Solver.Traces { s with events := rest } st.2 ∧
          Taint.Sited s.program st.1.taint :=
      ensures_tracked (by rw [h.program]; exact h.sited)
        fun edge he => h.traced.announced edge (by simp [next, he])
    refine (((responds.and (Analysis.entered_dispatch (.all c.public_plugins) e _)).and tracked).and
      (event' own s e rest h kept next)).mono ?_
    rintro _ ⟨own', t⟩ ⟨⟨⟨responds, entered⟩, traces, sited⟩, kept⟩
    exact ⟨h.event next owned responds entered.contributes.welcomes
      ⟨traces, by rw [← h.program]; exact sited⟩ confines.lambda, kept⟩
  · rintro own s ⟨h, kept⟩ _
    have traced := Solve.traced_step h.traced h.scheduled.filed (by rw [h.program]; exact indexed)
    refine ((((Solve.ensures_step h.toInvariant
      (by rw [h.program, h.selector]; exact confines.supports)
      (by rw [h.program]; exact indexed)).and (Solve.welcomes_step s)).and traced).and
        (work' own s h kept)).mono ?_
    rintro more t ⟨⟨⟨⟨hi, st, told, last⟩, welcomes⟩, traced⟩, kept⟩
    exact ⟨⟨h.work (h.toRunning.grows st hi) st told welcomes traced confines.lambda, kept⟩, last⟩
  · refine Configuration.ensures_forM (P := fun st => st = ({}, .initial p c.selector contexts))
      (fun _ => ?_) (fun _ => rfl) (fun rules _ st' same => ?_) fun _ st' same => ?_
    · rw [Extensions.onStart_lambdaPlugin]
      exact .pure rfl
    · subst same
      rw [Extensions.onStart_taintPlugin]
      exact .pure start
    · subst same
      exact start
  · rintro own s ⟨h, kept⟩ quiet
    refine Configuration.ensures_forM (P := fun st => st = (own, s)) (fun _ => ?_) (fun _ => rfl)
      (fun rules on st' same => ?_) fun off st' same => ?_
    · rw [Extensions.onFinish_lambdaPlugin]
      exact .pure rfl
    · subst same
      rw [Extensions.taintPlugin, Plugin.onFinish_focus]
      refine Reaction.ensures_focus (.bind ensures_solver ?_)
      rintro _ _ ⟨rfl, rfl⟩
      refine .bind (ensures_lookup Solve.ensures_known) ?_
      rintro flows _ ⟨rfl, hflows⟩
      refine ensures_solve (Solve.ensures_modify.mono ?_)
      rintro _ _ rfl
      have stored : Adds F s (s.store Taint.findingKey (.flows flows)) :=
        ⟨Solver.extends_store, { h.sound with }⟩
      have entered : Solver.Entered s (s.store Taint.findingKey (.flows flows)) :=
        .single (.store s _ _)
      refine ⟨h.work (h.toRunning.adds stored) stored.toGrows stored.still.told
        entered.contributes.welcomes (h.traced.traces (.of_same stored.toGrows rfl rfl rfl))
        confines.lambda, store' own s _ _ kept, quiet, fun rules' on' => ?_⟩
      cases on.symm.trans on'
      exact ⟨flows, hflows, by simp [Solver.finding?, Solver.store]⟩
    · subst same
      exact ⟨h, kept, quiet, fun rules on => by rw [off] at on; cases on⟩

theorem runs_of_finished (confines : c.Confines F p) (indexed : p.Indexed) (owned : p.toCatalog.Scoped)
    {contexts : ContextTable} {fuel : Nat} {r : Run Extensions}
    (ran : analyze fuel (.all c.plugins) {} (.initial p c.selector contexts) = r)
    (finished : r.verdict = .finished) :
    c.Runs F p r.plugins r.solver ∧ r.solver.Quiet ∧ ∀ rules, c.rules = some rules →
      ∃ flows, Taint.flows? r.solver rules.sinks = some flows ∧
        r.solver.finding? Taint.findingKey = some (.flows flows) :=
  (runs_and_of_finished (J := fun _ _ => True) confines indexed owned (fun _ _ _ _ => trivial)
    (fun _ _ _ _ _ _ _ _ _ _ => trivial) (fun _ _ _ _ _ _ _ => trivial)
    (fun _ _ _ _ _ => trivial) ran finished).imp id And.right

end Configuration
end PointsTo
