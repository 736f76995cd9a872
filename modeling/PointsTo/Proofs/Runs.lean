import PointsTo.Analysis
import PointsTo.Proofs.Invariant

/-!
Whole runs: what every transition preserves holds when a run ends, and then nothing is left to do.
-/
namespace PointsTo

open Facts

variable {σ : Type}

namespace Solver

/-- The state in which an analysis starts: nothing is known but some contexts, which may stem from
earlier analyses. -/
def initial (p : Program) (sel : Selector) (contexts : ContextTable) : Solver where
  program := p
  selector := sel
  elements := { contexts }

/-- No event, no call and no node is left. -/
def Quiet (s : Solver) : Prop := s.events.toList = [] ∧ Solve.Idle s

end Solver

namespace Analysis

theorem ensures_nextEvent {s : Solver} :
    Ensures nextEvent s fun event t => match event with
      | some e => ∃ rest, s.events.toList = e :: rest.toList ∧ t = { s with events := rest }
      | none => s.events.toList = [] ∧ t = s := by
  refine .bind Solve.ensures_get ?_
  rintro _ _ ⟨rfl, rfl⟩
  split
  next e rest hpop =>
    refine .bind Solve.ensures_set ?_
    rintro _ _ rfl
    exact .pure ⟨rest, Queue.toList_of_pop? hpop, rfl⟩
  next none => exact .pure ⟨Queue.pop?_eq_none_iff.1 none, rfl⟩

section Loop

variable {plugin : Plugin σ} {I : σ → Solver → Prop}
  (event : ∀ own s e rest, I own s → s.events.toList = e :: rest.toList →
    Ensures (dispatch plugin e) (own, { s with events := rest }) fun _ st => I st.1 st.2)
  (work : ∀ own s, I own s → s.events.toList = [] →
    Ensures Solve.step s fun more t => I own t ∧ (more = false → t = s ∧ Solve.Idle s))
include event work

theorem ensures_step {own : σ} {s : Solver} (h : I own s) :
    Ensures (step plugin) (own, s) fun more st =>
      I st.1 st.2 ∧ (more = false → st.2.Quiet) := by
  refine .bind (ensures_solve (Q := fun e st => st.1 = own ∧ match e with
    | some e => ∃ rest, s.events.toList = e :: rest.toList ∧ st.2 = { s with events := rest }
    | none => s.events.toList = [] ∧ st.2 = s) ?_) ?_
  · exact ensures_nextEvent.mono fun _ _ h => ⟨rfl, h⟩
  · rintro e ⟨own', t⟩ ⟨rfl, he⟩
    cases e with
    | some e =>
      obtain ⟨rest, next, rfl⟩ := he
      refine .bind (event _ _ _ _ h next) ?_
      rintro _ ⟨own, t⟩ h
      exact .pure ⟨h, fun h => by cases h⟩
    | none =>
      obtain ⟨none, rfl⟩ := he
      refine ensures_solve ((work _ _ h none).mono ?_)
      rintro more t ⟨ht, last⟩
      refine ⟨ht, fun h => ?_⟩
      obtain ⟨rfl, idle⟩ := last h
      exact ⟨none, idle⟩

/-- What every transition preserves holds at the end of the loop. -/
theorem ensures_loop {fuel : Nat} {own : σ} {s : Solver} (h : I own s) :
    Ensures (loop plugin fuel) (own, s) fun done st =>
      I st.1 st.2 ∧ (done = true → st.2.Quiet) := by
  induction fuel generalizing own s with
  | zero => exact .pure ⟨h, fun h => by cases h⟩
  | succ fuel ih =>
    refine .bind (ensures_step event work h) ?_
    rintro more ⟨own', t⟩ ⟨ht, last⟩
    cases more with
    | true => exact ih ht
    | false => exact .pure ⟨ht, fun _ => last rfl⟩

/-- What holds before the first transition and is preserved by each holds when a run has
finished, before the plugins have their last say. -/
theorem ensures_runWithin {fuel : Nat} {own : σ} {s : Solver} {Q : σ → Solver → Prop}
    (start : Ensures plugin.onStart (own, s) fun _ st =>
      Ensures Solve.reachEntries st.2 fun _ t => I st.1 t)
    (finish : ∀ own s, I own s → s.Quiet →
      Ensures plugin.onFinish (own, s) fun _ st => Q st.1 st.2) :
    Ensures (runWithin fuel plugin) (own, s) fun verdict st =>
      verdict = .finished → Q st.1 st.2 := by
  refine .bind start ?_
  rintro _ ⟨own, s⟩ entries
  refine .bind (ensures_solve (Q := fun _ st => I st.1 st.2) entries) ?_
  rintro _ ⟨own, s⟩ h
  refine .bind (ensures_loop event work h) ?_
  rintro done ⟨own, s⟩ ⟨h, quiet⟩
  cases done with
  | true =>
    refine .bind (finish own s h (quiet rfl)) ?_
    rintro _ st hQ
    exact .pure fun _ => hQ
  | false => exact .pure fun h => by cases h

end Loop

/-- A finished run is one that ends without a fault. -/
theorem of_finished {plugin : Plugin σ} {fuel : Nat} {own : σ} {s : Solver}
    {Q : σ → Solver → Prop} (finished : (analyze fuel plugin own s).verdict = .finished)
    (h : Ensures (runWithin fuel plugin) (own, s) fun verdict st =>
      verdict = .finished → Q st.1 st.2) :
    Q (analyze fuel plugin own s).plugins (analyze fuel plugin own s).solver := by
  rcases hr : runWithin fuel plugin (own, s) with ⟨_ | verdict, own', t⟩
  · simp only [analyze, hr] at finished
    cases finished
  · simp only [analyze, hr] at finished ⊢
    exact h verdict (own', t) hr finished

/-! ### Runs without plugins -/

section Core

variable {F : Solution}

theorem sound_initial {p : Program} {sel : Selector} {contexts : ContextTable} :
    Sound F (.initial p sel contexts) where
  readable := by constructor <;> exact fun _ _ h => by cases h
  fits _ _ h := by cases h
  nodes _ _ h := by cases h
  points _ _ h := absurd h HybridSet.not_mem_empty
  flows := by
    rintro f ⟨i, h⟩
    cases h
  queued _ h := by cases h
  recorded := by
    rintro call ⟨i, h⟩
    cases h
  reached := by
    rintro m ⟨i, h⟩
    cases h
  announced _ h := by cases h

theorem invariant_initial {p : Program} {sel : Selector} {contexts : ContextTable} :
    Invariant F (.initial p sel contexts) where
  sound := sound_initial
  scheduled := by
    refine ⟨fun n m k => ⟨(by cases ·), ?_⟩, fun _ _ h => absurd h HybridSet.not_mem_empty,
      fun _ _ h => absurd h HybridSet.not_mem_empty⟩
    rintro ⟨i, h⟩
    cases h
  arrived _ _ _ h := absurd h HybridSet.not_mem_empty
  entered := by
    rintro cm ⟨i, h⟩
    cases h
  served _ _ h := absurd h HybridSet.not_mem_empty
  linked := by
    rintro call ⟨i, h⟩
    cases h
  ends := by
    rintro call ⟨i, h⟩
    cases h

/-- What holds throughout a run on a program. -/
structure Running (F : Solution) (p : Program) (sel : Selector) (s : Solver) : Prop
    extends Invariant F s where
  program : s.program = p
  selector : s.selector = sel
  entries : ∀ m ∈ p.entries, ∃ cm, s.elements.copy? s.elements.methods cm = some ([], m) ∧
    s.calls.Reaches cm

theorem Running.grows {p : Program} {sel : Selector} {s t : Solver} (h : Running F p sel s)
    (g : s.Grows t) (hi : Invariant F t) : Running F p sel t where
  toInvariant := hi
  program := g.program.trans h.program
  selector := g.selector.trans h.selector
  entries m hm := by
    obtain ⟨cm, hcm, reached⟩ := h.entries m hm
    exact ⟨cm, g.elements.method? hcm, g.reaches reached⟩

theorem grows_events {s : Solver} {events : Queue Event} : s.Grows { s with events } :=
  { Solver.Grows.refl s with calls := fun _ => .of_queue }

/-- Events may be taken away. -/
theorem Running.events {p : Program} {sel : Selector} {s : Solver} (h : Running F p sel s)
    (events : Queue Event) (sub : events.toList ⊆ s.events.toList) :
    Running F p sel { s with events } :=
  h.grows grows_events (h.of_grows grows_events
    { h.sound with announced := fun e he => h.sound.announced e (sub he) }
    (h.conserves.withEvents events) (fun _ => .inl) (fun _ _ => .inl) (fun _ => .inl)
    fun _ => .inl)

variable {p : Program} {sel : Selector}

/-- A call that is refused is reported, unless the run fails. -/
theorem ensures_reject {s : Solver} {receiver : Option ContextObjectId} {site : CallSiteId} :
    Ensures (reject receiver site) s fun _ t => ∃ text, t = s.warn text := by
  cases receiver with
  | none =>
    refine .bind Solve.ensures_callSite fun _ _ _ => ?_
    exact .bind (P := fun _ _ => True) (fun _ _ _ => trivial) fun _ _ _ => .throw
  | some receiver =>
    refine .bind Solve.ensures_siteText ?_
    rintro _ _ rfl
    refine .bind Solve.ensures_objectAt ?_
    rintro _ _ ⟨rfl, -⟩
    refine .bind Solve.ensures_catalog ?_
    rintro _ _ ⟨rfl, -⟩
    refine .bind Solve.ensures_known ?_
    rintro _ _ ⟨rfl, -⟩
    exact Solve.ensures_modify.mono fun _ _ h => ⟨_, h⟩

theorem Running.adds {s t : Solver} (h : Running F p sel s) (st : Adds F s t) :
    Running F p sel t := h.grows st.toGrows (h.toInvariant.adds st)

/-- A run without plugins reaches a quiet state in which every constraint has contributed, and
that holds nothing but facts of any set that the constraints do not lead out of. -/
theorem running_of_finished {fuel : Nat} {own : σ} {contexts : ContextTable}
    (supports : F.Supports p sel) (indexed : p.Indexed)
    (finished : (analyze fuel (.all []) own (.initial p sel contexts)).verdict = .finished) :
    Running F p sel (analyze fuel (.all []) own (.initial p sel contexts)).solver ∧
      (analyze fuel (.all []) own (.initial p sel contexts)).solver.Quiet := by
  refine of_finished (Q := fun _ s => Running F p sel s ∧ s.Quiet) finished
    (ensures_runWithin (I := fun _ s => Running F p sel s) ?_ ?_ (Q := fun _ s =>
      Running F p sel s ∧ s.Quiet) ?_ ?_)
  · rintro own s e rest h next
    have h' := h.events rest fun e he => by simp [next, he]
    cases e with
    | unresolved receiver context site =>
      refine ensures_solve (ensures_reject.mono ?_)
      rintro _ _ ⟨text, rfl⟩
      exact h'.adds h'.sound.warn
    | _ => exact .pure h'
  · rintro own s h -
    refine (Solve.ensures_step h.toInvariant (by rw [h.program, h.selector]; exact supports)
      (by rw [h.program]; exact indexed)).mono ?_
    exact fun more t ⟨hi, st, _, last⟩ => ⟨h.grows st hi, last⟩
  · refine .pure ?_
    refine (Solve.ensures_reachEntries invariant_initial supports).mono ?_
    exact fun _ t ⟨hi, st, _, entries⟩ => ⟨hi, st.program, st.selector, entries⟩
  · exact fun own s h quiet => .pure ⟨h, quiet⟩

end Core

end Analysis
end PointsTo
