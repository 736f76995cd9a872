import PointsTo.Analysis
import PointsTo.Proofs.Ensures
import PointsTo.Proofs.Nesting.Trees

/-!
Runs with trees of plugins. The leaves keep a journal of what they are told: in a run with trees it is
the same, entry by entry, as in a run with the leaves side by side, and so is everything else.

Leaves are given by names. What the leaves know is one state for all of them, of which each may have a
part of its own.
-/
namespace PointsTo

variable {ι σ α β : Type}

/-- A plugin has been told something: what it found, what it answered and what it left behind. -/
structure Plugin.Entry (ι σ : Type) where
  name : ι
  notice : Notice
  before : σ × Solver
  answer : Except Fault Bool
  after : σ × Solver

/-- The state of plugins, and a journal of what they have been told. -/
abbrev Plugin.Journaled (ι σ : Type) := σ × List (Entry ι σ)

/-- A reaction that is written down when it is over, whether or not it has failed. -/
def Reaction.recording (i : ι) (n : Notice) (claims : α → Bool) (f : Reaction σ α) :
    Reaction (Plugin.Journaled ι σ) α := fun ((own, journal), s) =>
  let run := f (own, s)
  (run.1, (run.2.1, journal ++ [⟨i, n, (own, s), run.1.map claims, run.2⟩]), run.2.2)

namespace Plugin

/-- A plugin that keeps a journal under a name. -/
def recorded (p : Plugin σ) (i : ι) : Plugin (Journaled ι σ) where
  onStart := p.onStart.recording i .start fun _ => false
  onMethod m := (p.onMethod m).recording i (.event (.method m)) fun _ => false
  onContextMethod cm := (p.onContextMethod cm).recording i (.event (.contextMethod cm)) fun _ => false
  onCall edge := (p.onCall edge).recording i (.event (.call edge)) fun _ => false
  onUnresolved receiver context site := (p.onUnresolved receiver context site).recording i
    (.event (.unresolved receiver context site)) id
  onObjects x delta := (p.onObjects x delta).recording i (.event (.objects x delta)) fun _ => false
  onFinish := p.onFinish.recording i .finish fun _ => false

/-- A notice goes round. It is told to one plugin after the other, each of which finds what the one
before it has left, and to nobody behind one that fails. Whoever takes care of a call, it is told to
all of them. -/
inductive Round (named : ι → Plugin σ) (n : Notice) :
    List ι → σ × Solver → List (Entry ι σ) → Except Fault Bool → σ × Solver → Prop
  | done {st : σ × Solver} : Round named n [] st [] (.ok false) st
  | next {i : ι} {l : List ι} {st st' last : σ × Solver} {entries : List (Entry ι σ)} {claims : Bool}
      {others : Except Fault Bool} (heard : (named i).hear n st = (.ok claims, st'))
      (rest : Round named n l st' entries others last) :
      Round named n (i :: l) st (⟨i, n, st, .ok claims, st'⟩ :: entries)
        (others.map fun others => claims || others) last
  | stop {i : ι} {l : List ι} {st st' : σ × Solver} {fault : Fault}
      (heard : (named i).hear n st = (.error fault, st')) :
      Round named n (i :: l) st [⟨i, n, st, .error fault, st'⟩] (.error fault) st'

/-- One round after the other, up to the first fault. -/
inductive Rounds (named : ι → Plugin σ) (l : List ι) : List (Entry ι σ) → Option Fault → Prop
  | done : Rounds named l [] none
  | next {n : Notice} {st st' : σ × Solver} {entries rest : List (Entry ι σ)} {claimed : Bool}
      {fault : Option Fault} (round : Round named n l st entries (.ok claimed) st')
      (later : Rounds named l rest fault) : Rounds named l (entries ++ rest) fault
  | stop {n : Notice} {st st' : σ × Solver} {entries : List (Entry ι σ)} {fault : Fault}
      (round : Round named n l st entries (.error fault) st') : Rounds named l entries (some fault)

variable {named : ι → Plugin σ} {n : Notice} {p : Plugin σ} {l : List ι} {st st' : σ × Solver}
  {entries earlier later : List (Entry ι σ)} {entry : Entry ι σ} {answer : Except Fault Bool}
  {fault : Option Fault} {failed : Fault}

/-! ### Rounds -/

theorem hear_recorded (i : ι) : (p.recorded i).hear n = (p.hear n).recording i n id := by
  have quiet (n : Notice) (f : Reaction σ Unit) :
      unclaiming (f.recording i n fun _ => false) = (unclaiming f).recording i n id := by
    funext ⟨⟨own, journal⟩, s⟩
    simp only [unclaiming, Reaction.recording, Ensures.bind_run]
    rcases f (own, s) with ⟨_ | _, st⟩ <;> rfl
  cases n with
  | event e => cases e with
    | unresolved => rfl
    | _ => exact quiet _ _
  | start | finish => exact quiet _ _

/-- Plugins that are told in turn are told in a round, which is what they write down. -/
theorem exists_round (named : ι → Plugin σ) (n : Notice) (l : List ι) (st : σ × Solver) :
    ∃ entries, Round named n l st entries (pass named n l st).1 (pass named n l st).2 ∧
      ∀ journal, pass (fun i => (named i).recorded i) n l ((st.1, journal), st.2) =
        ((pass named n l st).1, ((pass named n l st).2.1, journal ++ entries),
          (pass named n l st).2.2) := by
  induction l generalizing st with
  | nil => exact ⟨[], .done, fun journal => by rw [List.append_nil]; rfl⟩
  | cons i l ih =>
    simp only [pass, hear_recorded, Ensures.bind_run, Reaction.recording]
    rcases heard : (named i).hear n st with ⟨fault | claims, st'⟩
    · exact ⟨_, .stop heard, fun journal => rfl⟩
    · obtain ⟨entries, round, told⟩ := ih st'
      simp only [id_eq, Except.map_id, told, List.append_assoc, List.singleton_append]
      generalize pass named n l st' = run at round ⊢
      obtain ⟨_ | others, last⟩ := run
      · exact ⟨_, .next heard round, fun journal => rfl⟩
      · exact ⟨_, .next heard round, fun journal => rfl⟩

/-- Who fails is the last to be told. -/
theorem Round.last (h : Round named n l st entries answer st')
    (split : entries = earlier ++ entry :: later) (fails : entry.answer = .error failed) :
    later = [] ∧ answer = .error failed := by
  induction h generalizing earlier with
  | done => simp at split
  | next heard rest ih =>
    cases earlier with
    | nil =>
      cases split
      cases fails
    | cons first earlier =>
      obtain ⟨rfl, answered⟩ := ih (List.cons.inj split).2
      exact ⟨rfl, by rw [answered]; rfl⟩
  | stop heard =>
    cases earlier with
    | nil =>
      cases split
      exact ⟨rfl, fails⟩
    | cons first earlier => simp at split

/-- There are no rounds after one that fails. -/
theorem Rounds.last (h : Rounds named l entries fault)
    (split : entries = earlier ++ entry :: later) (fails : entry.answer = .error failed) :
    later = [] ∧ fault = some failed := by
  induction h generalizing earlier with
  | done => simp at split
  | next round _ ih =>
    -- the entry is behind the first round, or in it, although nobody fails there
    obtain ⟨middle, -, behind⟩ | ⟨middle, within, behind⟩ := List.append_eq_append_iff.1 split
    · exact ih behind
    · cases middle with
      | nil => exact ih (show _ = [] ++ entry :: later from behind.symm)
      | cons first middle =>
        obtain ⟨rfl, -⟩ := List.cons.inj behind
        cases (round.last within fails).2
  | stop round =>
    obtain ⟨rfl, answered⟩ := round.last split fails
    cases answered
    exact ⟨rfl, rfl⟩

theorem Rounds.append (h : Rounds named l earlier none) (h' : Rounds named l later fault) :
    Rounds named l (earlier ++ later) fault := by
  generalize unfailed : none = none' at h
  induction h with
  | done => exact h'
  | next round _ ih =>
    rw [List.append_assoc]
    exact .next round (ih unfailed)
  | stop => cases unfailed

/-! ### Computations -/

/-- `f` does what `g` does, and adds rounds to the journal; when the last one fails, so does `g`. -/
def Records (named : ι → Plugin σ) (l : List ι) (f : Reaction (Journaled ι σ) α) (g : Reaction σ α) :
    Prop :=
  ∀ st, ∃ entries fault, Rounds named l entries fault ∧
    (∀ failed, fault = some failed → (g st).1 = .error failed) ∧
    ∀ journal, f ((st.1, journal), st.2) = ((g st).1, ((g st).2.1, journal ++ entries), (g st).2.2)

namespace Records

variable {f : Reaction (Journaled ι σ) α} {g : Reaction σ α} {f' : α → Reaction (Journaled ι σ) β}
  {g' : α → Reaction σ β}

theorem solve (g : Solve α) : Records named l (Reaction.solve g) (Reaction.solve g) := fun st =>
  ⟨[], none, .done, nofun, fun journal => by rw [List.append_nil]; rfl⟩

theorem pure {a : α} : Records named l (Pure.pure a) (Pure.pure a) := solve (Pure.pure a)

theorem bind (h : Records named l f g) (h' : ∀ a, Records named l (f' a) (g' a)) :
    Records named l (f >>= f') (g >>= g') := by
  intro st
  obtain ⟨entries, fault, rounds, fails, told⟩ := h st
  simp only [Ensures.bind_run, told]
  generalize g st = run at fails ⊢
  obtain ⟨error | a, st'⟩ := run
  · refine ⟨entries, fault, rounds, fun failed same => ?_, fun journal => rfl⟩
    exact congrArg Except.error (Except.error.inj (fails failed same))
  · obtain rfl : fault = none := by
      cases fault with
      | none => rfl
      | some failed => cases fails failed rfl
    obtain ⟨entries', fault', rounds', fails', told'⟩ := h' a st'
    refine ⟨entries ++ entries', fault', rounds.append rounds', fails', fun journal => ?_⟩
    rw [← List.append_assoc]
    exact told' _

theorem of_unclaiming {f : Reaction (Journaled ι σ) Unit} {g : Reaction σ Unit}
    (h : Records named l (unclaiming f) (unclaiming g)) : Records named l f g := by
  rw [← unclaiming_discard f, ← unclaiming_discard g]
  exact h.bind fun _ => pure

end Records

/-- Plugins that keep journals do what they do without them. -/
theorem records_hear (named : ι → Plugin σ) (l : List ι) (n : Notice) :
    Records named l ((all (l.map fun i => (named i).recorded i)).hear n)
      ((all (l.map named)).hear n) := by
  intro st
  rw [hear_all, hear_all]
  obtain ⟨entries, round, told⟩ := exists_round named n l st
  generalize pass named n l st = run at round told ⊢
  obtain ⟨fault | claimed, last⟩ := run
  · exact ⟨entries, some fault, .stop round, fun _ same => by cases same; rfl, told⟩
  · refine ⟨entries ++ [], none, .next round .done, nofun, ?_⟩
    rwa [List.append_nil]

end Plugin

/-! ### Runs -/

namespace Analysis

open Plugin

section Journals

variable {named : ι → Plugin σ} {l : List ι} {p : Plugin (Journaled ι σ)} {q : Plugin σ}
  (hears : ∀ n, Records named l (p.hear n) (q.hear n))
include hears

theorem records_dispatch (e : Event) : Records named l (dispatch p e) (dispatch q e) := by
  cases e with
  | unresolved receiver context site =>
    refine (hears (.event (.unresolved receiver context site))).bind fun claimed => ?_
    split
    · exact .solve (reject receiver site)
    · exact .pure
  | method m => exact .of_unclaiming (hears (.event (.method m)))
  | contextMethod cm => exact .of_unclaiming (hears (.event (.contextMethod cm)))
  | call edge => exact .of_unclaiming (hears (.event (.call edge)))
  | objects x delta => exact .of_unclaiming (hears (.event (.objects x delta)))

theorem records_step : Records named l (step p) (step q) := by
  refine (Records.solve nextEvent).bind fun next => ?_
  cases next with
  | some e => exact (records_dispatch hears e).bind fun _ => .pure
  | none => exact .solve Solve.step

theorem records_loop (fuel : Nat) : Records named l (loop p fuel) (loop q fuel) := by
  induction fuel with
  | zero => exact .pure
  | succ fuel ih =>
    refine (records_step hears).bind fun more => ?_
    cases more with
    | true => exact ih
    | false => exact .pure

theorem records_runWithin (fuel : Nat) : Records named l (runWithin fuel p) (runWithin fuel q) := by
  refine (Records.of_unclaiming (hears .start)).bind fun _ => ?_
  refine (Records.solve Solve.reachEntries).bind fun _ => ?_
  refine (records_loop hears fuel).bind fun done => ?_
  cases done with
  | true => exact (Records.of_unclaiming (hears .finish)).bind fun _ => .pure
  | false => exact .pure

end Journals

end Analysis

/-- A run with journals goes as one without them. What has been written down is one round after the
other, through all plugins; who fails ends the run with that fault, and nobody is told anything
afterwards. -/
structure Run.Documents (record : Run (Plugin.Journaled ι σ)) (named : ι → Plugin σ) (l : List ι)
    (run : Run σ) : Prop where
  verdict : record.verdict = run.verdict
  plugins : record.plugins.1 = run.plugins
  solver : record.solver = run.solver
  rounds : ∃ fault, Plugin.Rounds named l record.plugins.2 fault
  last : ∀ earlier entry later failed, record.plugins.2 = earlier ++ entry :: later →
    entry.answer = .error failed → later = [] ∧ run.verdict = .failed failed

theorem documents_analyze (named : ι → Plugin σ) (l : List ι) (fuel : Nat) (own : σ) (s : Solver) :
    (analyze fuel (.all (l.map fun i => (named i).recorded i)) (own, []) s).Documents named l
      (analyze fuel (.all (l.map named)) own s) := by
  obtain ⟨entries, fault, rounds, fails, told⟩ :=
    Analysis.records_runWithin (Plugin.records_hear named l) fuel (own, s)
  unfold analyze
  rw [told []]
  generalize Analysis.runWithin fuel (.all (l.map named)) (own, s) = run at fails ⊢
  obtain ⟨error | verdict, st⟩ := run
  · refine ⟨rfl, rfl, rfl, ⟨fault, rounds⟩, fun earlier entry later failed split answered => ?_⟩
    obtain ⟨behind, stopped⟩ := rounds.last split answered
    cases fails failed stopped
    exact ⟨behind, rfl⟩
  · refine ⟨rfl, rfl, rfl, ⟨fault, rounds⟩, fun earlier entry later failed split answered => ?_⟩
    cases fails failed (rounds.last split answered).2

/-- Nesting plugins changes nothing. Take any plugins, trees of them, and a state in which a run
begins. The trees side by side are one and the same plugin as their leaves side by side, from left to
right: a notice goes round the leaves, and a call is taken care of by both or by neither. When the leaves
keep a journal, the run with the trees ends like the run with the leaves, with the same entries in it,
and it goes as the run without a journal goes. -/
theorem nesting_invisible (named : ι → Plugin σ) (trees : List (Plugin.Tree ι)) (fuel : Nat) (own : σ)
    (s : Solver) :
    let leaves := trees.flatMap Plugin.Tree.leaves
    let nested := Plugin.all (trees.map (Plugin.Tree.plugin named))
    let recorded := fun i => (named i).recorded i
    let record := analyze fuel (.all (trees.map (Plugin.Tree.plugin recorded))) (own, []) s
    nested = .all (leaves.map named) ∧
      (∀ n st, ∃ entries,
        Plugin.Round named n leaves st entries (nested.hear n st).1 (nested.hear n st).2) ∧
      record = analyze fuel (.all (leaves.map recorded)) (own, []) s ∧
      record.Documents named leaves (analyze fuel nested own s) := by
  intro leaves nested recorded record
  have flat : nested = .all (leaves.map named) := Plugin.all_trees named trees
  have same : record = analyze fuel (.all (leaves.map recorded)) (own, []) s :=
    congrArg (analyze fuel · (own, []) s) (Plugin.all_trees recorded trees)
  refine ⟨flat, fun n st => ?_, same, ?_⟩
  · obtain ⟨entries, round, -⟩ := Plugin.exists_round named n leaves st
    rw [flat, Plugin.hear_all]
    exact ⟨entries, round⟩
  · rw [same, flat]
    exact documents_analyze named leaves fuel own s

end PointsTo
