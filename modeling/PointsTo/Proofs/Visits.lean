import PointsTo.Proofs.Work

/-!
The states that a run comes through.
-/
namespace PointsTo

/-- When there is no work, nothing changes and nothing is left to do. -/
theorem Solve.ensures_idle_step {s : Solver} :
    Ensures step s fun more t => more = false → t = s ∧ Idle s :=
  ensures_step_cases (fun _ _ _ _ _ _ h => by cases h) (fun _ _ _ _ _ _ _ h => by cases h)
    fun idle _ => ⟨rfl, idle⟩

namespace Analysis

variable {σ : Type} {plugin : Plugin σ} {start st : σ × Solver}

/-- The states, of the plugins and of the solver, at the head of the loop: before each
transition. -/
inductive Visits (plugin : Plugin σ) (start : σ × Solver) : σ × Solver → Prop
  | first {st st' : σ × Solver} (begun : plugin.onStart start = (.ok ⟨⟩, st))
    (entered : Reaction.solve Solve.reachEntries st = (.ok ⟨⟩, st')) : Visits plugin start st'
  | next {st st' : σ × Solver} (visited : Visits plugin start st)
    (worked : step plugin st = (.ok true, st')) : Visits plugin start st'

/-- What holds at first and is preserved by every transition holds at the head of the loop. -/
theorem Visits.invariant {I : σ × Solver → Prop} (visited : Visits plugin start st)
    (first : Ensures plugin.onStart start fun _ st =>
      Ensures (Reaction.solve Solve.reachEntries) st fun _ st' => I st')
    (work : ∀ st, I st → Ensures (step plugin) st fun more st' => more = true → I st') : I st := by
  induction visited with
  | first begun entered => exact first _ _ begun _ _ entered
  | next _ worked ih => exact work _ ih _ _ worked rfl

/-- The states that the loop comes through from a state at its head are at its head, and when it
ends, there is nothing left to do in one of them. -/
theorem ensures_loop_of_visits {fuel : Nat} (visited : Visits plugin start st) :
    Ensures (loop plugin fuel) st fun done st' =>
      if done then ∃ last, Visits plugin start last ∧ step plugin last = (.ok false, st')
      else Visits plugin start st' := by
  induction fuel generalizing st with
  | zero => exact .pure visited
  | succ fuel ih =>
    have here : Ensures (step plugin) st fun more st' => step plugin st = (.ok more, st') :=
      fun _ _ run => run
    refine .bind here ?_
    intro more st' worked
    cases more with
    | true => exact ih (.next visited worked)
    | false => exact .pure ⟨st, visited, worked⟩

/-- A finished run has come to a state without work, in which the plugins had their last say. -/
theorem exists_last_of_finished {fuel : Nat} {own : σ} {s : Solver}
    (finished : (analyze fuel plugin own s).verdict = .finished) :
    ∃ last st, Visits plugin (own, s) last ∧ step plugin last = (.ok false, st) ∧
      plugin.onFinish st =
        (.ok ⟨⟩, (analyze fuel plugin own s).plugins, (analyze fuel plugin own s).solver) := by
  refine of_finished (Q := fun own' t => ∃ last st, Visits plugin (own, s) last ∧
    step plugin last = (.ok false, st) ∧ plugin.onFinish st = (.ok ⟨⟩, own', t)) finished ?_
  have started : Ensures plugin.onStart (own, s) fun _ st => plugin.onStart (own, s) = (.ok ⟨⟩, st) :=
    fun _ _ run => run
  refine .bind started fun _ st begun => ?_
  have reached : Ensures (Reaction.solve Solve.reachEntries) st fun _ st' =>
      Reaction.solve Solve.reachEntries st = (.ok ⟨⟩, st') := fun _ _ run => run
  refine .bind reached fun _ st' entered => ?_
  refine .bind (ensures_loop_of_visits (.first begun entered)) fun done st ended => ?_
  cases done with
  | false => exact .pure fun h => by cases h
  | true =>
    obtain ⟨last, visited, worked⟩ := ended
    have ending : Ensures plugin.onFinish st fun _ st' => plugin.onFinish st = (.ok ⟨⟩, st') :=
      fun _ _ run => run
    exact .bind ending fun _ st' said => .pure fun _ => ⟨last, st, visited, worked, said⟩

end Analysis
end PointsTo
