import PointsTo.Proofs.Termination.Progress

/-!
Every run of an accepted program comes to an end: some number of transitions is enough, whatever the
selector and the plugins.
-/
namespace PointsTo

open Analysis Facts Solver

/-- There are finitely many things to do for a program. -/
theorem exists_finite_deeds (p : Program) (sel : Selector) :
    ∃ all : Set Deed, all.Finite ∧ ∀ s, Grounded p sel none s → s.deeds ⊆ all := by
  obtain ⟨copies, few⟩ := Elements.exists_copies_size_le p.toCatalog sel.limit
  obtain ⟨nodes, fewNodes⟩ := exists_nodes_size_le p sel
  have passed := (Id.finite_lt .node nodes).image2 Deed.passed
    (Id.finite_lt .contextObject copies)
  have recorded := (Id.finite_lt .contextSite copies).image2 Deed.recorded
    (Id.finite_lt .contextMethod copies)
  refine ⟨_, passed.union recorded, fun s hs d done => ?_⟩
  obtain ⟨-, objects, methods, sites⟩ := few s.elements hs.elements
  cases done with
  | passed h =>
    obtain ⟨⟨q, hq, -⟩, pair, ho⟩ := hs.points _ _ (PendingStore.mem_all.2 (.inr h))
    exact .inl ⟨_, (Table.lt_size hq).trans_le (fewNodes s hs), _,
      (Table.lt_size ho).trans_le objects, rfl⟩
  | recorded h =>
    obtain ⟨call, recorded, rfl, rfl⟩ := h
    have settled := hs.recorded call recorded
    obtain ⟨c, site, decl, hsite, -⟩ := settled.site
    obtain ⟨pair, hcallee⟩ := settled.callee
    exact .inr ⟨_, (Table.lt_size hsite).trans_le sites, _,
      (Table.lt_size hcallee).trans_le methods, rfl⟩

namespace Analysis

variable {σ : Type} {plugin : Plugin σ} {start st u : σ × Solver} {fuel : Nat} {fault : Fault}

/-! ### How the loop goes on -/

theorem loop_of_failed (h : step plugin st = (.error fault, u)) :
    loop plugin (fuel + 1) st = (.error fault, u) := by
  rw [loop, Ensures.bind_run, h]

theorem loop_of_ended (h : step plugin st = (.ok false, u)) :
    loop plugin (fuel + 1) st = (.ok true, u) := by
  rw [loop, Ensures.bind_run, h]
  rfl

theorem loop_of_more (h : step plugin st = (.ok true, u)) :
    loop plugin (fuel + 1) st = loop plugin fuel u := by
  rw [loop, Ensures.bind_run, h]
  rfl

/-- When all transitions bring a measure down, the loop comes to an end after some number of them,
and a larger bound makes no difference. -/
theorem exists_end_of_loop {α : Type} [Preorder α] [WellFoundedLT α] {μ : σ × Solver → α}
    (down : ∀ st u, Visits plugin start st → step plugin st = (.ok true, u) → μ u < μ st)
    (visited : Visits plugin start st) :
    ∃ n r, r.1 ≠ .ok false ∧ ∀ fuel ≥ n, loop plugin fuel st = r := by
  induction hm : μ st using WellFoundedLT.induction generalizing st with
  | ind m ih =>
    subst hm
    rcases worked : step plugin st with ⟨fault | _ | _, u⟩
    · refine ⟨1, (.error fault, u), nofun, fun fuel enough => ?_⟩
      obtain ⟨fuel, rfl⟩ := Nat.exists_eq_add_of_le' enough
      exact loop_of_failed worked
    · refine ⟨1, (.ok true, u), nofun, fun fuel enough => ?_⟩
      obtain ⟨fuel, rfl⟩ := Nat.exists_eq_add_of_le' enough
      exact loop_of_ended worked
    · obtain ⟨n, r, ended, same⟩ := ih _ (down st u visited worked) (visited.next worked) rfl
      refine ⟨n + 1, r, ended, fun fuel enough => ?_⟩
      obtain ⟨fuel, rfl⟩ := Nat.exists_eq_add_of_le' (Nat.le_of_add_left_le enough)
      rw [loop_of_more worked]
      exact same fuel (Nat.le_of_succ_le_succ enough)

/-- A bound on the number of transitions makes no difference to what a run does once it is large
enough. -/
theorem exists_end_of_run {α : Type} [Preorder α] [WellFoundedLT α] {μ : σ × Solver → α} {own : σ}
    {s : Solver}
    (down : ∀ st u, Visits plugin (own, s) st → step plugin st = (.ok true, u) → μ u < μ st) :
    ∃ n r, r.verdict ≠ .unfinished ∧ ∀ fuel ≥ n, analyze fuel plugin own s = r := by
  rcases begun : plugin.onStart (own, s) with ⟨fault | ⟨⟩, st⟩
  · refine ⟨0, ⟨.failed fault, st.1, st.2⟩, nofun, fun fuel _ => ?_⟩
    rw [analyze, runWithin, Ensures.bind_run, begun]
  rcases entered : (liftM Solve.reachEntries : Reaction σ Unit) st with ⟨fault | ⟨⟩, st'⟩
  · refine ⟨0, ⟨.failed fault, st'.1, st'.2⟩, nofun, fun fuel _ => ?_⟩
    simp only [analyze, runWithin, Ensures.bind_run, begun, entered]
  obtain ⟨n, r, ended, same⟩ := exists_end_of_loop down (.first begun entered)
  refine ⟨n, analyze n plugin own s, fun unfinished => ?_, fun fuel enough => ?_⟩
  · simp only [analyze, runWithin, Ensures.bind_run, begun, entered, same n le_rfl] at unfinished
    rcases r with ⟨fault | _ | _, u⟩
    · cases unfinished
    · exact ended rfl
    · simp only [if_true, Ensures.bind_run] at unfinished
      rcases said : plugin.onFinish u with ⟨fault | ⟨⟩, v⟩ <;> rw [said] at unfinished <;>
        cases unfinished
  · simp only [analyze, runWithin, Ensures.bind_run, begun, entered, same fuel enough, same n le_rfl]

end Analysis

/-- With plugins that keep the state in order, every transition leaves less to do. -/
theorem exists_left_lt_of_secure {σ : Type} {plugin : Plugin σ} {J : σ → Solver → Prop} {p : Program}
    {sel : Selector} (guarded : plugin.Public) (secure : plugin.Secure p sel J)
    (stable : ∀ own s t, J own s → s.Keeps t → J own t) (built : p.WellFormed)
    (contexts : ContextTable) (own : σ) (hJ : J own (.initial p sel contexts)) :
    ∃ all, ∀ st u, Visits plugin (own, .initial p sel contexts) st →
      step plugin st = (.ok true, u) → u.2.left all < st.2.left all := by
  obtain ⟨all, finite, within⟩ := exists_finite_deeds p sel
  refine ⟨all, fun st u visited worked => ?_⟩
  have empty : (Solver.initial p sel contexts).Conserves :=
    (invariant_initial (F := .core)).conserves
  have conserves := maintained_conserves.visits guarded empty visited
  have nearer := ensures_nearer_step guarded conserves.apart _ _ worked rfl
  have grounded := (grounded_of_visits secure stable (grounded_initial sel contexts built) hJ
    (visited.next worked)).1
  exact nearer.left_lt finite (within u.2 grounded)

/-- Every transition of a run of an accepted program leaves less to do. -/
theorem exists_left_lt {d : Description} {p : Program} (accepted : d.assemble.result = .ok p)
    {c : Configuration} (suits : c.Suits p) (contexts : ContextTable) :
    ∃ all, ∀ st u, Visits (.all c.plugins) ({}, .initial p c.selector contexts) st →
      step (.all c.plugins) st = (.ok true, u) → u.2.left all < st.2.left all :=
  exists_left_lt_of_secure (.all c.public_plugins) suits.secure Extensions.Ordered.stable
    (Description.wellFormed_of_assemble accepted) contexts {} Extensions.ordered_initial

/-- The analysis of an accepted program comes to an end: from some number on, more transitions make
no difference, and the run has finished, or has failed for an external reason. It may start with
contexts left behind by other runs. -/
theorem analysis_terminates {d : Description} {p : Program} (accepted : d.assemble.result = .ok p)
    {c : Configuration} (suits : c.Suits p) (contexts : ContextTable) :
    ∃ n r, (r.verdict = .finished ∨ ∃ fault, r.verdict = .failed fault ∧ ¬ fault.IsInternal) ∧
      ∀ fuel ≥ n, analyze fuel (.all c.plugins) {} (.initial p c.selector contexts) = r := by
  obtain ⟨all, down⟩ := exists_left_lt accepted suits contexts
  obtain ⟨n, r, ended, same⟩ := exists_end_of_run down
  refine ⟨n, r, ?_, same⟩
  cases hv : r.verdict with
  | finished => exact .inl rfl
  | unfinished => exact absurd hv ended
  | failed fault =>
    rw [← same n le_rfl] at hv
    exact .inr ⟨fault, rfl, not_isInternal_of_failed suits.secure Extensions.Ordered.stable
      (grounded_initial c.selector contexts (Description.wellFormed_of_assemble accepted))
      Extensions.ordered_initial hv⟩

namespace Examples

/-- A program with a method that calls itself, and whose values go round in a circle. -/
def cycle : Description where
  classes :=
    [⟨"A", none, [], false, false, [],
      [⟨"again", ["A"], "A", true, false, [⟨"r", "A"⟩],
        [.invoke .static "<A: A again(A)>" none ["p0"] (some "r"), .assign "p0" "r",
         .ret (some "p0")]⟩,
       ⟨"main", [], "void", true, false, [⟨"a", "A"⟩],
        [.new "a" "A", .invoke .static "<A: A again(A)>" none ["a"] (some "a")]⟩]⟩]
  entries := ["<A: void main()>"]

def cycleProgram : Program := cycle.assemble.result.toOption.getD default

/-- What the method returns is tainted, and taint is carried from its argument to its argument. -/
def cycled : Configuration :=
  ⟨.callSite 2, true, some
    { sources := [⟨⟨0⟩, ⟨0⟩⟩], transfers := [⟨⟨0⟩, .arg 0, .arg 0, ⟨0⟩⟩] }⟩

def cycledRun (fuel : Nat) : Run Extensions :=
  analyze fuel (.all cycled.plugins) {} (.initial cycleProgram cycled.selector leftBehind)

end Examples

open Examples in
/-- The example ends, although a method calls itself in its own context, a node flows into itself and
a variable is carried to itself. -/
theorem analysis_terminates_cycle : cycle.assemble.result = .ok cycleProgram ∧
    (∃ n r, (r.verdict = .finished ∨ ∃ fault, r.verdict = .failed fault ∧ ¬ fault.IsInternal) ∧
      ∀ fuel ≥ n, cycledRun fuel = r) ∧
    (cycledRun 60).verdict = .finished ∧
    (⟨⟨3⟩, ⟨⟨3⟩, ⟨3⟩, .static⟩⟩ : Call) ∈ (cycledRun 60).solver.calls.calls.toList ∧
    (⟨⟨6⟩, ⟨6⟩, .parameter⟩ : Flow) ∈ (cycledRun 60).solver.flows.edges.toList ∧
    (⟨0⟩, ⟨0⟩) ∈ (cycledRun 60).plugins.taint.transfersFrom ⟨0⟩ := by
  have accepted : cycle.assemble.result = .ok cycleProgram := eq_ok_of_isOk (by decide +kernel)
  have suits : cycled.Suits cycleProgram := by
    rintro _ ⟨⟩
    exact ⟨⟨[⟨"<A: A again(A)>", "A"⟩], [], [⟨"<A: A again(A)>", .arg 0, .arg 0, "A"⟩]⟩,
      by decide +kernel⟩
  refine ⟨accepted, analysis_terminates accepted suits leftBehind, ?_⟩
  decide +kernel

end PointsTo
