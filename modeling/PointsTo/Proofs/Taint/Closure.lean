import PointsTo.Proofs.Configured

/-!
What taint tracking has achieved when a run ends: the rules hold of every call, with or without
function values.
-/
namespace PointsTo.Taint

/-- Taint rules at the fixpoint. When a run with taint tracking ends without a fault, for whatever
selector and rules, its result is legible, and the rules hold of every call: results of sources are
tainted, and whatever tainted values a variable has in the end have been copied along the transfers
that start from it. -/
theorem rules_hold {ds : List Declaration} {p : Program}
    (built : (Builder.ofDeclarations ds).build = .ok p) {c : Configuration} {rules : Rules}
    (on : c.rules = some rules) {contexts : ContextTable} {fuel : Nat} {r : Run Extensions}
    (ran : analyze fuel (.all c.plugins) {} (.initial p c.selector contexts) = r)
    (finished : r.verdict = .finished) :
    r.solver.Legible ∧ ∀ via d site d' m, r.solver.facts.calls via d site d' m →
      ∃ decl, p.callSites[site]? = some decl ∧ rules.Holds r.solver.facts.points d site decl m := by
  obtain ⟨runs, quiet, -⟩ := Configuration.runs_of_finished Configuration.confines_all
    (Program.indexed_of_build built) (Program.scoped_of_build built) ran finished
  exact ⟨runs.sound.legible,
    fun via d site d' m call => (runs.taint rules on).holds runs.toRunning quiet call⟩

namespace Examples

/-- A program that reads a text after it has joined another text with what is read in the last round,
and writes the joined text. -/
def joined : List Declaration :=
  [.type "Object" (.nominal ⟨none, [], false, false⟩),
   .type "Text" (.nominal ⟨some ⟨0⟩, [], false, false⟩),
   .type "Main" (.nominal ⟨some ⟨0⟩, [], false, false⟩),
   .method ⟨⟨2⟩, "read", [], some ⟨1⟩⟩ true false,
   .method ⟨⟨1⟩, "join", [⟨1⟩], some ⟨1⟩⟩ false false,
   .method ⟨⟨2⟩, "write", [⟨1⟩], none⟩ true false,
   .method ⟨⟨2⟩, "main", [], none⟩ true false,
   .var ⟨3⟩ "text" ⟨1⟩, .var ⟨3⟩ "piece" ⟨1⟩, .var ⟨3⟩ "whole" ⟨1⟩,
   .statement ⟨3⟩ (.new ⟨3⟩ ⟨1⟩) (by simp),
   .call ⟨3⟩ .virtual ⟨⟨1⟩, "join", [⟨1⟩], some ⟨1⟩⟩ (some ⟨3⟩) [⟨4⟩] (some ⟨5⟩),
   .call ⟨3⟩ .static ⟨⟨2⟩, "read", [], some ⟨1⟩⟩ none [] (some ⟨4⟩),
   .statement ⟨3⟩ (.assign ⟨4⟩ ⟨5⟩) (by simp),
   .call ⟨3⟩ .static ⟨⟨2⟩, "write", [⟨1⟩], none⟩ none [⟨5⟩] none,
   .entry ⟨3⟩]

/-- What is read is tainted, must not be written, and is carried from the argument of a join to its
receiver, and from there to its result. -/
def reading : Rules where
  sources := [⟨⟨0⟩, ⟨1⟩⟩]
  sinks := [⟨⟨2⟩, 0⟩]
  transfers := [⟨⟨1⟩, .base, .result, ⟨1⟩⟩, ⟨⟨1⟩, .arg 0, .base, ⟨1⟩⟩]

def tracking : Configuration := ⟨.object 1, true, some reading⟩

def tracked : Run Extensions :=
  analyze 100 (.all tracking.plugins) {} (.initial (.ofDeclarations joined) (.object 1) default)

theorem tracked_eq : analyze 100 (.all tracking.plugins) {}
    (.initial (.ofDeclarations joined) tracking.selector default) = tracked := rfl

theorem built_joined :
    (Builder.ofDeclarations joined).build = .ok (.ofDeclarations joined) :=
  Program.build_ofDeclarations (by decide +kernel)

/-- The call that joins the texts. -/
def joining : CallSite :=
  ⟨⟨3⟩, 0, .virtual, ⟨⟨1⟩, "join", [⟨1⟩], some ⟨1⟩⟩, some ⟨3⟩, [⟨4⟩], some ⟨5⟩⟩

end Examples

open Taint.Examples in
/-- What is read after the call that joins has been found reaches the result of this call. -/
theorem rules_hold_joined : tracked.verdict = .finished ∧
    tracked.solver.facts.calls .virtual [] ⟨0⟩
      [.object ⟨.allocation ⟨3⟩ 0, ⟨1⟩, some ⟨3⟩⟩] ⟨1⟩ ∧
    reading.Holds tracked.solver.facts.points [] ⟨0⟩ joining ⟨1⟩ ∧
    tracked.solver.facts.points (.var [] ⟨5⟩) (tainted ⟨1⟩ ⟨1⟩) := by
  obtain ⟨finished, call, points⟩ : tracked.verdict = .finished ∧
      tracked.solver.facts.calls .virtual [] ⟨0⟩
        [.object ⟨.allocation ⟨3⟩ 0, ⟨1⟩, some ⟨3⟩⟩] ⟨1⟩ ∧
      tracked.solver.facts.points (.var [] ⟨4⟩) (tainted ⟨1⟩ ⟨1⟩) := by decide +kernel
  have hd : (Program.ofDeclarations joined).callSites[(⟨0⟩ : CallSiteId)]? = some joining := by
    decide +kernel
  obtain ⟨-, holds⟩ := rules_hold built_joined rfl tracked_eq finished
  obtain ⟨decl, hd', holds⟩ := holds _ _ _ _ _ call
  cases hd.symm.trans hd'
  -- from the argument to the receiver, and on to the result
  have base := holds.transfers ⟨⟨1⟩, .arg 0, .base, ⟨1⟩⟩ (by decide) ⟨4⟩ ⟨3⟩ rfl rfl _ _ points
    sourceCall?_tainted
  have result := holds.transfers ⟨⟨1⟩, .base, .result, ⟨1⟩⟩ (by decide) ⟨3⟩ ⟨5⟩ rfl rfl _ _ base
    sourceCall?_tainted
  exact ⟨finished, call, holds, result⟩

end PointsTo.Taint
