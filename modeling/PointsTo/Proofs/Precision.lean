import PointsTo.Proofs.Coarsening

/-!
Deeper contexts are at least as precise. The facts of a run, pulled back along a coarsening, satisfy
the constraints of the finer selector, whose run finds nothing but what these force.
-/
namespace PointsTo

open Facts Analysis

/-- A run without plugins that ends without a fault. It may start with contexts left behind by
earlier ones. -/
def Completes {σ : Type} (p : Program) (sel : Selector) (r : Run σ) : Prop :=
  ∃ fuel contexts own, analyze fuel (.all []) own (.initial p sel contexts) = r ∧
    r.verdict = .finished

/-- The answers of `s` that leave contexts out are among those of `t`: the objects of each variable,
told apart by where they come from, the reached methods, and the callees of each call site. -/
structure Solver.Refines (s t : Solver) : Prop where
  objects : ∀ v, ∃ l l', s.identitiesOf? v = some l ∧ t.identitiesOf? v = some l' ∧ l ⊆ l'
  methods : s.reachableMethods ⊆ t.reachableMethods
  callees : ∀ site, ∃ l l', s.calleesOfSite? site = some l ∧ t.calleesOfSite? site = some l' ∧
    l ⊆ l'

namespace Completes

variable {σ τ : Type} {p : Program} {sel fine coarse : Selector}

/-- What is known at the end of such a run. -/
theorem running {r : Run σ} (ran : Completes p sel r) (indexed : p.Indexed) {F : Solution}
    (supports : F.Supports p sel) : Running F p sel r.solver ∧ r.solver.Quiet := by
  obtain ⟨fuel, contexts, own, rfl, finished⟩ := ran
  exact running_of_finished supports indexed finished

theorem tallied {r : Run σ} (ran : Completes p sel r) : r.solver.Tallied := by
  obtain ⟨fuel, contexts, own, rfl, finished⟩ := ran
  exact maintained_tallied.finished (.all (by simp)) .initial finished

/-- The facts of a run are among those of a run on another program, or for another selector, read back
along a translation. -/
theorem facts_le_pullback {p' : Program} {sel sel' : Selector} {r : Run σ} {r' : Run τ}
    (owned : p.toCatalog.Scoped) (indexed : p.Indexed) (indexed' : p'.Indexed)
    (h : Translation p sel p' sel') (ran : Completes p sel r) (ran' : Completes p' sel' r') :
    r.solver.facts.Le (h.pullback r'.solver.facts) := by
  obtain ⟨running, quiet⟩ := ran'.running indexed' Solution.supports_core
  have closed : r'.solver.facts.Closed p' sel' := running.closed quiet fun _ _ _ _ _ => id
  have supports := (h.closed_pullback closed).supports_justified owned
  have le := (ran.running indexed supports).1.sound.facts_le
  exact ⟨le.reached, le.points, fun via c site c' m call => (le.calls via c site c' m call).1⟩

theorem refines {r : Run σ} {r' : Run τ} (built : p.toCatalog.Scoped) (indexed : p.Indexed)
    (h : Coarsening p.toCatalog fine coarse) (ran : Completes p fine r)
    (ran' : Completes p coarse r') : r.solver.Refines r'.solver := by
  have le := facts_le_pullback built indexed indexed h.translation ran ran'
  have legible := (ran.running indexed Solution.supports_core).1.sound.legible
  have legible' := (ran'.running indexed Solution.supports_core).1.sound.legible
  refine ⟨fun v => ?_, fun m hm => ?_, fun site => ?_⟩
  · obtain ⟨l, hl, mem⟩ := legible.identitiesOf? v
    obtain ⟨l', hl', mem'⟩ := legible'.identitiesOf? v
    refine ⟨l, l', hl, hl', fun i hi => ?_⟩
    obtain ⟨c, w, points, same⟩ := (mem i).1 hi
    exact (mem' i).2 ⟨_, _, le.points _ _ points, same⟩
  · obtain ⟨c, reached⟩ := (legible.mem_reachableMethods ran.tallied).1 hm
    exact (legible'.mem_reachableMethods ran'.tallied).2 ⟨_, le.reached c m reached⟩
  · obtain ⟨l, hl, mem⟩ := legible.calleesOfSite? site
    obtain ⟨l', hl', mem'⟩ := legible'.calleesOfSite? site
    refine ⟨l, l', hl, hl', fun m hm => ?_⟩
    obtain ⟨via, c, c', call⟩ := (mem m).1 hm
    exact (mem' m).2 ⟨_, _, _, le.calls via c site c' m call⟩

end Completes

/-- Deeper contexts never lose precision. Of two runs without plugins on a program that end without
a fault, for selectors of one family, the one with the greater depth gives no answer that the other
one does not give, once contexts are left out. At depth zero every family gives the answers of the
analysis without contexts. -/
theorem deeper_refines {ds : List Declaration} {p : Program}
    (built : (Builder.ofDeclarations ds).build = .ok p) (kind : Sensitivity) {σ τ : Type} :
    (∀ (k k' : Nat) (r : Run σ) (r' : Run τ), k ≤ k' →
      Completes p (.ofSensitivity k kind) r → Completes p (.ofSensitivity k' kind) r' →
      r'.solver.Refines r.solver) ∧
    ∀ (r : Run σ) (r' : Run τ), Completes p (.ofSensitivity 0 kind) r → Completes p .insensitive r' →
      r.solver.Refines r'.solver ∧ r'.solver.Refines r.solver := by
  have indexed := Program.indexed_of_build built
  have owned := Program.scoped_of_build built
  refine ⟨fun k k' r r' le ran ran' => ?_, fun r r' ran ran' => ⟨?_, ?_⟩⟩
  · exact ran'.refines owned indexed (.truncate kind le) ran
  · exact ran.refines owned indexed (.collapse _ .insensitive) ran'
  · exact ran'.refines owned indexed (.collapse _ kind) ran

namespace Examples

/-- The run on the example for a selector. -/
def echoedWith (sel : Selector) : Run Unit :=
  analyze 100 (.all []) () (.initial (.ofDeclarations echo) sel default)

theorem completes_echoedWith {sel : Selector} (finished : (echoedWith sel).verdict = .finished) :
    Completes (.ofDeclarations echo) sel (echoedWith sel) :=
  ⟨100, default, (), rfl, finished⟩

end Examples

open Examples in
theorem deeper_refines_echo : (Builder.ofDeclarations echo).build = .ok (.ofDeclarations echo) ∧
    ((echoedWith .insensitive).verdict = .finished ∧ (echoedWith (.object 0)).verdict = .finished ∧
      (echoedWith (.object 2)).verdict = .finished) ∧
    (echoedWith (.object 2)).solver.Refines (echoedWith (.object 0)).solver ∧
    (echoedWith (.object 0)).solver.Refines (echoedWith .insensitive).solver ∧
    (echoedWith .insensitive).solver.Refines (echoedWith (.object 0)).solver := by
  have built : (Builder.ofDeclarations echo).build = _ :=
    Program.build_ofDeclarations (by decide +kernel)
  have blind : (echoedWith .insensitive).verdict = .finished := by decide +kernel
  have shallow : (echoedWith (.object 0)).verdict = .finished := by decide +kernel
  have deep : (echoedWith (.object 2)).verdict = .finished := by decide +kernel
  obtain ⟨deeper, same⟩ := deeper_refines built .object (σ := Unit) (τ := Unit)
  exact ⟨built, ⟨blind, shallow, deep⟩,
    deeper 0 2 _ _ (by decide) (completes_echoedWith shallow) (completes_echoedWith deep),
    same _ _ (completes_echoedWith shallow) (completes_echoedWith blind)⟩

end PointsTo
