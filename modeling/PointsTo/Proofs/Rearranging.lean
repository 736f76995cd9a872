import PointsTo.Proofs.Precision
import PointsTo.Proofs.Reordering

/-!
The order of statements and of entries does not matter. The facts of a run on one order, once the
positions of allocations are translated, are those of a run on the other order: each are the least ones
that satisfy the constraints, and translations satisfy them, too.
-/
namespace PointsTo

open Facts Analysis

/-! ### Origins in other positions -/

theorem Origin.renumber_renumber {f g : MethodId → Nat → Nat} (inverse : ∀ m i, g m (f m i) = i)
    (origin : Origin) : (origin.renumber f).renumber g = origin := by
  cases origin with
  | allocation m i => exact congrArg (Origin.allocation m) (inverse m i)
  | mock => rfl

theorem AbstractObject.identity_renumber (f : MethodId → Nat → Nat) (o : AbstractObject) :
    (o.renumber f).identity = (o.identity.1.renumber f, o.identity.2) := by
  obtain ⟨origin, type, container⟩ := o
  cases origin <;> rfl

/-! ### Two orders -/

/-- The answers of `s` and `t` that leave contexts out agree: the objects of each variable, told apart
by where they come from, once positions in `s` are translated to positions in `t`, the reached methods,
and the callees of each call site. -/
structure Solver.Accords (s t : Solver) (e : MethodId → Equiv.Perm Nat) : Prop where
  objects : ∀ v, ∃ l l', s.identitiesOf? v = some l ∧ t.identitiesOf? v = some l' ∧
    ∀ origin type, (origin, type) ∈ l ↔ (origin.renumber fun m => e m, type) ∈ l'
  methods : s.reachableMethods = t.reachableMethods
  callees : ∀ site, ∃ l, s.calleesOfSite? site = some l ∧ t.calleesOfSite? site = some l

/-- Whatever holds without contexts according to `s` holds according to `t`, once positions are
translated. -/
structure Solver.Transfers (s t : Solver) (e : MethodId → Equiv.Perm Nat) : Prop where
  objects : ∀ v c w, s.facts.points (.var c v) w → ∃ c' w', t.facts.points (.var c' v) w' ∧
    w'.object = w.object.renumber fun m => e m
  methods : ∀ c m, s.facts.reached c m → ∃ c', t.facts.reached c' m
  callees : ∀ via c site c' m, s.facts.calls via c site c' m →
    ∃ d d', t.facts.calls via d site d' m

namespace Completes

variable {σ τ : Type} {p p' : Program} {sel : Selector} {r : Run σ} {r' : Run τ}
  {e : MethodId → Equiv.Perm Nat}

/-- A run on the other order finds what a run on the one order finds. -/
theorem transfers (owned : p.toCatalog.Scoped) (indexed : p.Indexed) (h : p.Rearranges p')
    (matching : p.Matches p' e) (ran : Completes p sel r) (ran' : Completes p' sel r') :
    r.solver.Transfers r'.solver e := by
  have le := facts_le_pullback owned indexed h.indexed (h.translation matching sel) ran ran'
  constructor
  · intro v c w points
    exact ⟨_, _, le.points _ _ points, rfl⟩
  · intro c m reached
    exact ⟨_, le.reached c m reached⟩
  · intro via c site c' m call
    exact ⟨_, _, le.calls via c site c' m call⟩

end Completes

namespace Solver.Transfers

variable {s t : Solver} {e : MethodId → Equiv.Perm Nat}

/-- States that transfer what they find to each other give the same answers. -/
theorem accords (forth : s.Transfers t e) (back : t.Transfers s fun m => (e m).symm)
    (hs : s.Legible) (ht : t.Legible) (tallied : s.Tallied) (tallied' : t.Tallied) :
    s.Accords t e := by
  constructor
  case objects =>
    intro v
    obtain ⟨l, hl, mem⟩ := hs.identitiesOf? v
    obtain ⟨l', hl', mem'⟩ := ht.identitiesOf? v
    refine ⟨l, l', hl, hl', fun origin type => ?_⟩
    rw [mem, mem']
    constructor
    · rintro ⟨c, w, points, same⟩
      obtain ⟨c', w', points', image⟩ := forth.objects v c w points
      refine ⟨c', w', points', ?_⟩
      rw [image, AbstractObject.identity_renumber, same]
    · rintro ⟨c, w, points, same⟩
      obtain ⟨c', w', points', image⟩ := back.objects v c w points
      refine ⟨c', w', points', ?_⟩
      rw [image, AbstractObject.identity_renumber, same]
      exact congrArg (·, type) (origin.renumber_renumber fun m => (e m).symm_apply_apply)
  case methods =>
    apply ids_ext (ascends_ids _) (ascends_ids _)
    intro m
    rw [← reachableMethods, ← reachableMethods, hs.mem_reachableMethods tallied,
      ht.mem_reachableMethods tallied']
    constructor
    · rintro ⟨c, reached⟩
      exact forth.methods c m reached
    · rintro ⟨c, reached⟩
      exact back.methods c m reached
  case callees =>
    intro site
    obtain ⟨l, hl, mem⟩ := hs.calleesOfSite? site
    obtain ⟨l', hl', mem'⟩ := ht.calleesOfSite? site
    have same : l = l' := by
      apply ids_ext (ascends_calleesOfSite? hl) (ascends_calleesOfSite? hl')
      intro m
      rw [mem, mem']
      constructor
      · rintro ⟨via, c, c', call⟩
        exact ⟨via, forth.callees via c site c' m call⟩
      · rintro ⟨via, c, c', call⟩
        exact ⟨via, back.callees via c site c' m call⟩
    exact ⟨l, hl, same ▸ hl'⟩

end Solver.Transfers

/-- The order of statements and of entries does not matter. Whenever runs without plugins, on a program
and on the same program with the statements of its methods and its entries in another order, end without
a fault for the same selector, they give the same answers once contexts are left out. Statements can be
matched, and each matching tells which objects are the same. -/
theorem accords_of_rearranges {ds : List Declaration} {p p' : Program}
    (built : (Builder.ofDeclarations ds).build = .ok p) (h : p.Rearranges p') {sel : Selector}
    {σ τ : Type} {r : Run σ} {r' : Run τ} (ran : Completes p sel r) (ran' : Completes p' sel r') :
    (∃ e, p.Matches p' e) ∧ ∀ e, p.Matches p' e → r.solver.Accords r'.solver e := by
  have indexed := Program.indexed_of_build built
  have owned := Program.scoped_of_build built
  have uses := (Program.complete_of_build built).uses
  refine ⟨h.exists_matching, fun e matching => ?_⟩
  have forth := ran.transfers owned indexed h matching ran'
  have back := ran'.transfers (h.isScoped owned) h.indexed (h.symm uses) matching.symm ran
  apply forth.accords back
  · exact (ran.running indexed Solution.supports_core).1.sound.legible
  · exact (ran'.running h.indexed Solution.supports_core).1.sound.legible
  · exact ran.tallied
  · exact ran'.tallied

namespace Examples

/-- A program with two entries. Each makes an object and passes another one to its method `echo`; the
first does so by some statements. -/
def echoes (statements : List Declaration) (entries : List MethodId) : List Declaration :=
  [.type "Object" (.nominal ⟨none, [], false, false⟩),
   .type "A" (.nominal ⟨some ⟨0⟩, [], false, false⟩),
   .method ⟨⟨1⟩, "main", [], none⟩ true false,
   .method ⟨⟨1⟩, "echo", [⟨0⟩], some ⟨0⟩⟩ false false,
   .method ⟨⟨1⟩, "other", [], none⟩ true false,
   .var ⟨0⟩ "a" ⟨1⟩, .var ⟨0⟩ "o" ⟨0⟩, .var ⟨0⟩ "echoed" ⟨0⟩,
   .var ⟨2⟩ "b" ⟨1⟩, .var ⟨2⟩ "copied" ⟨0⟩,
   .plain ⟨1⟩ (.ret (some ⟨1⟩)) (.refl true)] ++
  statements ++
  [.plain ⟨2⟩ (.new ⟨5⟩ ⟨1⟩) (.refl true),
   .call ⟨2⟩ .virtual ⟨⟨1⟩, "echo", [⟨0⟩], some ⟨0⟩⟩ (some ⟨5⟩) [⟨5⟩] (some ⟨6⟩)] ++
  entries.map .entry

/-- What the first entry does. -/
def echoing : List Declaration :=
  [.plain ⟨0⟩ (.new ⟨3⟩ ⟨0⟩) (.refl true),
   .plain ⟨0⟩ (.new ⟨2⟩ ⟨1⟩) (.refl true),
   .call ⟨0⟩ .virtual ⟨⟨1⟩, "echo", [⟨0⟩], some ⟨0⟩⟩ (some ⟨2⟩) [⟨3⟩] (some ⟨4⟩)]

/-- The example in one order, and backwards. -/
def onward : List Declaration := echoes echoing [⟨0⟩, ⟨2⟩]

def backward : List Declaration := echoes echoing.reverse [⟨2⟩, ⟨0⟩]

def directed (ds : List Declaration) : Run Unit :=
  analyze 100 (.all []) () (.initial (.ofDeclarations ds) (.object 1) default)

theorem completes_directed {ds : List Declaration}
    (finished : (directed ds).verdict = .finished) :
    Completes (.ofDeclarations ds) (.object 1) (directed ds) := ⟨100, default, (), rfl, finished⟩

end Examples

set_option maxRecDepth 10000 in
open Examples in
theorem accords_of_rearranges_echoes :
    (Builder.ofDeclarations onward).build = .ok (.ofDeclarations onward) ∧
    (Program.ofDeclarations onward).Rearranges (.ofDeclarations backward) ∧
    ((directed onward).verdict = .finished ∧ (directed backward).verdict = .finished) ∧
    (directed onward).solver.identitiesOf? ⟨4⟩ = some [(.allocation ⟨0⟩ 0, none)] ∧
    (directed backward).solver.identitiesOf? ⟨4⟩ = some [(.allocation ⟨0⟩ 2, none)] ∧
    (∃ e, (Program.ofDeclarations onward).Matches (.ofDeclarations backward) e) ∧
    ∀ e, (Program.ofDeclarations onward).Matches (.ofDeclarations backward) e →
      (directed onward).solver.Accords (directed backward).solver e := by
  have built : (Builder.ofDeclarations onward).build = _ :=
    Program.build_ofDeclarations (by decide +kernel)
  have built' : (Builder.ofDeclarations backward).build = _ :=
    Program.build_ofDeclarations (by decide +kernel)
  have rearranges : (Program.ofDeclarations onward).Rearranges (.ofDeclarations backward) :=
    (Program.complete_of_build built).rearranges (Program.complete_of_build built') rfl
      (by decide +kernel) (by decide +kernel)
  obtain ⟨finished, finished', found, found'⟩ : (directed onward).verdict = .finished ∧
      (directed backward).verdict = .finished ∧
      (directed onward).solver.identitiesOf? ⟨4⟩ = some [(.allocation ⟨0⟩ 0, none)] ∧
      (directed backward).solver.identitiesOf? ⟨4⟩ = some [(.allocation ⟨0⟩ 2, none)] := by
    decide +kernel
  exact ⟨built, rearranges, ⟨finished, finished'⟩, found, found',
    accords_of_rearranges built rearranges (completes_directed finished)
      (completes_directed finished')⟩

end PointsTo
