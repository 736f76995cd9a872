import PointsTo.Proofs.Reordering
import PointsTo.Proofs.Taint.Sinks

/-!
Taint flows and the order of statements. What a run with taint tracking finds does not depend on this
order as long as a transfer that is known from a call in some context has been carried out in all
contexts; then the facts of each run are translations of facts of the other.
-/
namespace PointsTo

open Facts

namespace Solution

/-- A transfer that is known from a call in some context has been carried out in all contexts. -/
def Spreads (F : Solution) (p : Program) (rules : Taint.Rules) : Prop :=
  ∀ via c site c' m, F.calls via c site c' m → ∀ decl, p.callSites[site]? = some decl →
    ∀ rule ∈ rules.transfersOf m, ∀ source target, Taint.varAt? decl rule.source = some source →
      Taint.varAt? decl rule.target = some target → ∀ e w q, F.points (.var e source) w →
        Taint.sourceCall? w.object = some q → F.points (.var e target) (Taint.tainted q rule.type)

/-- The rules hold of every call. -/
def Obeys (F : Solution) (p : Program) (rules : Taint.Rules) : Prop :=
  ∀ via c site c' m, F.calls via c site c' m → ∀ decl, p.callSites[site]? = some decl →
    rules.Holds F.points c site decl m

variable {F : Solution} {p : Program} {sel : Selector} {rules : Taint.Rules}

/-- Nothing leads out of justified facts that obey the rules in all contexts. -/
theorem taints_justified (owned : p.toCatalog.Scoped) (obeys : F.Obeys p rules)
    (spreads : F.Spreads p rules) : (F.justified p sel).Taints p rules where
  sources := by
    rintro via c site c' m ⟨⟨call, -⟩, known⟩ decl hd result hr type mem
    have own := owned.sites site decl hd result (by simp [CallSite.vars, hr])
    exact ⟨(obeys via c site c' m call decl hd).sources result hr type mem,
      live_of_owns own (known decl hd).1⟩
  transfers := by
    rintro via c site c' m ⟨⟨call, -⟩, -⟩ decl hd rule mem source target hs ht e w q
      ⟨points, live⟩ tainted
    -- the target is reached since the source is: both belong to the method of the call
    obtain ⟨dv, hdv, same⟩ := owned.sites site decl hd source (Taint.mem_vars_of_varAt? hs)
    have own := owned.sites site decl hd target (Taint.mem_vars_of_varAt? ht)
    exact ⟨spreads via c site c' m call decl hd rule mem source target hs ht e w q points tainted,
      live_of_owns own (same ▸ live dv hdv)⟩

theorem taints_core : core.Taints p rules where
  sources _ _ _ _ _ _ _ _ _ _ _ _ := ⟨trivial, fun _ _ => trivial⟩
  transfers _ _ _ _ _ _ _ _ _ _ _ _ _ _ _ _ _ _ _ := ⟨trivial, fun _ _ => trivial⟩

end Solution

/-! ### Runs with taint tracking alone -/

namespace Configuration

variable {c : Configuration} {p p' : Program} {rules : Taint.Rules} {F : Solution}
  {r r' : Run Extensions}

/-- A run that ends without a fault. It may start with contexts left behind by earlier ones. -/
def Finishes (c : Configuration) (p : Program) (r : Run Extensions) : Prop :=
  ∃ fuel contexts, analyze fuel (.all c.plugins) {} (.initial p c.selector contexts) = r ∧
    r.verdict = .finished

section Alone

variable (alone : c.lambda = false)
include alone

theorem confines_core : c.Confines .core p where
  supports := Solution.supports_core
  lambda on := by rw [alone] at on; cases on
  taint _ _ := Solution.taints_core

theorem confines_justified (on : c.rules = some rules) (owned : p.toCatalog.Scoped)
    (closed : F.Closed p c.selector) (obeys : F.Obeys p rules) (spreads : F.Spreads p rules) :
    c.Confines (F.justified p c.selector) p where
  supports := closed.supports_justified owned
  lambda on := by rw [alone] at on; cases on
  taint rules' on' := by
    cases on.symm.trans on'
    exact Solution.taints_justified owned obeys spreads

/-- What is known at the end of such a run. -/
theorem Finishes.solves (ran : c.Finishes p r) (on : c.rules = some rules) (indexed : p.Indexed)
    (owned : p.toCatalog.Scoped) :
    r.solver.facts.Closed p c.selector ∧ r.solver.facts.Obeys p rules := by
  obtain ⟨fuel, contexts, run, finished⟩ := ran
  obtain ⟨runs, quiet, -⟩ := runs_of_finished (confines_core alone) indexed owned run finished
  refine ⟨runs.toRunning.closed quiet fun _ _ _ _ _ => id, fun via d site d' m call decl hd => ?_⟩
  obtain ⟨decl', hd', holds⟩ := (runs.taint rules on).holds runs.toRunning quiet call
  cases hd.symm.trans hd'
  exact holds

/-- The facts of a run are among all justified facts that obey the rules in all contexts. -/
theorem Finishes.facts_le (ran : c.Finishes p r) (on : c.rules = some rules) (indexed : p.Indexed)
    (owned : p.toCatalog.Scoped) (closed : F.Closed p c.selector) (obeys : F.Obeys p rules)
    (spreads : F.Spreads p rules) : r.solver.facts.Le F := by
  obtain ⟨fuel, contexts, run, finished⟩ := ran
  obtain ⟨runs, -, -⟩ := runs_of_finished (confines_justified alone on owned closed obeys spreads)
    indexed owned run finished
  have le := runs.sound.facts_le
  exact ⟨le.reached, le.points, fun via d site d' m call => (le.calls via d site d' m call).1⟩

end Alone

end Configuration

/-! ### Runs in the empty context only -/

namespace Selector

variable {sel : Selector} (flat : sel.limit = 0)
include flat

theorem calleeSituation_nil (site : CallSiteId) : sel.calleeSituation [] site = [] := by
  cases sel with
  | callSite k =>
    cases flat
    rfl
  | insensitive | object | type => rfl

theorem dispatchSituation_nil {p : Catalog} {site : CallSiteId} {o : Value} :
    sel.dispatchSituation p [] site o = [] := by
  cases sel with
  | insensitive => rfl
  | callSite => exact calleeSituation_nil flat site
  | object k | type k =>
    cases flat
    rfl

end Selector

namespace Solution

/-- All facts that are about methods in the empty context only. -/
def flat : Solution where
  reached c _ := c = []
  points P _ := match P with
    | .var c _ => c = []
    | _ => True
  calls via c _ c' _ := via.IsCore ∧ c = [] ∧ c' = []

variable {p : Program} {sel : Selector} {rules : Taint.Rules}

/-- A selector without depth never leads out of the empty context. -/
theorem closed_flat (noDepth : sel.limit = 0) : flat.Closed p sel := by
  refine ⟨fun _ _ => rfl, ?_, ?_, fun _ _ _ _ _ call => call.2.2, ?_⟩
  · rintro _ m rfl d - i s -
    cases s with
    | new => exact rfl
    | assign | cast | loadStatic => exact fun _ _ _ => rfl
    | storeStatic => exact fun _ _ _ => trivial
    | invoke site =>
      intro decl _
      unfold Reading.Site
      split
      next => exact fun _ _ => ⟨trivial, rfl, Selector.calleeSituation_nil noDepth site⟩
      next => exact fun _ _ => ⟨trivial, rfl, Selector.calleeSituation_nil noDepth site⟩
      next => trivial
      next => trivial
      next => exact fun _ _ _ _ _ => rfl
    | loadField | storeField | loadArray | storeArray | ret => trivial
  · rintro _ m d rfl - s - v - o -
    cases s with
    | loadField | loadArray => exact fun _ _ _ => rfl
    | storeField | storeArray => exact fun _ _ _ => trivial
    | invoke site =>
      intro decl _ callee _
      rw [Selector.dispatchSituation_nil noDepth]
      exact ⟨fun via hk => ⟨isCore_of_via? hk, rfl, rfl⟩, fun _ _ _ _ => rfl⟩
    | new | assign | cast | loadStatic | storeStatic | ret => trivial
  · rintro via _ site _ m ⟨-, rfl, rfl⟩ - decl d - -
    exact ⟨fun _ _ _ _ _ => rfl, fun _ _ _ _ _ _ _ => rfl, fun _ _ _ _ _ _ _ _ => rfl⟩

theorem obeys_flat : flat.Obeys p rules := by
  rintro via _ site _ m ⟨-, rfl, rfl⟩ decl -
  exact ⟨fun _ _ _ _ => rfl, fun _ _ _ _ _ _ _ _ _ _ => rfl⟩

theorem spreads_flat : flat.Spreads p rules :=
  fun _ _ _ _ _ _ _ _ _ _ _ _ _ _ _ _ _ points _ => points

end Solution

/-- Without depth there is one context only, in which every transfer has been carried out. -/
theorem Configuration.Finishes.spreads {c : Configuration} {p : Program} {rules : Taint.Rules}
    {r : Run Extensions} (ran : c.Finishes p r) (alone : c.lambda = false)
    (on : c.rules = some rules) (indexed : p.Indexed) (owned : p.toCatalog.Scoped)
    (noDepth : c.selector.limit = 0) : r.solver.facts.Spreads p rules := by
  have le := ran.facts_le alone on indexed owned (Solution.closed_flat noDepth) Solution.obeys_flat
    Solution.spreads_flat
  obtain ⟨-, obeys⟩ := ran.solves alone on indexed owned
  intro via d site d' m call decl hd rule mem source target hs ht e w q points tainted
  obtain ⟨-, rfl, -⟩ := le.calls via d site d' m call
  obtain rfl : e = [] := le.points _ _ points
  exact (obeys via [] site d' m call decl hd).transfers rule mem source target hs ht w q points tainted

/-! ### Two orders -/

namespace Program.Rearranges

variable {p p' : Program} (h : p.Rearranges p') {e : MethodId → Equiv.Perm Nat}
  (matching : p.Matches p' e) {sel : Selector} {F : Solution} {rules : Taint.Rules}

/-- Tainted values stay tainted by the same source calls. -/
theorem sourceCall?_value (sel : Selector) (w : Value) :
    Taint.sourceCall? ((h.translation matching sel).value w).object = Taint.sourceCall? w.object := by
  obtain ⟨c, origin, type, container⟩ := w
  cases origin <;> rfl

theorem obeys_pullback (obeys : F.Obeys p' rules) :
    ((h.translation matching sel).pullback F).Obeys p rules := by
  intro via c site c' m call decl hd
  rw [← h.callSites] at hd
  obtain ⟨sources, transfers⟩ := obeys via _ site _ m call decl hd
  exact ⟨sources, fun rule mem source target hs ht w q points tainted =>
    transfers rule mem source target hs ht _ q points ((h.sourceCall?_value matching sel w).trans tainted)⟩

theorem spreads_pullback (spreads : F.Spreads p' rules) :
    ((h.translation matching sel).pullback F).Spreads p rules := by
  intro via c site c' m call decl hd rule mem source target hs ht e w q points tainted
  rw [← h.callSites] at hd
  exact spreads via _ site _ m call decl hd rule mem source target hs ht _ _ q points
    ((h.sourceCall?_value matching sel w).trans tainted)

/-- Translations of flows are flows: they name call sites only. -/
theorem reports_of_le {G : Solution} (le : G.Le ((h.translation matching sel).pullback F))
    {sinks : List (Taint.SinkRule MethodId)} {flow : Taint.TaintFlow}
    (reports : G.Reports p sinks flow) : F.Reports p' sinks flow := by
  obtain ⟨⟨decl, arg, hd, harg, c, w, points, tainted⟩, sink, mem, index, via, d, d', call⟩ := reports
  rw [← h.callSites] at hd
  exact ⟨⟨decl, arg, hd, harg, _, _, le.points _ _ points,
    (h.sourceCall?_value matching sel w).trans tainted⟩, sink, mem, index, via, _, _, le.calls _ _ _ _ _ call⟩

end Program.Rearranges

namespace Taint

/-- Two lists of flows with the same members are the same. -/
theorem flows_eq {s t : Solver} {sinks : List (SinkRule MethodId)} {flows flows' : List TaintFlow}
    (h : flows? s sinks = some flows) (h' : flows? t sinks = some flows')
    (same : ∀ flow, flow ∈ flows ↔ flow ∈ flows') : flows = flows' := by
  obtain ⟨lists, -, found⟩ := Option.bind_eq_some_iff.1 h
  obtain ⟨lists', -, found'⟩ := Option.bind_eq_some_iff.1 h'
  cases found
  cases found'
  have ascends (list : List TaintFlow) : Ascends TaintFlow.le (ascending TaintFlow.le list) :=
    ascends_ascending TaintFlow.le_total TaintFlow.le_trans TaintFlow.le_antisymm list
  exact (ascends _).ext TaintFlow.le_antisymm (ascends _) same

end Taint

namespace Configuration.Finishes

variable {c : Configuration} {p p' : Program} {rules : Taint.Rules} {r r' : Run Extensions}

/-- The flows of a run are among those of a run on the reordered program whose transfers have been
carried out in all contexts. -/
theorem reports_of_reorders (ran : c.Finishes p r) (ran' : c.Finishes p' r') (alone : c.lambda = false)
    (on : c.rules = some rules) (h : p.Reorders p') (indexed : p.Indexed) (owned : p.toCatalog.Scoped)
    (spreads : r'.solver.facts.Spreads p' rules) {sinks : List (Taint.SinkRule MethodId)}
    {flow : Taint.TaintFlow} (reports : r.solver.facts.Reports p sinks flow) :
    r'.solver.facts.Reports p' sinks flow := by
  obtain ⟨e, matching⟩ := h.rearranges.exists_matching
  obtain ⟨closed, obeys⟩ := ran'.solves alone on h.indexed (h.isScoped owned)
  exact h.rearranges.reports_of_le matching (ran.facts_le alone on indexed owned
    ((h.rearranges.translation matching c.selector).closed_pullback closed)
    (h.rearranges.obeys_pullback matching obeys)
    (h.rearranges.spreads_pullback matching spreads)) reports

/-- The flows that a run leaves are those of its facts. -/
theorem finding (ran : c.Finishes p r) (on : c.rules = some rules) (indexed : p.Indexed)
    (owned : p.toCatalog.Scoped) : ∃ flows, Taint.flows? r.solver rules.sinks = some flows ∧
      r.solver.finding? Taint.findingKey = some (.flows flows) ∧
      ∀ flow, flow ∈ flows ↔ r.solver.facts.Reports p rules.sinks flow := by
  obtain ⟨fuel, contexts, run, finished⟩ := ran
  obtain ⟨runs, -, stored⟩ := runs_of_finished confines_all indexed owned run finished
  obtain ⟨flows, hflows, finding⟩ := stored rules on
  refine ⟨flows, hflows, finding, fun flow => ?_⟩
  rw [Taint.mem_flows runs.sound.legible hflows, runs.program]

end Configuration.Finishes

namespace Taint

/-- Taint flows do not depend on the order of statements where transfers work in all contexts. When
two runs with taint tracking alone, on a program and on the same program with the statements of its
methods in another order, end without a fault, for the same selector and rules: they leave the same
flows, provided that the selector has no depth, or that in both runs each transfer that is known from a
call in some context has been carried out in all contexts. -/
theorem flows_reordered {ds : List Declaration} {p p' : Program}
    (built : (Builder.ofDeclarations ds).build = .ok p) (reorders : p.Reorders p')
    {c : Configuration} (alone : c.lambda = false) {rules : Rules} (on : c.rules = some rules)
    {r r' : Run Extensions} (ran : c.Finishes p r) (ran' : c.Finishes p' r')
    (spread : c.selector.limit = 0 ∨
      r.solver.facts.Spreads p rules ∧ r'.solver.facts.Spreads p' rules) :
    ∃ flows, r.solver.finding? findingKey = some (.flows flows) ∧
      r'.solver.finding? findingKey = some (.flows flows) := by
  have indexed := Program.indexed_of_build built
  have owned := Program.scoped_of_build built
  have indexed' := reorders.indexed
  have owned' := reorders.isScoped owned
  obtain ⟨spreads, spreads'⟩ : r.solver.facts.Spreads p rules ∧ r'.solver.facts.Spreads p' rules := by
    obtain noDepth | spread := spread
    · exact ⟨ran.spreads alone on indexed owned noDepth, ran'.spreads alone on indexed' owned' noDepth⟩
    · exact spread
  obtain ⟨flows, hflows, finding, mem⟩ := ran.finding on indexed owned
  obtain ⟨flows', hflows', finding', mem'⟩ := ran'.finding on indexed' owned'
  refine ⟨flows, finding, ?_⟩
  rw [flows_eq hflows hflows' fun flow => ?_]
  · exact finding'
  rw [mem, mem']
  constructor
  · exact ran.reports_of_reorders ran' alone on reorders indexed owned spreads'
  · exact ran'.reports_of_reorders ran alone on
      (reorders.symm (Program.complete_of_build built).uses) indexed' owned' spreads

namespace Examples

/-- A program that copies a text which it has read to two variables, in some order, and relays both: one
to be joined by itself, the other one to be joined by a note. -/
def relaying (order : List VarId) : List Declaration :=
  [.type "Object" (.nominal ⟨none, [], false, false⟩),
   .type "Text" (.nominal ⟨some ⟨0⟩, [], false, false⟩),
   .type "Note" (.nominal ⟨some ⟨1⟩, [], false, false⟩),
   .type "Main" (.nominal ⟨some ⟨0⟩, [], false, false⟩),
   .method ⟨⟨1⟩, "join", [⟨1⟩], some ⟨1⟩⟩ false false,
   .method ⟨⟨2⟩, "join", [⟨1⟩], some ⟨1⟩⟩ false false,
   .method ⟨⟨3⟩, "read", [], some ⟨1⟩⟩ true false,
   .method ⟨⟨3⟩, "write", [⟨1⟩], none⟩ true false,
   .method ⟨⟨3⟩, "relay", [⟨1⟩, ⟨1⟩], none⟩ true false,
   .method ⟨⟨3⟩, "main", [], none⟩ true false,
   .var ⟨4⟩ "whole" ⟨1⟩,
   .var ⟨5⟩ "text" ⟨1⟩, .var ⟨5⟩ "note" ⟨1⟩, .var ⟨5⟩ "first" ⟨1⟩, .var ⟨5⟩ "second" ⟨1⟩,
   .var ⟨5⟩ "nothing" ⟨1⟩,
   .call ⟨4⟩ .virtual ⟨⟨1⟩, "join", [⟨1⟩], some ⟨1⟩⟩ (some ⟨5⟩) [⟨6⟩] (some ⟨7⟩),
   .call ⟨4⟩ .static ⟨⟨3⟩, "write", [⟨1⟩], none⟩ none [⟨7⟩] none,
   .plain ⟨5⟩ (.new ⟨8⟩ ⟨1⟩) (.refl true),
   .plain ⟨5⟩ (.new ⟨9⟩ ⟨2⟩) (.refl true),
   .call ⟨5⟩ .static ⟨⟨3⟩, "read", [], some ⟨1⟩⟩ none [] (some ⟨8⟩)] ++
  order.map (fun copy => .plain ⟨5⟩ (.assign copy ⟨8⟩) (.refl true)) ++
  [.call ⟨5⟩ .static ⟨⟨3⟩, "relay", [⟨1⟩, ⟨1⟩], none⟩ none [⟨10⟩, ⟨12⟩] none,
   .call ⟨5⟩ .static ⟨⟨3⟩, "relay", [⟨1⟩, ⟨1⟩], none⟩ none [⟨9⟩, ⟨11⟩] none,
   .entry ⟨5⟩]

/-- The copies in one order, and in the other order. -/
def forth : List Declaration := relaying [⟨10⟩, ⟨11⟩]

def back : List Declaration := relaying [⟨11⟩, ⟨10⟩]

/-- What is read is tainted, must not be written, and is carried from the argument of a join of texts to
its result; joins of notes carry nothing. -/
def watching (sel : Selector) : Configuration :=
  ⟨sel, false, some ⟨[⟨⟨2⟩, ⟨1⟩⟩], [⟨⟨3⟩, 0⟩], [⟨⟨0⟩, .arg 0, .result, ⟨1⟩⟩]⟩⟩

def watched (ds : List Declaration) (sel : Selector) : Run Extensions :=
  analyze 100 (.all (watching sel).plugins) {} (.initial (.ofDeclarations ds) sel default)

theorem finishes_watched {ds : List Declaration} {sel : Selector}
    (finished : (watched ds sel).verdict = .finished) :
    (watching sel).Finishes (.ofDeclarations ds) (watched ds sel) := ⟨100, default, rfl, finished⟩

theorem built_forth : (Builder.ofDeclarations forth).build = .ok (.ofDeclarations forth) :=
  Program.build_ofDeclarations (by decide +kernel)

theorem built_back : (Builder.ofDeclarations back).build = .ok (.ofDeclarations back) :=
  Program.build_ofDeclarations (by decide +kernel)

set_option maxRecDepth 10000 in
theorem reorders_back : (Program.ofDeclarations forth).Reorders (.ofDeclarations back) :=
  (Program.complete_of_build built_forth).reorders (Program.complete_of_build built_back) rfl
    (by decide +kernel)

end Examples

open Taint.Examples in
/-- Without contexts, the text that is joined by the note is reported in both orders. -/
theorem flows_reordered_relayed :
    ((watched forth .insensitive).verdict = .finished ∧
      (watched back .insensitive).verdict = .finished) ∧
    (Program.ofDeclarations forth).Reorders (.ofDeclarations back) ∧
    (watched forth .insensitive).solver.finding? findingKey = some (.flows [⟨⟨2⟩, ⟨1⟩, 0⟩]) ∧
    (watched back .insensitive).solver.finding? findingKey = some (.flows [⟨⟨2⟩, ⟨1⟩, 0⟩]) := by
  obtain ⟨finished, finished', found⟩ : (watched forth .insensitive).verdict = .finished ∧
      (watched back .insensitive).verdict = .finished ∧
      (watched forth .insensitive).solver.finding? findingKey = some (.flows [⟨⟨2⟩, ⟨1⟩, 0⟩]) := by
    decide +kernel
  obtain ⟨flows, finding, finding'⟩ := flows_reordered built_forth reorders_back rfl rfl
    (finishes_watched finished) (finishes_watched finished') (.inl rfl)
  cases found.symm.trans finding
  exact ⟨⟨finished, finished'⟩, reorders_back, found, finding'⟩

open Taint.Examples in
/-- Told apart by the most recent call, the text that is joined by the note is reported in one order
only: where the transfer is known before the text arrives. -/
theorem flows_ordered_relayed :
    ((Builder.ofDeclarations forth).build = .ok (.ofDeclarations forth) ∧
      (Builder.ofDeclarations back).build = .ok (.ofDeclarations back)) ∧
    (Program.ofDeclarations forth).Reorders (.ofDeclarations back) ∧
    ((watching (.callSite 1)).Finishes (.ofDeclarations forth) (watched forth (.callSite 1)) ∧
      (watching (.callSite 1)).Finishes (.ofDeclarations back) (watched back (.callSite 1))) ∧
    (watched forth (.callSite 1)).solver.finding? findingKey = some (.flows []) ∧
    (watched back (.callSite 1)).solver.finding? findingKey = some (.flows [⟨⟨2⟩, ⟨1⟩, 0⟩]) := by
  obtain ⟨finished, finished', flows⟩ : (watched forth (.callSite 1)).verdict = .finished ∧
      (watched back (.callSite 1)).verdict = .finished ∧
      (watched forth (.callSite 1)).solver.finding? findingKey = some (.flows []) ∧
      (watched back (.callSite 1)).solver.finding? findingKey = some (.flows [⟨⟨2⟩, ⟨1⟩, 0⟩]) := by
    decide +kernel
  exact ⟨⟨built_forth, built_back⟩, reorders_back,
    ⟨finishes_watched finished, finishes_watched finished'⟩, flows⟩

end Taint
end PointsTo
