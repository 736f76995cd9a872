import PointsTo.Proofs.Safety.Taint

/-!
No run of an accepted program fails for an internal reason, whatever the selector and the plugins.
-/
namespace PointsTo

open Analysis Facts

namespace Extensions

/-- The states of both plugins are in order. -/
def Ordered (p : Catalog) (limit : Nat) (own : Extensions) (s : Solver) : Prop :=
  Lambda.Kept p limit own.lambda s ∧ Taint.Tracks p own.taint s

variable {p : Program} {sel : Selector}

theorem Ordered.stable (own : Extensions) (s t : Solver) (h : Ordered p.toCatalog sel.limit own s)
    (st : s.Keeps t) : Ordered p.toCatalog sel.limit own t := ⟨h.1.stable _ _ _ st, h.2⟩

theorem ordered_initial {limit : Nat} {s : Solver} : Ordered p.toCatalog limit {} s := by
  refine ⟨⟨fun m value mem => ?_, fun x i mem => ?_⟩, fun v transfer mem => ?_⟩
  · simp [Lambda.State.valuesOf] at mem
  · simp [Lambda.State.waitingOn] at mem
  · simp [Taint.Tracking.transfersFrom] at mem

theorem secure_lambdaPlugin : lambdaPlugin.Secure p sel (Ordered p.toCatalog sel.limit) :=
  Lambda.secure_plugin.focus (fun _ _ h => h.1) fun _ _ _ _ h _ kept => ⟨kept, h.2⟩

theorem secure_taintPlugin {rules : Taint.Rules} (fits : rules.Fits p.toCatalog) :
    (taintPlugin rules).Secure p sel (Ordered p.toCatalog sel.limit) :=
  (Taint.secure_plugin fits).focus (fun _ _ h => h.2) fun _ _ _ _ h st tracks =>
    ⟨h.1.stable _ _ _ st, tracks⟩

end Extensions

namespace Configuration

/-- The rules of a configuration are written for a program. -/
def Suits (c : Configuration) (p : Program) : Prop :=
  ∀ rules, c.rules = some rules → ∃ w, Taint.Rules.resolve p w = .ok rules

variable {c : Configuration} {p : Program} {sel : Selector}

/-- It is enough that the types of the rules are declared. -/
theorem secure_plugins (fits : ∀ rules, c.rules = some rules → rules.Fits p.toCatalog) :
    (Plugin.all c.plugins).Secure p sel (Extensions.Ordered p.toCatalog sel.limit) := by
  refine .all fun q hq => ?_
  obtain hq | hq := List.mem_append.1 hq
  · split at hq
    · cases List.mem_singleton.1 hq
      exact Extensions.secure_lambdaPlugin
    · cases hq
  · obtain ⟨rules, on, rfl⟩ := Option.map_eq_some_iff.1 (Option.mem_toList.1 hq)
    exact Extensions.secure_taintPlugin (fits rules on)

theorem Suits.secure (h : c.Suits p) :
    (Plugin.all c.plugins).Secure p sel (Extensions.Ordered p.toCatalog sel.limit) :=
  secure_plugins fun rules on => (h rules on).elim fun _ resolved => Taint.fits_of_resolve resolved

end Configuration

/-- At first nothing has an id but contexts. -/
theorem grounded_initial {p : Program} (sel : Selector) (contexts : ContextTable)
    (h : p.WellFormed) : Grounded p sel none (.initial p sel contexts) where
  wellFormed := h
  program := rfl
  selector := rfl
  elements :=
    { heap := fun _ _ h => by cases h
      vars := fun _ _ h => by cases h
      objects := fun _ _ h => by cases h
      methods := fun _ _ h => by cases h
      sites := fun _ _ h => by cases h }
  nodes _ _ h := by cases h
  points _ _ h := absurd h HybridSet.not_mem_empty
  flows := by
    rintro f ⟨i, h⟩
    cases h
  filed := by
    refine fun n m k => ⟨(by cases ·), ?_⟩
    rintro ⟨i, h⟩
    cases h
  queued _ h := by cases h
  recorded := by
    rintro call ⟨i, h⟩
    cases h
  reached := by
    rintro cm ⟨i, h⟩
    cases h
  announced _ h := by cases h

/-- When a run of a well-formed program has finished, every id names something. -/
theorem grounded_of_finished {p : Program} (wellFormed : p.WellFormed) {c : Configuration}
    (fits : ∀ rules, c.rules = some rules → rules.Fits p.toCatalog) {contexts : ContextTable}
    {fuel : Nat}
    (finished : (analyze fuel (.all c.plugins) {} (.initial p c.selector contexts)).verdict =
      .finished) :
    Grounded p c.selector none
      (analyze fuel (.all c.plugins) {} (.initial p c.selector contexts)).solver := by
  have secure : (Plugin.all c.plugins).Secure p c.selector
      (Extensions.Ordered p.toCatalog c.selector.limit) := Configuration.secure_plugins fits
  obtain ⟨last, st, visited, ended, said⟩ := exists_last_of_finished finished
  obtain ⟨hs, ordered⟩ := grounded_of_visits secure Extensions.Ordered.stable
    (grounded_initial c.selector contexts wellFormed) Extensions.ordered_initial visited
  obtain ⟨moves, ordered⟩ :=
    (safe_step secure Extensions.Ordered.stable hs ordered).ensures _ _ ended
  exact ((secure.onFinish st moves.grounded ordered).ensures _ _ said).1.1.grounded

theorem eq_ok_of_isOk {r : Except Fault Program} (ok : r.isOk = true) :
    r = .ok (r.toOption.getD default) := by
  cases r with
  | error => cases ok
  | ok p => rfl

namespace Examples

/-- A program that gets an object from a function value, and calls a method on it. -/
def supply : Description where
  classes :=
    [⟨"Supplier", none, [], true, false, [], [⟨"get", [], "A", false, true, [], []⟩]⟩,
     ⟨"A", none, [], false, false, [],
      [⟨"make", [], "A", true, false, [⟨"a", "A"⟩], [.new "a" "A", .ret (some "a")]⟩,
       ⟨"self", [], "A", false, false, [], [.ret (some "this")]⟩,
       ⟨"main", [], "void", true, false, [⟨"s", "Supplier"⟩, ⟨"a", "A"⟩, ⟨"b", "A"⟩],
        [.invokeDynamic "LambdaMetafactory" "get" "Supplier" (some ⟨.invokeStatic, "<A: A make()>"⟩)
          [] (some "s"),
         .invoke .interface "<Supplier: A get()>" (some "s") [] (some "a"),
         .invoke .virtual "<A: A self()>" (some "a") [] (some "b")]⟩]⟩]
  entries := ["<A: void main()>"]

def supplyProgram : Program := supply.assemble.result.toOption.getD default

/-- Function values are linked, and what the method that makes objects returns is tainted. -/
def supplied : Configuration := ⟨.object 2, true, some { sources := [⟨⟨1⟩, ⟨1⟩⟩] }⟩

/-- A table that holds a context with more elements than the limit, which are not of the program. -/
def leftBehind : ContextTable :=
  (ContextTable.initial.intern (List.replicate 3 (.callSite ⟨9⟩))).2

def suppliedRun (fuel : Nat) : Run Extensions :=
  analyze fuel (.all supplied.plugins) {} (.initial supplyProgram supplied.selector leftBehind)

end Examples

end PointsTo
