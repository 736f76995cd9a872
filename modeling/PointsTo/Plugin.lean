import PointsTo.Solver.Step

/-!
Plugins react to what happens while an analysis is solved, and add facts of their own.
-/
namespace PointsTo

/-- A reaction: a computation on the plugins' own state and on the solver. -/
abbrev Reaction (σ : Type) := ExceptT Fault (StateM (σ × Solver))

namespace Reaction

variable {σ τ α : Type}

/-- A computation on the solver alone. -/
def solve (f : Solve α) : Reaction σ α := fun (own, s) =>
  let (result, s) := f s
  (result, own, s)

def own : Reaction σ σ := return (← get).1

def modifyOwn (f : σ → σ) : Reaction σ Unit := modify fun (own, s) => (f own, s)

def solver : Reaction σ Solver := return (← get).2

/-- A reaction of a part of the state. -/
def focus (view : τ → σ) (replace : σ → τ → τ) (f : Reaction σ α) : Reaction τ α := fun (own, s) =>
  let (result, part, s) := f (view own, s)
  (result, replace part own, s)

instance : MonadLift Solve (Reaction σ) := ⟨solve⟩

end Reaction

/-- The reactions to each kind of event; a reaction that is left out does nothing. -/
structure Plugin (σ : Type) where
  /-- Before the entry methods are added. -/
  onStart : Reaction σ Unit := pure ()
  /-- When a method is reached for the first time in any context. -/
  onMethod : MethodId → Reaction σ Unit := fun _ => pure ()
  onContextMethod : ContextMethodId → Reaction σ Unit := fun _ => pure ()
  /-- When a call is added, by whomever. -/
  onCall : CallEdge → Reaction σ Unit := fun _ => pure ()
  /-- When a call has no target. The answer tells whether the plugin takes care of the call. -/
  onUnresolved : Option ContextObjectId → ContextId → CallSiteId → Reaction σ Bool :=
    fun _ _ _ => pure false
  /-- When the set of a variable has grown. -/
  onObjects : ContextVarId → Objects → Reaction σ Unit := fun _ _ => pure ()
  /-- When nothing is left to do. -/
  onFinish : Reaction σ Unit := pure ()

namespace Plugin

variable {σ τ : Type}

/-- Several plugins as one: each reacts in turn, up to the first fault. A call is taken care of when
one of them takes care of it; all of them are asked. -/
def all (plugins : List (Plugin σ)) : Plugin σ where
  onStart := plugins.forM fun p => p.onStart
  onMethod m := plugins.forM fun p => p.onMethod m
  onContextMethod m := plugins.forM fun p => p.onContextMethod m
  onCall edge := plugins.forM fun p => p.onCall edge
  onUnresolved receiver context site := plugins.foldlM (fun claimed p => do
    let claims ← p.onUnresolved receiver context site
    return claimed || claims) false
  onObjects var delta := plugins.forM fun p => p.onObjects var delta
  onFinish := plugins.forM fun p => p.onFinish

/-- A plugin whose state is a part of a larger state. -/
def focus (view : τ → σ) (replace : σ → τ → τ) (p : Plugin σ) : Plugin τ where
  onStart := p.onStart.focus view replace
  onMethod m := (p.onMethod m).focus view replace
  onContextMethod m := (p.onContextMethod m).focus view replace
  onCall edge := (p.onCall edge).focus view replace
  onUnresolved receiver context site := (p.onUnresolved receiver context site).focus view replace
  onObjects var delta := (p.onObjects var delta).focus view replace
  onFinish := p.onFinish.focus view replace

end Plugin

end PointsTo
