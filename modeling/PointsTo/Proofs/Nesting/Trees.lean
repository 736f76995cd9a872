import PointsTo.Plugin

/-!
Plugins that are made up of others, which may be made up of others in turn. Whatever such a tree is
told, it passes on to its leaves, from left to right, as if these stood side by side.
-/
namespace PointsTo

variable {ι σ α : Type}

/-- What plugins are told: that a run begins, that something has happened, that nothing is left to
do. -/
inductive Notice
  | start
  | event (event : Event)
  | finish

namespace Plugin

/-- A reaction that takes care of no call. -/
def unclaiming (f : Reaction σ Unit) : Reaction σ Bool := do
  f
  return false

/-- What a plugin does about a notice, with whether it takes care of a call. -/
def hear (p : Plugin σ) : Notice → Reaction σ Bool
  | .start => unclaiming p.onStart
  | .event (.method m) => unclaiming (p.onMethod m)
  | .event (.contextMethod cm) => unclaiming (p.onContextMethod cm)
  | .event (.call edge) => unclaiming (p.onCall edge)
  | .event (.unresolved receiver context site) => p.onUnresolved receiver context site
  | .event (.objects x delta) => unclaiming (p.onObjects x delta)
  | .finish => unclaiming p.onFinish

/-- Plugins are told in turn, up to the first fault; a call is taken care of when one of them takes
care of it. -/
def pass (named : ι → Plugin σ) (n : Notice) : List ι → Reaction σ Bool
  | [] => return false
  | i :: rest => do
    let claims ← (named i).hear n
    let others ← pass named n rest
    return claims || others

/-- A plugin, given by its name, or several as one. -/
inductive Tree (ι : Type)
  | leaf (name : ι)
  | node (children : List (Tree ι))

namespace Tree

/-- The names at the leaves, from left to right. -/
def leaves : Tree ι → List ι
  | leaf i => [i]
  | node children => children.flatMap leaves

def plugin (named : ι → Plugin σ) : Tree ι → Plugin σ
  | leaf i => named i
  | node children => .all (children.map (plugin named))

end Tree

variable {named : ι → Plugin σ} {n : Notice} {p q : Plugin σ} {l l' : List ι}

/-! ### Notices in place of callbacks -/

theorem unclaiming_bind (f : Reaction σ Unit) (g : Bool → Reaction σ α) :
    unclaiming f >>= g = f >>= fun _ => g false := by
  simp only [unclaiming, bind_assoc, pure_bind]

theorem unclaiming_discard (f : Reaction σ Unit) : (unclaiming f >>= fun _ => pure ⟨⟩) = f := by
  rw [unclaiming_bind]
  exact bind_pure_unit

theorem unclaiming_injective {f g : Reaction σ Unit} (h : unclaiming f = unclaiming g) : f = g := by
  rw [← unclaiming_discard f, h, unclaiming_discard]

/-- A plugin is what it does about notices. -/
theorem eq_of_hear (h : ∀ n, p.hear n = q.hear n) : p = q := by
  obtain ⟨start, method, contextMethod, call, unresolved, objects, finish⟩ := p
  obtain ⟨start', method', contextMethod', call', unresolved', objects', finish'⟩ := q
  obtain rfl : start = start' := unclaiming_injective (h .start)
  obtain rfl : method = method' := funext fun m => unclaiming_injective (h (.event (.method m)))
  obtain rfl : contextMethod = contextMethod' :=
    funext fun cm => unclaiming_injective (h (.event (.contextMethod cm)))
  obtain rfl : call = call' := funext fun edge => unclaiming_injective (h (.event (.call edge)))
  obtain rfl : unresolved = unresolved' :=
    funext fun receiver => funext fun c => funext fun site => h (.event (.unresolved receiver c site))
  obtain rfl : objects = objects' :=
    funext fun x => funext fun delta => unclaiming_injective (h (.event (.objects x delta)))
  obtain rfl : finish = finish' := unclaiming_injective (h .finish)
  rfl

/-! ### Several plugins as one -/

/-- What all of them do in turn takes care of no call when none of them does. -/
theorem unclaiming_forM (f : Plugin σ → Reaction σ Unit)
    (hears : ∀ p : Plugin σ, p.hear n = unclaiming (f p)) :
    unclaiming ((l.map named).forM f) = pass named n l := by
  induction l with
  | nil => exact pure_bind _ _
  | cons i l ih =>
    change unclaiming (f (named i) >>= fun _ => (l.map named).forM f) = _
    rw [pass, ← ih, hears, unclaiming_bind]
    simp only [unclaiming, bind_assoc, pure_bind, Bool.false_or]

/-- The answers are gathered from the left, but it does not matter how they are put together. -/
theorem foldlM_claims (receiver : Option ContextObjectId) (context : ContextId) (site : CallSiteId)
    (claimed : Bool) :
    (l.map named).foldlM (fun claimed p => do
      let claims ← p.onUnresolved receiver context site
      return claimed || claims) claimed = do
    let claims ← pass named (.event (.unresolved receiver context site)) l
    return claimed || claims := by
  induction l generalizing claimed with
  | nil => simp only [List.map_nil, List.foldlM_nil, pass, pure_bind, Bool.or_false]
  | cons i l ih =>
    simp only [List.map_cons, List.foldlM_cons, pass, hear, ih, bind_assoc, pure_bind, Bool.or_assoc]

theorem hear_all : (all (l.map named)).hear n = pass named n l := by
  cases n with
  | start => exact unclaiming_forM _ fun _ => rfl
  | finish => exact unclaiming_forM _ fun _ => rfl
  | event e =>
    cases e with
    | unresolved receiver context site =>
      refine (foldlM_claims receiver context site false).trans ?_
      simp only [Bool.false_or, bind_pure]
    | _ => exact unclaiming_forM _ fun _ => rfl

/-! ### Trees -/

theorem pass_append : pass named n (l ++ l') = do
    let claims ← pass named n l
    let others ← pass named n l'
    return claims || others := by
  induction l with
  | nil => simp only [List.nil_append, pass, pure_bind, Bool.false_or, bind_pure]
  | cons i l ih => simp only [List.cons_append, pass, ih, bind_assoc, pure_bind, Bool.or_assoc]

/-- To tell trees is to tell all their leaves, when this is so of each of them. -/
theorem pass_flatMap {trees : List (Tree ι)}
    (each : ∀ t ∈ trees, (t.plugin named).hear n = pass named n t.leaves) :
    pass (Tree.plugin named) n trees = pass named n (trees.flatMap Tree.leaves) := by
  induction trees with
  | nil => rfl
  | cons t trees ih =>
    obtain ⟨first, rest⟩ := List.forall_mem_cons.1 each
    rw [List.flatMap_cons, pass_append, pass, first, ih rest]

theorem Tree.hear_plugin (t : Tree ι) : (t.plugin named).hear n = pass named n t.leaves := by
  fun_induction Tree.leaves t with
  | case1 i => simp only [Tree.plugin, pass, pure_bind, Bool.or_false, bind_pure]
  | case2 children ih => rw [Tree.plugin, hear_all, pass_flatMap ih]

/-- Trees side by side are the same plugin as their leaves side by side. -/
theorem all_trees (named : ι → Plugin σ) (trees : List (Tree ι)) :
    all (trees.map (Tree.plugin named)) = all ((trees.flatMap Tree.leaves).map named) :=
  eq_of_hear fun n => by rw [hear_all, hear_all, pass_flatMap fun t _ => t.hear_plugin]

end Plugin
end PointsTo
