import PointsTo.Proofs.Delivery.Telling
import PointsTo.Proofs.Delivery.Watching

/-!
Every plugin is handed all that becomes known in a run, once, and in order.
-/
namespace PointsTo

open Facts

/-! ### What a plugin has been handed -/

namespace Event

variable {β : Type} {received : List Event}

/-- What is read from news can be read among all events. -/
theorem filterMap_tidings {f : Event → Option β}
    (news : ∀ receiver c site, f (.unresolved receiver c site) = none) :
    (received.filter isTiding).filterMap f = received.filterMap f := by
  rw [List.filterMap_filter]
  refine List.filterMap_congr fun e _ => ?_
  cases e with
  | unresolved receiver c site => exact (news receiver c site).symm
  | _ => rfl

theorem mem_tidings {e : Event} (news : e.isTiding = true) :
    e ∈ received.filter isTiding ↔ e ∈ received := by
  rw [List.mem_filter, and_iff_left news]

end Event

namespace Solver

variable {s t : Solver} {received : List Event}

/-- A plugin has received every event of a state once, and in order. -/
structure Delivers (s : Solver) (received : List Event) : Prop where
  methodOnce : (received.filterMap Event.method?).Nodup
  /-- The methods are those that are reached in some context. -/
  methods : ∀ m, .method m ∈ received ↔
    ∃ cm c, s.calls.Reaches cm ∧ s.elements.methods.get? cm = some ⟨c, m⟩
  introduced : ∀ before after cm, received = before ++ .contextMethod cm :: after →
    ∃ c m, s.elements.methods.get? cm = some ⟨c, m⟩ ∧ .method m ∈ before
  contextMethodOnce : (received.filterMap Event.contextMethod?).Nodup
  contextMethods : received.filterMap Event.contextMethod? = s.calls.reached.toList
  callOnce : (received.filterMap Event.call?).Nodup
  calls : received.filterMap Event.call? = s.calls.edges
  /-- The caller, which contains the call site, and the callee come before the call. -/
  ends : ∀ before after edge, received = before ++ .call edge :: after → ∃ caller,
    s.calls.Records ⟨caller, edge⟩ ∧ s.Encloses caller edge.site ∧
      .contextMethod caller ∈ before ∧ .contextMethod edge.callee ∈ before
  nonempty : ∀ x, ∀ delta ∈ received.filterMap (Event.delta? x), ∃ o, o ∈ delta
  disjoint : ∀ x, (received.filterMap (Event.delta? x)).Pairwise fun d d' => ∀ o ∈ d, o ∉ d'
  union : ∀ x o, o ∈ s.varObjects x ↔ ∃ delta ∈ received.filterMap (Event.delta? x), o ∈ delta

/-- Once nothing is left to pass on, a variable has passed on all that it has. -/
theorem passed_iff (settled : ∀ n o, o ∉ s.points.pendingOf n) {x : ContextVarId}
    {o : ContextObjectId} : s.Passed x o ↔ o ∈ s.varObjects x := by
  rw [varObjects, mem_pointsTo_iff]
  refine exists_congr fun n => and_congr_right fun _ => ?_
  rw [PendingStore.mem_all, or_iff_right (settled n o)]

/-- An event that is found in the midst of the events is found in the midst of the news. -/
theorem split_tidings {e : Event} (news : e.isTiding = true) {before after : List Event}
    (split : received = before ++ e :: after) : received.filter Event.isTiding =
      before.filter Event.isTiding ++ e :: after.filter Event.isTiding := by
  rw [split, List.filter_append, List.filter_cons_of_pos news]

/-- A chronicle that leaves nothing to be told has been received as it should. -/
theorem Chronicles.delivers (h : s.Chronicles (received.filter Event.isTiding)) (tallied : s.Tallied)
    (settled : ∀ n o, o ∉ s.points.pendingOf n) : s.Delivers received := by
  obtain ⟨⟨once, methods, introduces, contextMethods⟩, ⟨calls, ends⟩,
    ⟨nonempty, disjoint, passed, -⟩⟩ := h
  have deltas (x : ContextVarId) : (received.filter Event.isTiding).filterMap (Event.delta? x) =
      received.filterMap (Event.delta? x) := Event.filterMap_tidings fun _ _ _ => rfl
  have old {e : Event} {before : List Event} (mem : e ∈ before.filter Event.isTiding) : e ∈ before :=
    (List.mem_filter.1 mem).1
  rw [Event.filterMap_tidings fun _ _ _ => rfl] at once contextMethods calls
  simp only [deltas] at disjoint
  constructor
  case methodOnce => exact once
  case methods =>
    intro m
    rw [← Event.mem_tidings rfl, methods]
    constructor
    · intro mem
      obtain ⟨cm, ⟨c, m⟩, reached, hpair, rfl⟩ := tallied.sound m mem
      exact ⟨cm, c, reached, hpair⟩
    · rintro ⟨cm, c, reached, hpair⟩
      obtain ⟨pair, hpair', mem⟩ := tallied.complete cm reached
      cases hpair.symm.trans hpair'
      exact mem
  case introduced =>
    intro before after cm split
    obtain ⟨⟨c, m⟩, hpair, known⟩ := introduces _ _ cm (split_tidings rfl split)
    exact ⟨c, m, hpair, old (known.resolve_left id)⟩
  case contextMethodOnce =>
    rw [contextMethods]
    exact s.calls.nodup_reached
  case contextMethods => exact contextMethods
  case callOnce =>
    rw [calls]
    exact s.calls.nodup_edges
  case calls => exact calls
  case ends =>
    intro before after edge split
    obtain ⟨caller, recorded, encloses, hcaller, hcallee⟩ := ends _ _ edge (split_tidings rfl split)
    exact ⟨caller, recorded, encloses, old hcaller, old hcallee⟩
  case nonempty =>
    intro x delta told
    exact nonempty x delta ((Event.mem_tidings rfl).2 (Event.mem_delta?.1 told))
  case disjoint => exact disjoint
  case union =>
    intro x o
    rw [← passed_iff settled, ← passed x o]
    refine exists_congr fun delta => and_congr_left fun _ => ?_
    rw [Event.mem_delta?, Event.mem_tidings rfl]

theorem tidings_of_next {e : Event} {rest : Queue Event} (next : s.events.toList = e :: rest.toList) :
    s.tidings = [e].filter Event.isTiding ++ tidings { s with events := rest } := by
  rw [tidings, tidings, next, ← List.filter_append]
  rfl

/-- What is still to be handed out has no part in it. -/
theorem Chronicles.withEvents {l : List Event} (h : s.Chronicles l) (events : Queue Event) :
    Chronicles { s with events } l :=
  ⟨⟨h.once, h.methods, h.introduces, h.contextMethods⟩, ⟨h.calls, h.ends⟩,
    h.toHands.of_same rfl rfl⟩

theorem chronicles_initial {p : Program} {sel : Selector} {contexts : ContextTable} :
    (initial p sel contexts).Chronicles [] where
  once := .nil
  methods m := by simp [initial]
  introduces before after cm split := by simp at split
  contextMethods := rfl
  calls := rfl
  ends before after edge split := by simp at split
  nonempty x delta told := by cases told
  disjoint x := .nil
  passed x o := by
    constructor
    · rintro ⟨delta, told, -⟩
      cases told
    · rintro ⟨n, hn, -⟩
      cases hn
  nodes n o ho := absurd ho HybridSet.not_mem_empty

end Solver

/-! ### Runs -/

namespace Analysis

open Solver

variable {σ : Type}

/-- The part of a run before the plugins have their last say, with whether its end was reached. -/
def solve (fuel : Nat) (plugin : Plugin σ) : Reaction σ Bool := do
  plugin.onStart
  Solve.reachEntries
  loop plugin fuel

theorem runWithin_eq (fuel : Nat) (plugin : Plugin σ) : runWithin fuel plugin = (do
    if ← solve fuel plugin then
      plugin.onFinish
      return .finished
    else return .unfinished) := by
  simp only [runWithin, solve, bind_assoc]

/-- Before the plugins have their last say in a finished run, the end has been reached. -/
theorem exists_solved_of_finished {plugin : Plugin σ} {fuel : Nat} {own : σ} {s : Solver}
    (finished : (analyze fuel plugin own s).verdict = .finished) :
    ∃ last, solve fuel plugin (own, s) = (.ok true, last) ∧ plugin.onFinish last =
      (.ok ⟨⟩, (analyze fuel plugin own s).plugins, (analyze fuel plugin own s).solver) := by
  refine of_finished (Q := fun own' t => ∃ last, solve fuel plugin (own, s) = (.ok true, last) ∧
    plugin.onFinish last = (.ok ⟨⟩, own', t)) finished ?_
  rw [runWithin_eq]
  have solved : Ensures (solve fuel plugin) (own, s) fun done st =>
      solve fuel plugin (own, s) = (.ok done, st) := fun _ _ run => run
  refine .bind solved fun done last run => ?_
  cases done with
  | false => exact .pure nofun
  | true =>
    have said : Ensures plugin.onFinish last fun _ st => plugin.onFinish last = (.ok ⟨⟩, st) :=
      fun _ _ run => run
    exact .bind said fun _ _ said => .pure fun _ => ⟨last, run, said⟩

section Watched

variable {before after : List (Plugin σ)} {p : Plugin σ}

theorem accompanies_solve (fuel : Nat) :
    Accompanies (solve fuel (.all (Plugin.watching before p after)))
      (solve fuel (.all (before ++ p :: after))) :=
  .bind (.of_mirrors mirrors_onStart) fun _ =>
    .bind (.of_mirrors (.solve Solve.reachEntries)) fun _ => accompanies_loop fuel

/-- What has been written down and what is still to be handed out tell all that is known. -/
structure Recounts (watched : Watched σ) (s : Solver) : Prop where
  conserves : s.Conserves
  tallied : s.Tallied
  chronicles : s.Chronicles (watched.2.filter Event.isTiding ++ s.tidings)

variable (guarded : ∀ q ∈ before ++ p :: after, q.Public)
include guarded

/-- An event that is handed out is written down. -/
theorem recounts_dispatch {watched : Watched σ} {s : Solver} {e : Event} {rest : Queue Event}
    (h : Recounts watched s) (next : s.events.toList = e :: rest.toList) :
    Ensures (dispatch (.all (Plugin.watching before p after)) e) (watched, { s with events := rest })
      fun _ st => Recounts st.1 st.2 := by
  have public_all := Plugin.Public.all (Plugin.public_watching guarded)
  rintro _ ⟨watched', t⟩ run
  refine ⟨maintained_conserves.event public_all h.conserves _ _ run,
    maintained_tallied.event public_all h.tallied _ _ run, ?_⟩
  have noted : watched'.2 = watched.2 ++ [e] := ((mirrors_dispatch e).of_ok run).2
  have untold : Untold { s with events := rest } t :=
    Entered.untold (entered_dispatch public_all e _ _ _ run)
  have handed : watched'.2.filter Event.isTiding ++ t.tidings =
      watched.2.filter Event.isTiding ++ s.tidings := by
    rw [noted, untold.tidings, tidings_of_next next, List.filter_append, List.append_assoc]
  rw [handed]
  exact (h.chronicles.withEvents rest).untold untold

omit guarded in
/-- What becomes known by a piece of work is announced. -/
theorem recounts_step {watched : Watched σ} {s : Solver} (h : Recounts watched s) :
    Ensures Solve.step s fun more t => Recounts watched t ∧ (more = false → t = s ∧ Solve.Idle s) := by
  intro more t run
  obtain ⟨news, tidings, told⟩ := Solve.tells_step h.conserves more t run
  refine ⟨⟨Solve.keeps_step s more t run h.conserves, Solve.tallies_step s more t run h.tallied, ?_⟩,
    Solve.ensures_idle_step more t run⟩
  rw [tidings, ← List.append_assoc]
  exact told _ h.chronicles

variable {own : σ} {program : Program} {sel : Selector} {contexts : ContextTable}

/-- The record is right when the loop begins. -/
theorem ensures_begun :
    Ensures (Plugin.all (Plugin.watching before p after)).onStart
      ((own, []), .initial program sel contexts) fun _ st =>
        Ensures (Reaction.solve Solve.reachEntries) st fun _ st => Recounts st.1 st.2 := by
  have public_all := Plugin.Public.all (Plugin.public_watching guarded)
  rintro _ ⟨⟨own', record⟩, s⟩ run
  obtain rfl : record = [] := (mirrors_onStart.of_ok run).2
  have entered : Entered (.initial program sel contexts) s := public_all.onStart _ _ _ run
  have conserves : s.Conserves :=
    entered.contributes.toExtends.conserves (invariant_initial (F := .core)).conserves
  have tallied : s.Tallied := Tallied.initial.contributes entered.contributes
  have untold : s.Chronicles [] := chronicles_initial.untold entered.untold
  have nothing : s.tidings = [] := entered.untold.tidings
  refine ensures_solve fun _ t entries => ?_
  obtain ⟨news, tidings, told⟩ := Solve.tells_reachEntries s _ t entries
  refine ⟨Solve.keeps_reachEntries s _ t entries conserves,
    Solve.tallies_reachEntries s _ t entries tallied, ?_⟩
  rw [tidings, nothing]
  exact told [] untold

/-- When nothing is left to do, everything has been written down. -/
theorem ensures_solve_watching {fuel : Nat} :
    Ensures (solve fuel (.all (Plugin.watching before p after)))
      ((own, []), .initial program sel contexts) fun done st =>
        done = true → st.2.Delivers st.1.2 := by
  refine .bind (ensures_begun guarded) fun _ st begun => .bind begun fun _ st recounts => ?_
  refine (ensures_loop (I := Recounts) (fun _ _ _ _ h next => recounts_dispatch guarded h next)
    (fun _ _ h _ => recounts_step h) recounts).mono fun done st ⟨recounts, quiet⟩ ended => ?_
  obtain ⟨noEvents, -, noNodes⟩ := quiet ended
  have chronicles := recounts.chronicles
  rw [tidings, noEvents, List.filter_nil, List.append_nil] at chronicles
  exact chronicles.delivers recounts.tallied (recounts.conserves.settled noNodes)

end Watched

end Analysis

open Analysis in
/-- Plugins are handed everything, once, and in order. Take any program, any selector and any plugins
that use entry points only. When a run finishes, the loop has come to an end in some state, in which the
plugins had their last say; and a run in which one of the plugins writes down the events that it is handed
comes to the same end. What has been written down then are the methods that are reached, each once and
before it is told in any context; the methods in their contexts and the calls, each once and in the order
of the call graph, a call after its caller and its callee; and for each variable, pieces that are not
empty, have no object in common and make up its objects. -/
theorem events_delivered {σ : Type} {before after : List (Plugin σ)} {plugin : Plugin σ}
    (guarded : ∀ q ∈ before ++ plugin :: after, q.Public) {p : Program} {sel : Selector}
    {contexts : ContextTable} {own : σ} {fuel : Nat}
    (finished : (analyze fuel (.all (before ++ plugin :: after)) own
      (.initial p sel contexts)).verdict = .finished) :
    ∃ (last : σ × Solver) (received : List Event),
      solve fuel (.all (before ++ plugin :: after)) (own, .initial p sel contexts) =
        (.ok true, last) ∧
      (Plugin.all (before ++ plugin :: after)).onFinish last = (.ok ⟨⟩,
        (analyze fuel (.all (before ++ plugin :: after)) own (.initial p sel contexts)).plugins,
        (analyze fuel (.all (before ++ plugin :: after)) own (.initial p sel contexts)).solver) ∧
      solve fuel (.all (Plugin.watching before plugin after)) ((own, []), .initial p sel contexts) =
        (.ok true, (last.1, received), last.2) ∧
      last.2.Delivers received := by
  obtain ⟨last, run, said⟩ := exists_solved_of_finished finished
  obtain ⟨received, watched⟩ := accompanies_solve fuel own [] _ _ _ _ run
  exact ⟨last, received, run, said, watched, ensures_solve_watching guarded _ _ watched rfl⟩

open Analysis Examples in
/-- With function values and taint tracking, taint tracking is handed everything that becomes known on
the example. -/
theorem events_delivered_echo : ∃ (last : Extensions × Solver) (received : List Event),
    solve 100 (.all extended.plugins) ({}, .initial (.ofDeclarations echo) (.object 2) default) =
      (.ok true, last) ∧
    received.length = 12 ∧ last.2.Delivers received := by
  have finished : (analyze 100 (.all extended.plugins) {}
      (.initial (.ofDeclarations echo) (.object 2) default)).verdict = .finished := by
    decide +kernel
  have guarded : ∀ q ∈ [Extensions.lambdaPlugin] ++
      Extensions.taintPlugin { sources := [⟨⟨1⟩, ⟨1⟩⟩] } :: [], q.Public := extended.public_plugins
  obtain ⟨last, received, run, -, watched, delivers⟩ := events_delivered guarded finished
  have told : (solve 100 (.all (Plugin.watching [Extensions.lambdaPlugin]
      (Extensions.taintPlugin { sources := [⟨⟨1⟩, ⟨1⟩⟩] }) [])) (({}, []),
        .initial (.ofDeclarations echo) (.object 2) default)).2.1.2.length = 12 := by
    decide +kernel
  rw [watched] at told
  exact ⟨last, received, run, told, delivers⟩

end PointsTo
