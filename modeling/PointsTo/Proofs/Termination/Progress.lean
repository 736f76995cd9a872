import Mathlib.Data.Prod.Lex
import PointsTo.Proofs.Termination.Bounds

/-!
Every transition brings a run nearer to its end. An object is passed on by a node that has not passed
it on before, or a call is recorded that has not been recorded before; or else there is one event
less, and when there is no event, one piece of work less.
-/
namespace PointsTo

open Facts

/-- What is done at most once in a run. -/
inductive Deed
  | passed (node : NodeId) (object : ContextObjectId)
  | recorded (site : ContextSiteId) (callee : ContextMethodId)

namespace Solver

inductive Done (s : Solver) : Deed → Prop
  | passed {n : NodeId} {o : ContextObjectId} (h : o ∈ s.points.propagatedOf n) :
    Done s (.passed n o)
  | recorded {site : ContextSiteId} {callee : ContextMethodId}
    (h : ∃ call, s.calls.Records call ∧ call.ends = (site, callee)) : Done s (.recorded site callee)

def deeds (s : Solver) : Set Deed := {d | s.Done d}

/-- The number of calls and nodes in the queues. -/
def backlog (s : Solver) : Nat := s.callQueue.toList.length + s.worklist.toList.length

/-- A state is nearer to the end of the run than another one. -/
inductive Nearer (s t : Solver) : Prop
  | deed (d : Deed) (kept : s.deeds ⊆ t.deeds) (new : d ∈ t.deeds) (fresh : d ∉ s.deeds)
  | event (kept : s.deeds ⊆ t.deeds) (less : t.events.toList.length < s.events.toList.length)
  | work (kept : s.deeds ⊆ t.deeds) (events : t.events = s.events) (less : t.backlog < s.backlog)

variable {s t : Solver}

theorem deeds_subset
    (passed : ∀ n o, o ∈ s.points.propagatedOf n → o ∈ t.points.propagatedOf n)
    (recorded : ∀ call, s.calls.Records call → t.calls.Records call) : s.deeds ⊆ t.deeds := by
  rintro _ (h | ⟨call, h, ends⟩)
  · exact .passed (passed _ _ h)
  · exact .recorded ⟨call, recorded call h, ends⟩

/-- Between two pieces of work nothing is done. -/
theorem Extends.deeds_eq (st : s.Extends t) : t.deeds = s.deeds :=
  (deeds_subset (fun n _ h => st.propagated n ▸ h) fun _ h => st.sameCalls ▸ h).antisymm
    (deeds_subset (fun n _ h => st.propagated n ▸ h) fun _ h => st.sameCalls ▸ h)

/-- What is left of all that there is to do: deeds, then events, then the backlog. -/
noncomputable def left (all : Set Deed) (s : Solver) : ℕ ×ₗ ℕ ×ₗ ℕ :=
  toLex ((all \ s.deeds).ncard, toLex (s.events.toList.length, s.backlog))

theorem Nearer.left_lt {all : Set Deed} (finite : all.Finite) (within : t.deeds ⊆ all)
    (st : s.Nearer t) : t.left all < s.left all := by
  have fewer (kept : s.deeds ⊆ t.deeds) : (all \ t.deeds).ncard ≤ (all \ s.deeds).ncard :=
    Set.ncard_le_ncard (Set.sdiff_subset_sdiff_right kept) finite.sdiff
  cases st with
  | deed d kept new fresh =>
    have strict : all \ t.deeds ⊂ all \ s.deeds :=
      Set.ssubset_iff_exists.2 ⟨Set.sdiff_subset_sdiff_right kept, d, ⟨within new, fresh⟩,
        fun h => h.2 new⟩
    exact Prod.Lex.toLex_lt_toLex.2 (.inl (Set.ncard_lt_ncard strict finite.sdiff))
  | event kept less =>
    exact Prod.Lex.toLex_lt_toLex'.2 ⟨fewer kept, fun _ => Prod.Lex.toLex_lt_toLex.2 (.inl less)⟩
  | work kept events less =>
    refine Prod.Lex.toLex_lt_toLex'.2 ⟨fewer kept, fun _ => Prod.Lex.toLex_lt_toLex.2 (.inr ?_)⟩
    exact ⟨congrArg (·.toList.length) events, less⟩

end Solver

namespace Solve

open Solver

variable {s : Solver}

/-- A new call is recorded, and any other call is forgotten. -/
theorem ensures_nearer_processCallEdge {edge : CallEdge} {rest : Queue CallEdge}
    (next : s.callQueue.toList = edge :: rest.toList) :
    Ensures (processCallEdge edge) { s with callQueue := rest } fun _ t => s.Nearer t := by
  refine (ensures_recorded edge).mono ?_
  rintro _ t ⟨site, decl, -, -, -, recorded⟩
  cases recorded with
  | again =>
    refine .work (deeds_subset (fun _ _ => id) fun _ => id) rfl ?_
    change rest.toList.length + s.worklist.toList.length < s.backlog
    rw [backlog, next, List.length_cons]
    omega
  | first fresh rest =>
    obtain ⟨old, -⟩ | ⟨-, -, -, -, -, records⟩ := s.calls.add_cases _ edge
    · exact absurd old fresh
    refine .deed (.recorded edge.site edge.callee) ?_ ?_ ?_
    · rw [rest.deeds_eq]
      exact deeds_subset (fun _ _ => id) fun call h => (records call).2 (.inl h)
    · rw [rest.deeds_eq]
      exact .recorded ⟨_, (records _).2 (.inr rfl), rfl⟩
    · intro done
      cases done with
      | recorded old => exact fresh old

/-- A node passes on objects that it has not passed on before, or it has none. -/
theorem ensures_nearer_processNode {n : NodeId} {rest : Queue NodeId}
    (apart : ∀ n o, o ∈ s.points.pendingOf n → o ∉ s.points.propagatedOf n)
    (next : s.worklist.toList = n :: rest.toList) :
    Ensures (processNode n) { s with worklist := rest } fun _ t => s.Nearer t := by
  refine (handed_processNode n).mono fun _ t handed => ?_
  replace handed := handed.contributes
  obtain ⟨grown, same⟩ := handed
  cases hd : (s.points.flush n).1 with
  | none =>
    cases same hd
    refine .work (deeds_subset (fun _ _ => id) fun _ => id) rfl ?_
    change s.callQueue.toList.length + rest.toList.length < s.backlog
    rw [backlog, next, List.length_cons]
    omega
  | some delta =>
    obtain ⟨o, ho⟩ := PendingStore.exists_mem_of_flush hd
    have pending := (PendingStore.mem_of_flush hd).1 ho
    refine .deed (.passed n o) ?_ ?_ ?_
    · rw [grown.deeds_eq]
      exact deeds_subset (fun _ _ h => PendingStore.mem_propagatedOf_flush.2 (.inl h)) fun _ => id
    · rw [grown.deeds_eq]
      exact .passed (PendingStore.mem_propagatedOf_flush.2 (.inr ⟨rfl, pending⟩))
    · intro done
      cases done with
      | passed old => exact apart n o pending old

theorem ensures_nearer_step
    (apart : ∀ n o, o ∈ s.points.pendingOf n → o ∉ s.points.propagatedOf n) :
    Ensures step s fun more t => more = true → s.Nearer t :=
  ensures_step_cases
    (fun _ _ next => (ensures_nearer_processCallEdge next).mono fun _ _ st _ => st)
    (fun _ _ _ next => (ensures_nearer_processNode apart next).mono fun _ _ st _ => st)
    fun _ more => by cases more

end Solve

/-- Every transition brings the run nearer to its end, when the plugins use entry points only. -/
theorem Analysis.ensures_nearer_step {σ : Type} {plugin : Plugin σ} (guarded : plugin.Public)
    {own : σ} {s : Solver}
    (apart : ∀ n o, o ∈ s.points.pendingOf n → o ∉ s.points.propagatedOf n) :
    Ensures (step plugin) (own, s) fun more st => more = true → s.Nearer st.2 := by
  refine .bind (P := fun e st => e = none ∧ st.2 = s ∨ ∃ event rest, e = some event ∧
    s.events.toList = event :: rest.toList ∧ st.2 = { s with events := rest })
    (ensures_solve (ensures_nextEvent.mono fun e t popped => ?_)) fun e st popped => ?_
  · cases e with
    | none => exact .inl ⟨rfl, popped.2⟩
    | some event =>
      obtain ⟨rest, next, same⟩ := popped
      exact .inr ⟨event, rest, rfl, next, same⟩
  · obtain ⟨own, t⟩ := st
    obtain ⟨rfl, rfl⟩ | ⟨event, rest, rfl, next, rfl⟩ := popped
    · exact ensures_solve (Solve.ensures_nearer_step apart)
    · refine .bind (entered_dispatch guarded event _) fun _ u entered => .pure fun _ => ?_
      refine .event ?_ ?_
      · rw [entered.extends.deeds_eq]
        exact Solver.deeds_subset (fun _ _ => id) fun _ => id
      · rw [entered.silent.events, next]
        exact Nat.lt_succ_self _

end PointsTo
