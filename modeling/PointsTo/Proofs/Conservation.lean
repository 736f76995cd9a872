import PointsTo.Proofs.Operations

/-!
No object is lost on its way through the flow graph: what a node has passed on has arrived at the
end of every edge that leaves it, and what it has not passed on keeps it on the work list.
-/
namespace PointsTo.Solver

open Facts

/-- What nodes have passed on has arrived, and what they have not passed on is still to come. -/
structure Conserves (s : Solver) : Prop extends s.Scheduled where
  arrived : ∀ f, s.flows.Has f → ∀ o ∈ s.points.propagatedOf f.source,
    s.Carried f.kind f.target o

variable {s t : Solver}

theorem Extends.conserves (st : s.Extends t) (h : s.Conserves) : t.Conserves where
  toScheduled := st.scheduled h.toScheduled
  arrived f hf o ho := by
    obtain old | caught := st.fresh f hf
    · rw [st.propagated] at ho
      exact st.carried (h.arrived f old o ho)
    · exact caught o ho

namespace Conserves

/-- Calls have no part in it. -/
theorem withCalls (h : s.Conserves) (calls : CallGraph) (callQueue : Queue CallEdge) :
    Conserves { s with calls, callQueue } where
  filed := h.filed
  apart := h.apart
  waiting := h.waiting
  arrived := h.arrived

theorem withEvents (h : s.Conserves) (events : Queue Event) : Conserves { s with events } where
  filed := h.filed
  apart := h.apart
  waiting := h.waiting
  arrived := h.arrived

/-- A node that hands out its objects may leave the work list. -/
theorem scheduled_flush (h : s.Scheduled) {n : NodeId} {rest : Queue NodeId}
    (next : s.worklist.toList = n :: rest.toList) :
    Scheduled { s with worklist := rest, points := (s.points.flush n).2 } where
  filed := h.filed
  apart m o ho := by
    obtain ⟨other, ho⟩ := PendingStore.mem_pendingOf_flush.1 ho
    intro old
    obtain old | ⟨same, -⟩ := PendingStore.mem_propagatedOf_flush.1 old
    · exact h.apart m o ho old
    · exact other same
  waiting m o ho := by
    obtain ⟨other, ho⟩ := PendingStore.mem_pendingOf_flush.1 ho
    have mem := h.waiting m o ho
    rw [next] at mem
    exact (List.mem_cons.1 mem).resolve_left other

/-- Nothing is lost when a node hands out its objects, once they have arrived. -/
theorem flush (h : s.Conserves) {n : NodeId} {rest : Queue NodeId}
    (next : s.worklist.toList = n :: rest.toList)
    (st : Extends { s with worklist := rest, points := (s.points.flush n).2 } t)
    (handed : ∀ m k, s.flows.Has ⟨n, m, k⟩ → ∀ o ∈ s.points.pendingOf n, t.Carried k m o) :
    t.Conserves where
  toScheduled := st.scheduled (scheduled_flush h.toScheduled next)
  arrived f hf o ho := by
    obtain old | caught := st.fresh f hf
    · rw [st.propagated] at ho
      obtain passed | ⟨source, new⟩ := PendingStore.mem_propagatedOf_flush.1 ho
      · have g : s.Grows { s with worklist := rest, points := (s.points.flush n).2 } :=
          { Grows.refl s with
            objects := fun _ _ => PendingStore.mem_all_flush.2
            calls := fun _ => .of_queue }
        exact (g.trans st.toGrows).carried (h.arrived f old o passed)
      · cases f
        cases source
        exact handed _ _ old o new
    · exact caught o ho

/-- Once no node is left, all objects have been passed on. -/
theorem settled (h : s.Conserves) (idle : s.worklist.toList = []) (n : NodeId)
    (o : ContextObjectId) : o ∉ s.points.pendingOf n := fun ho => by
  have waiting := h.waiting n o ho
  rw [idle] at waiting
  cases waiting

/-- Once no node is left, the objects are closed under the edges. -/
theorem closed (h : s.Conserves) (idle : s.worklist.toList = []) (f : Flow) (hf : s.flows.Has f)
    (o : ContextObjectId) (ho : o ∈ s.points.all f.source) (pass : s.passes f.kind o = true) :
    o ∈ s.points.all f.target :=
  have passed := (PendingStore.mem_all.1 ho).resolve_left (h.settled idle f.source o)
  (h.arrived f hf o passed).2 pass

end Conserves
end PointsTo.Solver
