import PointsTo.Proofs.Fixpoint

/-!
The result of a run without plugins holds nothing that the constraints do not force: it is
contained in every set of facts that satisfies them.
-/
namespace PointsTo

namespace Catalog.Scoped

variable {c : Catalog} (h : c.Scoped) {m : MethodId} {d : MethodDecl} {s : Statement} {v : VarId}
include h

/-- The variable that a statement waits for belongs to the statement's method. -/
theorem owns_base (hd : c.methods[m]? = some d) (mem : s ∈ d.body) (base : c.base? s = some v) :
    c.Owns m v := by
  have body := (h.methods m d hd).body s mem
  cases s with
  | loadField | loadArray =>
    cases base
    exact body v (by simp [Builder.mentioned])
  | storeField | storeArray =>
    cases base
    exact body v (by simp [Builder.mentioned])
  | invoke site =>
    obtain ⟨decl, hdecl, rfl⟩ := (h.methods m d hd).invokes site mem
    rw [base?, hdecl, Option.bind_some] at base
    split at base
    · exact h.sites site decl hdecl v (by simp [CallSite.vars, base])
    · cases base
  | new | assign | cast | loadStatic | storeStatic | ret => cases base

end Catalog.Scoped

namespace Solution

variable {F : Solution} {p : Program} {sel : Selector}

/-- The calls that a set of facts justifies: a reached method selects the callee. -/
def Justified (F : Solution) (p : Program) (sel : Selector) (via : Via) (c : Situation)
    (site : CallSiteId) (c' : Situation) (m : MethodId) : Prop :=
  ∃ decl, p.callSites[site]? = some decl ∧ F.reached c decl.container ∧
    F.Selects p sel via c site decl c' m

/-- A set of facts without the calls that it does not justify. -/
def justified (F : Solution) (p : Program) (sel : Selector) : Solution :=
  { F with calls := fun via c site c' m =>
      F.calls via c site c' m ∧ F.Justified p sel via c site c' m }

/-! ### Constraints support themselves -/

theorem live_of_owns {c : Situation} {m : MethodId} {v : VarId} (own : p.Owns m v)
    (reached : F.reached c m) : F.Live p (.var c v) := by
  obtain ⟨d, hd, rfl⟩ := own
  intro d' hd'
  cases hd.symm.trans hd'
  exact reached

/-- A selected call is one that the constraints may rely on. -/
theorem Selects.demands {via : Via} {c c' : Situation} {site : CallSiteId} {decl : CallSite}
    {m : MethodId} (h : F.Selects p sel via c site decl c' m)
    (hd : p.callSites[site]? = some decl) (reached : F.reached c decl.container)
    (call : F.calls via c site c' m) :
    ((F.justified p sel).demands p).calls via c site c' m := by
  refine ⟨⟨call, decl, hd, reached, h⟩, fun decl' hd' => ?_⟩
  cases hd.symm.trans hd'
  exact ⟨reached, fun _ => h.via_eq⟩

section Supports

variable (closed : F.Closed p sel) (owned : p.toCatalog.Scoped)
include closed owned

theorem Closed.supports_reached {c : Situation} {m : MethodId} {d : MethodDecl} {i : Nat}
    {s : Statement} (reached : F.reached c m) (hd : p.methods[m]? = some d)
    (hs : d.body[i]? = some s) :
    ((F.justified p sel).demands p).Reached p sel c m i s := by
  have holds := closed.statements c m reached d hd i s hs
  have mem : s ∈ d.body := Array.mem_of_getElem? hs
  have live (v : VarId) (mentions : v ∈ Builder.mentioned s) :
      (F.justified p sel).Live p (.var c v) :=
    live_of_owns ((owned.methods m d hd).body s mem v mentions) reached
  cases s with
  | new lhs type => exact ⟨holds, live lhs (by simp [Builder.mentioned])⟩
  | assign lhs rhs | cast lhs rhs | loadStatic lhs field =>
    exact ⟨live lhs (by simp [Builder.mentioned]), holds⟩
  | storeStatic => exact ⟨trivial, holds⟩
  | loadField | storeField | loadArray | storeArray | ret => trivial
  | invoke site =>
    intro decl hdecl
    obtain ⟨decl', hdecl', rfl⟩ := (owned.methods m d hd).invokes site mem
    cases hdecl.symm.trans hdecl'
    have holds := holds decl hdecl
    unfold Reading.Site at holds ⊢
    split
    next hk =>
      rw [hk] at holds
      exact fun callee target => (Selects.named (by rw [hk]; rfl) (by rw [hk]; rfl) target).demands
        hdecl reached (holds callee target)
    next hk =>
      rw [hk] at holds
      exact fun callee target => (Selects.named (by rw [hk]; rfl) (by rw [hk]; rfl) target).demands
        hdecl reached (holds callee target)
    next => trivial
    next => trivial
    next call hk =>
      rw [hk] at holds
      refine fun concat result type hr ht => ⟨holds concat result type hr ht, ?_⟩
      exact live_of_owns (owned.sites site decl hdecl result (by simp [CallSite.vars, hr])) reached

theorem Closed.supports_object {c : Situation} {m : MethodId} {d : MethodDecl} {s : Statement}
    {v : VarId} {o : Value} (reached : F.reached c m) (hd : p.methods[m]? = some d)
    (mem : s ∈ d.body) (base : p.base? s = some v) (ho : F.points (.var c v) o) :
    ((F.justified p sel).demands p).Object p sel c o s := by
  have holds := closed.objects c m d reached hd s mem v base o ho
  have live (v : VarId) (mentions : v ∈ Builder.mentioned s) :
      (F.justified p sel).Live p (.var c v) :=
    live_of_owns ((owned.methods m d hd).body s mem v mentions) reached
  cases s with
  | loadField lhs | loadArray lhs => exact ⟨live lhs (by simp [Builder.mentioned]), holds⟩
  | storeField | storeArray => exact ⟨trivial, holds⟩
  | invoke site =>
    intro decl hdecl callee target
    obtain ⟨decl', hdecl', rfl⟩ := (owned.methods m d hd).invokes site mem
    cases hdecl.symm.trans hdecl'
    rw [Catalog.base?, hdecl, Option.bind_some] at base
    split at base
    next isDispatched =>
      obtain ⟨calls, binds⟩ := holds decl hdecl callee target
      refine ⟨fun via hk => ?_, fun d' this hd' ht => ⟨binds d' this hd' ht, ?_⟩⟩
      · exact (Selects.dispatched hk isDispatched base ho target).demands hdecl reached
          (calls via hk)
      · obtain ⟨via, hk⟩ : ∃ via, decl.kind.via? = some via := by
          cases hk : decl.kind with
          | dynamic => rw [hk] at isDispatched; cases isDispatched
          | _ => exact ⟨_, rfl⟩
        exact live_of_owns ((owned.methods callee d' hd').receiver this ht)
          (closed.callees _ _ _ _ _ (calls via hk))
    next => cases base
  | _ => trivial

/-- A set of facts that satisfies the constraints of a well-scoped program needs no others, and no
calls but those that it justifies. -/
theorem Closed.supports_justified : (F.justified p sel).Supports p sel where
  entries := closed.entries
  bodies c m reached d hd i s hs := closed.supports_reached owned reached hd hs
  arrivals c v decl o hv reached ho s hs base := by
    obtain ⟨m, d, hd, mem⟩ := hs
    obtain ⟨decl', hv', rfl⟩ := owned.owns_base hd mem base
    cases hv.symm.trans hv'
    exact closed.supports_object owned reached hd mem base ho
  callees via c site c' m call := closed.callees via c site c' m call.1.1
  links via c site c' m call isCore decl d hdecl hd := by
    have reached := closed.callees _ _ _ _ _ call.1.1
    obtain ⟨args, returns, receiver⟩ := closed.links _ _ _ _ _ call.1.1 isCore decl d hdecl hd
    have own := owned.methods m d hd
    refine ⟨fun pair mem => ⟨?_, args pair mem⟩, fun result hr value hv =>
      ⟨?_, returns result hr value hv⟩, fun special base this hb ht =>
      ⟨?_, receiver special base this hb ht⟩⟩
    · exact live_of_owns (own.params pair.2 (List.of_mem_zip mem).2) reached
    · obtain ⟨decl', hdecl', reached, -⟩ := call.1.2
      cases hdecl.symm.trans hdecl'
      exact live_of_owns (owned.sites site decl hdecl result (by simp [CallSite.vars, hr])) reached
    · exact live_of_owns (own.receiver this ht) reached

end Supports

end Solution

/-- Sets of facts that hold nothing that the constraints do not force. -/
structure Solution.Forced (F : Solution) (p : Program) (sel : Selector) : Prop where
  le : ∀ G : Solution, G.Closed p sel → F.Le G
  /-- A call is one that its call site selects, a dispatched one on some object of its receiver. -/
  justified : ∀ via c site c' m, F.calls via c site c' m → F.Justified p sel via c site c' m

/-- Precision of the fixpoint. When a run without plugins ends without a fault, for whatever
selector, its result is legible and contained in every set of facts that satisfies the constraints
of the program, and its own facts justify all of its calls. -/
theorem facts_least {σ : Type} {ds : List Declaration} {p : Program}
    (built : (Builder.ofDeclarations ds).build = .ok p) {sel : Selector} {contexts : ContextTable}
    {own : σ} {fuel : Nat} {r : Run σ}
    (ran : analyze fuel (.all []) own (.initial p sel contexts) = r)
    (finished : r.verdict = .finished) : r.solver.Legible ∧ r.solver.facts.Forced p sel := by
  subst ran
  have indexed := Program.indexed_of_build built
  have owned := Program.scoped_of_build built
  have least (F : Solution) (closed : F.Closed p sel) := (Analysis.running_of_finished
    (closed.supports_justified owned) indexed finished).1.sound
  obtain ⟨running, quiet⟩ := Analysis.running_of_finished Solution.supports_core indexed finished
  have closed := running.closed quiet fun _ _ _ _ _ => id
  refine ⟨running.sound.legible, fun F hF => ?_, fun via c site c' m call => ?_⟩
  · obtain ⟨reached, points, calls⟩ := (least F hF).facts_le
    exact ⟨reached, points, fun via c site c' m call => (calls via c site c' m call).1⟩
  · exact ((least _ closed).facts_le.calls via c site c' m call).2

open Examples in
theorem facts_least_echo : (Builder.ofDeclarations echo).build = .ok (.ofDeclarations echo) ∧
    echoed.verdict = .finished ∧
    echoed.solver.facts.calls .virtual [] ⟨0⟩ [.object ⟨.allocation ⟨0⟩ 0, ⟨1⟩, some ⟨0⟩⟩] ⟨1⟩ ∧
    echoed.solver.Legible ∧ echoed.solver.facts.Forced (.ofDeclarations echo) (.object 2) := by
  have built : (Builder.ofDeclarations echo).build = _ :=
    Program.build_ofDeclarations (by decide +kernel)
  have finished : echoed.verdict = .finished := by decide +kernel
  exact ⟨built, finished, by decide +kernel, facts_least built rfl finished⟩

end PointsTo
