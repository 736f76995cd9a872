import PointsTo.Proofs.Scope
import PointsTo.Proofs.Sound

/-!
The rules of taint tracking: what they demand of a call. Like the constraints of a program, they are
stated over meanings.
-/
namespace PointsTo.Taint

/-- The tainted value of a source call, as a value of a type. It is the same in all contexts. -/
def tainted (source : CallSiteId) (type : TypeId) : Value :=
  ⟨[], .mock taintedValue source, type, none⟩

theorem sourceCall?_tainted {source : CallSiteId} {type : TypeId} :
    sourceCall? (tainted source type).object = some source := by
  simp [sourceCall?, tainted]

/-- The variables at the positions of a call stand at the call. -/
theorem mem_vars_of_varAt? {decl : CallSite} {position : Position} {v : VarId}
    (h : varAt? decl position = some v) : v ∈ decl.vars := by
  cases position with
  | base => simp [CallSite.vars, show decl.base = some v from h]
  | result => simp [CallSite.vars, show decl.result = some v from h]
  | arg i => simp [CallSite.vars, List.mem_of_getElem? h]

/-- What the rules demand of a call: the results of sources are tainted, and transfers copy whatever
tainted values they find. -/
structure Rules.Holds (rules : Rules) (points : Place → Value → Prop) (c : Situation)
    (site : CallSiteId) (decl : CallSite) (callee : MethodId) : Prop where
  sources : ∀ result, decl.result = some result → ∀ type ∈ rules.sourceTypes callee,
    points (.var c result) (tainted site type)
  transfers : ∀ rule ∈ rules.transfersOf callee, ∀ source target,
    varAt? decl rule.source = some source → varAt? decl rule.target = some target →
      ∀ w q, points (.var c source) w → sourceCall? w.object = some q →
        points (.var c target) (tainted q rule.type)

end PointsTo.Taint

namespace PointsTo

namespace Solution

/-- Tainted values of a variable are copied to another one, in whatever context. -/
def Transfers (F : Solution) (p : Program) (source target : VarId) (type : TypeId) : Prop :=
  ∀ c w q, (F.demands p).points (.var c source) w → Taint.sourceCall? w.object = some q →
    (F.demands p).points (.var c target) (Taint.tainted q type)

/-- Sets of facts that the rules never lead out of. A transfer that is known from a call in one context
works in all contexts. -/
structure Taints (F : Solution) (p : Program) (rules : Taint.Rules) : Prop where
  sources : ∀ via c site c' m, (F.demands p).calls via c site c' m → ∀ decl,
    p.callSites[site]? = some decl → ∀ result, decl.result = some result →
      ∀ type ∈ rules.sourceTypes m, (F.demands p).points (.var c result) (Taint.tainted site type)
  transfers : ∀ via c site c' m, (F.demands p).calls via c site c' m → ∀ decl,
    p.callSites[site]? = some decl → ∀ rule ∈ rules.transfersOf m, ∀ source target,
      Taint.varAt? decl rule.source = some source → Taint.varAt? decl rule.target = some target →
        F.Transfers p source target rule.type

end Solution

end PointsTo
