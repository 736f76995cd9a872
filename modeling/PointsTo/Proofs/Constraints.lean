import PointsTo.Proofs.Meaning
import PointsTo.Solver.Reach

/-!
The constraints of a program. They are stated over meanings, so they do not mention the solver that
is to satisfy them.
-/
namespace PointsTo

/-! ### Selected situations -/

/-- The class that stands for an object in a context; unlike `allocatorType?` it always answers. -/
def Catalog.allocatorType (p : Catalog) (o : AbstractObject) : TypeId :=
  (Selector.allocatorType? p o).getD o.type

namespace Selector

/-- The situation of a callee that does not depend on a receiver. -/
def calleeSituation (sel : Selector) (c : Situation) (site : CallSiteId) : Situation :=
  match sel with
  | insensitive => []
  | callSite k => (.callSite site :: c).take k
  | object _ | type _ => c

/-- The situation of a callee that is dispatched on a receiver. -/
def dispatchSituation (sel : Selector) (p : Catalog) (c : Situation) (site : CallSiteId)
    (receiver : Value) : Situation :=
  match sel with
  | insensitive | callSite _ => sel.calleeSituation c site
  | object k => (.object receiver.object :: receiver.context).take k
  | type k => (.type (p.allocatorType receiver.object) :: receiver.context).take k

/-- The situation of an object that a method allocates. -/
def heapSituation (sel : Selector) (c : Situation) : Situation := c.take (sel.limit - 1)

end Selector

/-! ### What constraints are about -/

/-- How a call comes about: the kind of its call site, or a plugin's mechanism together with the
call site that the call derives from. -/
inductive Via
  | static
  | special
  | virtual
  | interface
  | extension (tag : String) (context : Situation) (site : CallSiteId)
  deriving DecidableEq, Repr

/-- Calls that no plugin contributes. -/
def Via.IsCore : Via → Prop
  | .extension .. => False
  | _ => True

/-- How the calls of a call site come about without plugins. -/
def CallKind.via? : CallKind → Option Via
  | .static => some .static
  | .special => some .special
  | .virtual => some .virtual
  | .interface => some .interface
  | .dynamic _ => none

/-- A way to read constraints: over sets of facts, or over the flows that a solver has put in. -/
structure Reading where
  points : Place → Value → Prop
  carries : Place → Place → FlowKind → Prop
  calls : Via → Situation → CallSiteId → Situation → MethodId → Prop

/-- Whatever `R` grants, `S` grants. -/
structure Reading.Le (R S : Reading) : Prop where
  points : ∀ P v, R.points P v → S.points P v
  carries : ∀ P Q k, R.carries P Q k → S.carries P Q k
  calls : ∀ via c site c' m, R.calls via c site c' m → S.calls via c site c' m

/-- The variable whose objects a statement waits for: the base of an access, or the receiver of a
dispatched call. -/
def Catalog.base? (p : Catalog) : Statement → Option VarId
  | .loadField _ base _ | .storeField base _ _ | .loadArray _ base | .storeArray base _ => some base
  | .invoke site =>
    (p.callSites[site]?).bind fun decl => if decl.kind.isDispatched then decl.base else none
  | _ => none

/-- Whether a statement stands in the body of some method. -/
def Catalog.Contains (p : Catalog) (s : Statement) : Prop :=
  ∃ (m : MethodId) (d : MethodDecl), p.methods[m]? = some d ∧ s ∈ d.body

/-- A dispatched call on a variable has no target on a value. -/
def Program.Fails (p : Program) (v : VarId) (site : CallSiteId) (o : Value) : Prop :=
  p.Contains (.invoke site) ∧ p.base? (.invoke site) = some v ∧
    ∃ decl, p.callSites[site]? = some decl ∧ p.dispatch o.object.type decl.target.sub = none

namespace Reading

variable (R : Reading) (p : Program) (sel : Selector)

/-! ### The constraints -/

/-- A call of the method that the call site names. -/
def NamedCall (c : Situation) (site : CallSiteId) (decl : CallSite) (via : Via) : Prop :=
  ∀ callee, p.resolve decl.target = some callee →
    R.calls via c site (sel.calleeSituation c site) callee

/-- The object that stands for a concatenated string. -/
def concatenated (site : CallSiteId) (type : TypeId) (decl : CallSite) : Value :=
  ⟨[], .mock Solve.stringConcatenation site, type, some decl.container⟩

/-- What a call site demands once its method is reached. -/
def Site (c : Situation) (site : CallSiteId) (decl : CallSite) : Prop :=
  match decl.kind with
  | .static => R.NamedCall p sel c site decl .static
  | .special => R.NamedCall p sel c site decl .special
  | .virtual | .interface => True
  | .dynamic call => call.bootstrap = .stringConcat → ∀ result type, decl.result = some result →
      decl.target.sub.result = some type →
      R.points (.var c result) (concatenated site type decl)

/-- What statement `i` of a method demands once the method is reached. -/
def Reached (c : Situation) (m : MethodId) (i : Nat) : Statement → Prop
  | .new lhs type =>
    R.points (.var c lhs) ⟨sel.heapSituation c, .allocation m i, type, some m⟩
  | .assign lhs rhs => R.carries (.var c rhs) (.var c lhs) .assign
  | .cast lhs rhs type => R.carries (.var c rhs) (.var c lhs) (.cast type)
  | .loadStatic lhs field => R.carries (.static field) (.var c lhs) .staticLoad
  | .storeStatic field rhs => R.carries (.var c rhs) (.static field) .staticStore
  | .invoke site => ∀ decl, p.callSites[site]? = some decl → R.Site p sel c site decl
  | .loadField .. | .storeField .. | .loadArray .. | .storeArray .. | .ret _ => True

/-- What a method demands once it is reached: all that its statements demand. -/
def Body (c : Situation) (m : MethodId) : Prop :=
  ∀ d, p.methods[m]? = some d → ∀ i s, d.body[i]? = some s → R.Reached p sel c m i s

/-- What a dispatched call demands of a receiver: the call, and the binding of the receiver. -/
def Receiver (c : Situation) (site : CallSiteId) (decl : CallSite) (o : Value) : Prop :=
  ∀ callee, p.dispatch o.object.type decl.target.sub = some callee →
    (∀ via, decl.kind.via? = some via →
      R.calls via c site (sel.dispatchSituation p.toCatalog c site o) callee) ∧
    ∀ d this, p.methods[callee]? = some d → d.receiver = some this →
      R.points (.var (sel.dispatchSituation p.toCatalog c site o) this) o

/-- What a statement demands of an object of the variable that it waits for. -/
def Object (c : Situation) (o : Value) : Statement → Prop
  | .loadField lhs _ field => R.carries (.field o field) (.var c lhs) .fieldLoad
  | .storeField _ field rhs => R.carries (.var c rhs) (.field o field) .fieldStore
  | .loadArray lhs _ => R.carries (.array o) (.var c lhs) .arrayLoad
  | .storeArray _ rhs => R.carries (.var c rhs) (.array o) .arrayStore
  | .invoke site => ∀ decl, p.callSites[site]? = some decl → R.Receiver p sel c site decl o
  | _ => True

/-- What all statements that wait for a variable demand of an object of it. -/
def Arrival (c : Situation) (v : VarId) (o : Value) : Prop :=
  ∀ s, p.Contains s → p.base? s = some v → R.Object p sel c o s

/-- What a call demands: its arguments flow to the parameters, the returned values to its result,
and the base of a special call to the receiver. -/
def Link (via : Via) (c : Situation) (site : CallSiteId) (c' : Situation) (callee : MethodId) :
    Prop :=
  ∀ decl d, p.callSites[site]? = some decl → p.methods[callee]? = some d →
    (∀ pair ∈ decl.args.zip d.params, R.carries (.var c pair.1) (.var c' pair.2) .parameter) ∧
    (∀ result, decl.result = some result → ∀ value ∈ d.returns,
      R.carries (.var c' value) (.var c result) .ret) ∧
    (via = .special → ∀ base this, decl.base = some base → d.receiver = some this →
      R.carries (.var c base) (.var c' this) .parameter)

/-! ### Constraints are monotone -/

variable {R} {p} {sel} {S : Reading} {c c' : Situation} {site : CallSiteId} {decl : CallSite}

namespace Le

variable (h : R.Le S)
include h

theorem site_mono (hs : R.Site p sel c site decl) : S.Site p sel c site decl := by
  unfold Site at hs ⊢
  split
  next => exact fun callee hc => h.calls _ _ _ _ _ (by simp_all [NamedCall])
  next => exact fun callee hc => h.calls _ _ _ _ _ (by simp_all [NamedCall])
  next => trivial
  next => trivial
  next call hk =>
    rw [hk] at hs
    exact fun concat result type hr ht => h.points _ _ (hs concat result type hr ht)

theorem reached_mono {m : MethodId} {i : Nat} {s : Statement} (hs : R.Reached p sel c m i s) :
    S.Reached p sel c m i s := by
  cases s with
  | new => exact h.points _ _ hs
  | assign => exact h.carries _ _ _ hs
  | cast => exact h.carries _ _ _ hs
  | loadStatic => exact h.carries _ _ _ hs
  | storeStatic => exact h.carries _ _ _ hs
  | invoke site => exact fun decl hd => h.site_mono (hs decl hd)
  | loadField => trivial
  | storeField => trivial
  | loadArray => trivial
  | storeArray => trivial
  | ret => trivial

theorem body_mono {m : MethodId} (hb : R.Body p sel c m) : S.Body p sel c m :=
  fun d hd i s hs => h.reached_mono (hb d hd i s hs)

theorem receiver_mono {o : Value} (hr : R.Receiver p sel c site decl o) :
    S.Receiver p sel c site decl o := fun callee hc =>
  ⟨fun via hv => h.calls _ _ _ _ _ ((hr callee hc).1 via hv),
    fun d this hd ht => h.points _ _ ((hr callee hc).2 d this hd ht)⟩

theorem object_mono {o : Value} {s : Statement} (hs : R.Object p sel c o s) :
    S.Object p sel c o s := by
  cases s with
  | loadField => exact h.carries _ _ _ hs
  | storeField => exact h.carries _ _ _ hs
  | loadArray => exact h.carries _ _ _ hs
  | storeArray => exact h.carries _ _ _ hs
  | invoke site => exact fun decl hd => h.receiver_mono (hs decl hd)
  | new => trivial
  | assign => trivial
  | cast => trivial
  | loadStatic => trivial
  | storeStatic => trivial
  | ret => trivial

theorem arrival_mono {v : VarId} {o : Value} (ha : R.Arrival p sel c v o) :
    S.Arrival p sel c v o := fun s hs hb => h.object_mono (ha s hs hb)

end Le

/-- What a call demands is about flows only. -/
theorem Link.mono {via : Via} {m : MethodId} (hl : R.Link p via c site c' m)
    (le : ∀ P Q k, R.carries P Q k → S.carries P Q k) : S.Link p via c site c' m := by
  intro decl d hd hm
  obtain ⟨args, returns, base⟩ := hl decl d hd hm
  exact ⟨fun pair hp => le _ _ _ (args pair hp),
    fun result hr value hv => le _ _ _ (returns result hr value hv),
    fun special b this hb ht => le _ _ _ (base special b this hb ht)⟩

end Reading

/-! ### Sets of facts -/

/-- What an analysis finds out: the reached methods, the objects of each place, and the calls. -/
structure Solution where
  reached : Situation → MethodId → Prop
  points : Place → Value → Prop
  calls : Via → Situation → CallSiteId → Situation → MethodId → Prop

/-- Whether a value passes a flow of a kind: casts let through the objects of a subtype only. -/
def Program.Passes (p : Program) : FlowKind → Value → Prop
  | .cast type, v => p.isSubtype v.object.type type = true
  | _, _ => True

namespace Solution

/-- In a set of facts, a flow carries what passes it from its source to its target. -/
def reading (F : Solution) (p : Program) : Reading where
  points := F.points
  carries P Q k := ∀ v, F.points P v → p.Passes k v → F.points Q v
  calls := F.calls

/-- All facts of `F` are facts of `G`. -/
structure Le (F G : Solution) : Prop where
  reached : ∀ c m, F.reached c m → G.reached c m
  points : ∀ P v, F.points P v → G.points P v
  calls : ∀ via c site c' m, F.calls via c site c' m → G.calls via c site c' m

/-- The callees that a call site selects without plugins: the method that it names, or the methods
that it dispatches to on the objects of its receiver. -/
inductive Selects (F : Solution) (p : Program) (sel : Selector) (via : Via) (c : Situation)
    (site : CallSiteId) (decl : CallSite) : Situation → MethodId → Prop
  | named {m} (hk : decl.kind.via? = some via) (named : decl.kind.isDispatched = false)
    (target : p.resolve decl.target = some m) :
    Selects F p sel via c site decl (sel.calleeSituation c site) m
  | dispatched {base o m} (hk : decl.kind.via? = some via)
    (isDispatched : decl.kind.isDispatched = true) (hb : decl.base = some base)
    (ho : F.points (.var c base) o)
    (target : p.dispatch o.object.type decl.target.sub = some m) :
    Selects F p sel via c site decl (sel.dispatchSituation p.toCatalog c site o) m

theorem Selects.via_eq {F : Solution} {p : Program} {sel : Selector} {via : Via} {c c' : Situation}
    {site : CallSiteId} {decl : CallSite} {m : MethodId}
    (h : F.Selects p sel via c site decl c' m) : decl.kind.via? = some via := by
  cases h with
  | named hk => exact hk
  | dispatched hk => exact hk

/-- Sets of facts that satisfy every constraint of a program. -/
structure Closed (F : Solution) (p : Program) (sel : Selector) : Prop where
  /-- Every entry is reached in the empty context. -/
  entries : ∀ m ∈ p.entries, F.reached [] m
  /-- Every statement of a reached method is satisfied. -/
  statements : ∀ c m, F.reached c m → (F.reading p).Body p sel c m
  /-- Every access and every dispatched call is satisfied for every object of its base. -/
  objects : ∀ c m d, F.reached c m → p.methods[m]? = some d → ∀ s ∈ d.body, ∀ v,
    p.base? s = some v → ∀ o, F.points (.var c v) o → (F.reading p).Object p sel c o s
  /-- Callees are reached. -/
  callees : ∀ via c site c' m, F.calls via c site c' m → F.reached c' m
  /-- Arguments and results are passed along every call that no plugin contributes. -/
  links : ∀ via c site c' m, F.calls via c site c' m → via.IsCore →
    (F.reading p).Link p via c site c' m

end Solution
end PointsTo
