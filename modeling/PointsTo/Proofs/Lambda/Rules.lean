import PointsTo.Lambda
import PointsTo.Proofs.Constraints

/-!
The rules of function values: which methods a call on a function value goes to, and what is passed
along such a call. Like the constraints of a program, they are stated over meanings.
-/
namespace PointsTo.Lambda

/-- A creation site of a method, with the variable and the type of its result. -/
def Creates (p : Program) (m : MethodId) (site : CallSiteId) (result : VarId) (type : TypeId) :
    Prop :=
  ∃ d decl, p.methods[m]? = some d ∧ .invoke site ∈ d.body ∧ p.callSites[site]? = some decl ∧
    isCreation decl = true ∧ decl.result = some result ∧ decl.target.sub.result = some type

/-- The function value that a creation site of a method makes in a situation. -/
def valueIn (c : Situation) (m : MethodId) (site : CallSiteId) (type : TypeId) : Value :=
  ⟨c, .mock functionValue site, type, some m⟩

/-- A call on a function value: the call site and the creation site, each in its situation. -/
structure Use where
  context : Situation
  site : CallSiteId
  creationContext : Situation
  creation : CallSiteId
  deriving DecidableEq, Repr

namespace Use

/-- The object that a constructor reference makes. -/
def constructed (u : Use) (created : CallSite) (callee : MethodDecl) : Value :=
  ⟨u.context, .mock constructedObject u.creation, callee.ref.owner, some created.container⟩

/-- The place whose objects serve as receivers: the first captured value, or when nothing is
captured, the first argument. -/
def receiver? (u : Use) (decl created : CallSite) : Option Place :=
  match created.args, decl.args with
  | captured :: _, _ => some (.var u.creationContext captured)
  | [], actual :: _ => some (.var u.context actual)
  | [], [] => none

/-- What is passed to a callee: the captured values, then the arguments, without the one that
serves as the receiver. -/
def arguments (u : Use) (decl created : CallSite) (callee : MethodDecl) : List Place :=
  let takesReceiver := !callee.isStatic && !callee.isConstructor
  let captured := if takesReceiver then created.args.drop 1 else created.args
  let actual := if takesReceiver && created.args.isEmpty then decl.args.drop 1 else decl.args
  captured.map (.var u.creationContext) ++ actual.map (.var u.context)

/-- What is passed to a callee, each variable with whether it is captured. -/
def passed (decl created : CallSite) (callee : MethodDecl) : List (Bool × VarId) :=
  let takesReceiver := !callee.isStatic && !callee.isConstructor
  let captured := if takesReceiver then created.args.drop 1 else created.args
  let actual := if takesReceiver && created.args.isEmpty then decl.args.drop 1 else decl.args
  captured.map (true, ·) ++ actual.map (false, ·)

theorem arguments_eq (u : Use) (decl created : CallSite) (callee : MethodDecl) :
    u.arguments decl created callee = (passed decl created callee).map fun (captured, v) =>
      .var (if captured then u.creationContext else u.context) v := by
  simp [arguments, passed, Function.comp_def]

/-- The same for the contexts that stand for the situations. -/
theorem contextArguments_eq (callee : MethodDecl) (creation : InContext .callSite)
    (created : CallSite) (site : InContext .callSite) (decl : CallSite) :
    Lambda.arguments callee creation created site decl =
      (passed decl created callee).map fun (captured, v) =>
        (if captured then creation.context else site.context, v) := by
  simp [Lambda.arguments, passed, Function.comp_def]

/-- The call site meets the function value: as an object of its base on which dispatch fails. -/
def Meets (u : Use) (p : Program) (points : Place → Value → Prop) : Prop :=
  ∃ base w, points (.var u.context base) w ∧ p.Fails base u.site w ∧
    w.object.origin = .mock functionValue u.creation ∧ w.context = u.creationContext

/-- The function value takes the call: the names agree, and the method that it hands over, `target`,
can be resolved. -/
structure Takes (u : Use) (p : Program) (decl created : CallSite) (handle : MethodHandle)
    (target : MethodId) : Prop where
  site : p.callSites[u.site]? = some decl
  creation : p.callSites[u.creation]? = some created
  names : created.target.sub.name = decl.target.sub.name
  kind : ∃ bootstrap, created.kind = .dynamic ⟨bootstrap, some handle⟩
  target : p.resolve handle.target = some target

/-- The callees of a call on a function value, where `points` tells the objects of each place. -/
inductive Selects (u : Use) (p : Program) (sel : Selector) (points : Place → Value → Prop)
    (decl created : CallSite) (handle : MethodHandle) (target : MethodId) :
    Situation → MethodId → Prop
  | static (hk : handle.kind = .invokeStatic) :
    Selects u p sel points decl created handle target (sel.calleeSituation u.context u.site) target
  | constructor {d} (hk : handle.kind = .newInvokeSpecial) (hd : p.methods[target]? = some d) :
    Selects u p sel points decl created handle target
      (sel.dispatchSituation p.toCatalog u.context u.site (u.constructed created d)) target
  | dispatched {P o m}
    (hk : handle.kind ∈ [.invokeInterface, .invokeVirtual, .invokeSpecial])
    (hr : u.receiver? decl created = some P) (ho : points P o)
    (hm : p.dispatch o.object.type handle.target.sub = some m) :
    Selects u p sel points decl created handle target
      (sel.dispatchSituation p.toCatalog u.context u.site o) m

/-- What a call on a function value demands: captured values and arguments flow to the parameters,
and returned values, but for those of constructors, to the result. -/
def Link (u : Use) (R : Reading) (p : Program) (c : Situation) (callee : MethodId) : Prop :=
  ∀ decl created d, p.callSites[u.site]? = some decl → p.callSites[u.creation]? = some created →
    p.methods[callee]? = some d →
    (∀ pair ∈ (u.arguments decl created d).zip d.params,
      R.carries pair.1 (.var c pair.2) .parameter) ∧
    (∀ result, decl.result = some result → d.isConstructor = false → ∀ value ∈ d.returns,
      R.carries (.var c value) (.var u.context result) .ret)

theorem Link.mono {u : Use} {R S : Reading} {p : Program} {c : Situation} {m : MethodId}
    (h : u.Link R p c m) (le : ∀ P Q k, R.carries P Q k → S.carries P Q k) : u.Link S p c m := by
  intro decl created d hd hc hm
  obtain ⟨arguments, returns⟩ := h decl created d hd hc hm
  exact ⟨fun pair mem => le _ _ _ (arguments pair mem),
    fun result hr own value mem => le _ _ _ (returns result hr own value mem)⟩

end Use

end PointsTo.Lambda
