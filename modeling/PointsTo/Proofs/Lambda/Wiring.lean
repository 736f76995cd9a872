import PointsTo.Proofs.Lambda.Runs
import PointsTo.Proofs.Scope

/-!
What a finished run with function values passes along: every call that a call site selects, by
itself or on a function value, has been made, and the call that is recorded for it is linked.
-/
namespace PointsTo

open Facts

namespace Analysis

variable {F : Solution} {p : Program} {sel : Selector} {s : Solver}

end Analysis

namespace Lambda

variable {l : State} {s : Solver} {u : Use}

/-! ### What is attended to at the end -/

namespace Attends

variable {F : Solution} {p : Program} {sel : Selector} (h : Attends l s)
  (running : Analysis.Running F p sel s) (quiet : s.Quiet)
include h running quiet

/-- The rules have taken effect for every function value that a call site meets. -/
theorem engaged (meets : u.Meets p s.facts.points) : u.Engaged l s := by
  obtain rfl := running.program
  obtain ⟨base, w, points, fails, origin, context⟩ := meets
  obtain ⟨n, o, hn, ho, all⟩ := Solver.points_iff.1 points
  have passed := running.propagated_of_quiet quiet all
  obtain announced | met := h.failures n o passed _ _ _ hn ho _ fails
  · obtain ⟨_, _, -, -, mem⟩ := announced
    rw [quiet.1] at mem
    cases mem
  · have engaged := met u.creation origin
    rwa [context] at engaged

/-- A call that waits for receivers has been made on all of them. -/
theorem answers {decl created : CallSite} (waits : u.Waits l s decl created) {P : Place} {w : Value}
    (receiver : u.receiver? decl created = some P) (points : s.Points P w) : u.Answers s w := by
  obtain ⟨x, i, hx, mem, means⟩ := waits P receiver
  obtain ⟨n, o, hn, ho, all⟩ := Solver.points_iff.1 points
  obtain ⟨q, hq, hQ⟩ := Option.bind_eq_some_iff.1 hn
  cases Elements.eq_of_place? hQ hx
  have passed := running.propagated_of_quiet quiet all
  obtain ⟨_, -, announced⟩ | made := h.arrivals x i mem n o hq passed
  · rw [quiet.1] at announced
    cases announced
  · exact made u w means ho

/-- A recorded call that derives from a function value is linked. -/
theorem linked {c : Situation} {m : MethodId} (call : s.facts.calls
      (.extension callTag u.creationContext u.creation) u.context u.site c m) :
    u.Link (s.facts.reading p) p c m := by
  obtain ⟨call, hc, hv, hs, hm⟩ := call
  have made := (h.links call hc).resolve_left fun announced => by
    rw [quiet.1] at announced
    cases announced
  cases hk : call.edge.kind with
  | extension tag origin =>
    rw [hk] at hv
    obtain ⟨⟨d, creation⟩, ho, same⟩ := Option.map_eq_some_iff.1 hv
    cases same
    have linked := made origin hk u c m hs ho hm
    rw [running.program] at linked
    exact linked.mono fun _ _ _ => running.carries_of_flows quiet
  | _ => rw [hk] at hv; cases hv

end Attends

/-! ### Finished runs -/

namespace Examples

/-- The handle of a static method that returns its argument. -/
def echo : MethodHandle := ⟨.invokeStatic, ⟨4⟩, "echo", [⟨0⟩], some ⟨0⟩⟩

theorem returns_plain (site : CallSiteId) : Statement.ret (some ⟨1⟩) ≠ .invoke site := nofun

/-- A program that makes two suppliers at one creation site, each with a captured object, and asks
either at one call site. -/
def suppliers : List Declaration :=
  [.type "Object" (.nominal ⟨none, [], false, false⟩),
   .type "Supplier" (.nominal ⟨none, [], true, true⟩),
   .type "A" (.nominal ⟨some ⟨0⟩, [], false, false⟩),
   .type "B" (.nominal ⟨some ⟨0⟩, [], false, false⟩),
   .type "Main" (.nominal ⟨some ⟨0⟩, [], false, false⟩),
   .method ⟨⟨1⟩, "get", [], some ⟨0⟩⟩ false true,
   .method echo.target true false,
   .method ⟨⟨4⟩, "make", [⟨0⟩], some ⟨1⟩⟩ true false,
   .method ⟨⟨4⟩, "main", [], none⟩ true false,
   .var ⟨2⟩ "made" ⟨1⟩, .var ⟨3⟩ "a" ⟨2⟩, .var ⟨3⟩ "b" ⟨3⟩, .var ⟨3⟩ "s" ⟨1⟩, .var ⟨3⟩ "r" ⟨0⟩,
   .statement ⟨1⟩ (.ret (some ⟨1⟩)) returns_plain,
   .dynamicCall ⟨2⟩ ⟨.lambda, some echo⟩ "get" (some ⟨1⟩) [⟨2⟩] (some ⟨3⟩),
   .statement ⟨2⟩ (.ret (some ⟨3⟩)) (by simp),
   .statement ⟨3⟩ (.new ⟨4⟩ ⟨2⟩) (by simp),
   .statement ⟨3⟩ (.new ⟨5⟩ ⟨3⟩) (by simp),
   .call ⟨3⟩ .static ⟨⟨4⟩, "make", [⟨0⟩], some ⟨1⟩⟩ none [⟨4⟩] (some ⟨6⟩),
   .call ⟨3⟩ .static ⟨⟨4⟩, "make", [⟨0⟩], some ⟨1⟩⟩ none [⟨5⟩] (some ⟨6⟩),
   .call ⟨3⟩ .interface ⟨⟨1⟩, "get", [], some ⟨0⟩⟩ (some ⟨6⟩) [] (some ⟨7⟩),
   .entry ⟨3⟩]

def supplied : Run State :=
  analyze 100 (.all [plugin]) {} (.initial (.ofDeclarations suppliers) (.callSite 1) default)

/-- The creation of a supplier. -/
def making : CallSite :=
  ⟨⟨2⟩, 0, .dynamic ⟨.lambda, some echo⟩, ⟨⟨4⟩, "get", [⟨0⟩], some ⟨1⟩⟩, none, [⟨2⟩], some ⟨3⟩⟩

/-- The use of the supplier that is made on behalf of a call. -/
def asked (maker : CallSiteId) : Use := ⟨[], ⟨3⟩, [.callSite maker], ⟨0⟩⟩

/-- The object that is captured on behalf of the second call. -/
def captured : Value := ⟨[], .allocation ⟨3⟩ 1, ⟨3⟩, some ⟨3⟩⟩

def echoing : MethodDecl := ⟨echo.target, true, false, none, [⟨1⟩], [⟨1⟩], #[.ret (some ⟨1⟩)]⟩

def entering : MethodDecl := ⟨⟨⟨4⟩, "main", [], none⟩, true, false, none, [], [],
  #[.new ⟨4⟩ ⟨2⟩, .new ⟨5⟩ ⟨3⟩, .invoke ⟨1⟩, .invoke ⟨2⟩, .invoke ⟨3⟩]⟩

end Examples

namespace Examples

/-- A program that applies an object of a class and a function value at one call site. The function
value hands over a method of the class. -/
def functions : List Declaration :=
  [.type "Object" (.nominal ⟨none, [], false, false⟩),
   .type "Function" (.nominal ⟨none, [], true, true⟩),
   .type "A" (.nominal ⟨some ⟨0⟩, [⟨1⟩], false, false⟩),
   .type "BiFunction" (.nominal ⟨none, [⟨1⟩], true, true⟩),
   .type "Main" (.nominal ⟨some ⟨0⟩, [], false, false⟩),
   .method ⟨⟨1⟩, "apply", [⟨0⟩], some ⟨0⟩⟩ false true,
   .method ⟨⟨2⟩, "apply", [⟨0⟩], some ⟨0⟩⟩ false false,
   .method ⟨⟨3⟩, "apply", [⟨0⟩], some ⟨0⟩⟩ false false,
   .method ⟨⟨3⟩, "apply", [⟨2⟩, ⟨0⟩], some ⟨0⟩⟩ false true,
   .method ⟨⟨4⟩, "main", [], none⟩ true false,
   .var ⟨4⟩ "a" ⟨2⟩, .var ⟨4⟩ "g" ⟨1⟩, .var ⟨4⟩ "f" ⟨1⟩, .var ⟨4⟩ "r" ⟨0⟩,
   .statement ⟨1⟩ (.ret (some ⟨3⟩)) (by simp),
   .statement ⟨2⟩ (.ret (some ⟨5⟩)) (by simp),
   .statement ⟨4⟩ (.new ⟨9⟩ ⟨2⟩) (by simp),
   .statement ⟨4⟩ (.assign ⟨10⟩ ⟨9⟩) (by simp),
   .dynamicCall ⟨4⟩ ⟨.lambda, some ⟨.invokeVirtual, ⟨2⟩, "apply", [⟨0⟩], some ⟨0⟩⟩⟩ "apply"
     (some ⟨3⟩) [] (some ⟨11⟩),
   .statement ⟨4⟩ (.assign ⟨11⟩ ⟨10⟩) (by simp),
   .call ⟨4⟩ .interface ⟨⟨1⟩, "apply", [⟨0⟩], some ⟨0⟩⟩ (some ⟨11⟩) [⟨9⟩] (some ⟨12⟩),
   .entry ⟨4⟩]

/-- The call that applies. -/
def applying : CallSite :=
  ⟨⟨4⟩, 1, .interface, ⟨⟨1⟩, "apply", [⟨0⟩], some ⟨0⟩⟩, some ⟨11⟩, [⟨9⟩], some ⟨12⟩⟩

end Examples

end Lambda
end PointsTo
