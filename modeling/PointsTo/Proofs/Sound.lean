import PointsTo.Lambda
import PointsTo.Proofs.Growth
import PointsTo.Taint.Tracking

/-!
States that hold nothing but facts of a given set, and the single changes that keep them so. Every
change is specified by what it demands of the set and by what the new state grants in return.
-/
namespace PointsTo

open Facts

namespace Solution

variable (F : Solution) (p : Program)

/-- Objects flow into variables of reached methods only. -/
def Live : Place → Prop
  | .var c v => ∀ decl, p.vars[v]? = some decl → F.reached c decl.method
  | _ => True

/-- The constraints as a solver relies on them: besides what they say, flows end in live places,
and calls start in reached methods and come about as their call sites say. -/
def demands : Reading where
  points P v := F.points P v ∧ F.Live p P
  carries P Q k := F.Live p Q ∧ ∀ v, F.points P v → p.Passes k v → F.points Q v
  calls via c site c' m := F.calls via c site c' m ∧
    ∀ decl, p.callSites[site]? = some decl →
      F.reached c decl.container ∧ (via.IsCore → decl.kind.via? = some via)

end Solution

/-- A dynamic call site that yields a value of a type. -/
structure CallSite.Yields (decl : CallSite) (type : TypeId) : Prop where
  dynamic : ∃ call, decl.kind = .dynamic call
  result : decl.target.sub.result = some type

/-- A call site that hands over a constructor, of a class. -/
def Program.Constructs (p : Program) (decl : CallSite) (type : TypeId) : Prop :=
  ∃ bootstrap handle m d, decl.kind = .dynamic ⟨bootstrap, some handle⟩ ∧
    handle.kind = .newInvokeSpecial ∧ p.resolve handle.target = some m ∧
    p.methods[m]? = some d ∧ d.ref.owner = type

/-- Where an object that is made up at a call site belongs: strings and constructed objects to the
method of the call site, function values to a method that makes them, and tainted values nowhere.
Strings and function values are of the type that the site yields, and constructed objects of the
class whose constructor the site hands over. -/
structure Program.Houses (p : Program) (description : String) (site : CallSiteId) (type : TypeId)
    (container : Option MethodId) : Prop where
  bound : description = Solve.stringConcatenation ∨ description = Lambda.constructedObject →
    ∀ decl, p.callSites[site]? = some decl → container = some decl.container
  made : description = Lambda.functionValue →
    ∃ m d decl, container = some m ∧ p.methods[m]? = some d ∧ .invoke site ∈ d.body ∧
      p.callSites[site]? = some decl ∧ decl.Yields type
  tainted : description = Taint.taintedValue → container = none
  joined : description = Solve.stringConcatenation →
    ∃ decl, p.callSites[site]? = some decl ∧ decl.Yields type
  constructed : description = Lambda.constructedObject →
    ∃ decl, p.callSites[site]? = some decl ∧ p.Constructs decl type

namespace Program

variable {p : Program} {site : CallSiteId} {decl : CallSite} {type : TypeId}

theorem houses_concatenation (hd : p.callSites[site]? = some decl) (yields : decl.Yields type) :
    p.Houses Solve.stringConcatenation site type (some decl.container) where
  bound _ decl' hd' := by rw [Option.some.inj (hd.symm.trans hd')]
  made other := absurd other (by decide)
  tainted other := absurd other (by decide)
  joined _ := ⟨decl, hd, yields⟩
  constructed other := absurd other (by decide)

theorem houses_constructed (hd : p.callSites[site]? = some decl) (makes : p.Constructs decl type) :
    p.Houses Lambda.constructedObject site type (some decl.container) where
  bound _ decl' hd' := by rw [Option.some.inj (hd.symm.trans hd')]
  made other := absurd other (by decide)
  tainted other := absurd other (by decide)
  joined other := absurd other (by decide)
  constructed _ := ⟨decl, hd, makes⟩

theorem houses_functionValue (hd : p.callSites[site]? = some decl) {m : MethodId} {d : MethodDecl}
    (hm : p.methods[m]? = some d) (mem : .invoke site ∈ d.body) (yields : decl.Yields type) :
    p.Houses Lambda.functionValue site type (some m) where
  bound other := absurd other (by decide)
  made _ := ⟨m, d, decl, rfl, hm, mem, hd, yields⟩
  tainted other := absurd other (by decide)
  joined other := absurd other (by decide)
  constructed other := absurd other (by decide)

theorem houses_taintedValue : p.Houses Taint.taintedValue site type none where
  bound other := absurd other (by decide)
  made other := absurd other (by decide)
  tainted _ := rfl
  joined other := absurd other (by decide)
  constructed other := absurd other (by decide)

end Program

/-- The objects that programs give rise to: one for each allocation, and those made up at call
sites. -/
def Program.Fits (p : Program) (a : AbstractObject) : Prop :=
  match a.origin with
  | .allocation m i =>
    a.container = some m ∧ ∃ d lhs, p.methods[m]? = some d ∧ d.body[i]? = some (.new lhs a.type)
  | .mock description site => p.Houses description site a.type a.container

namespace Elements

/-- Every id has a meaning. -/
structure Readable (e : Elements) : Prop where
  vars : ∀ v pair, e.vars.get? v = some pair → ∃ σ, e.situation? pair.context = some σ
  objects : ∀ o pair, e.objects.get? o = some pair →
    (∃ σ, e.situation? pair.context = some σ) ∧ ∃ a, e.heap.get? pair.entity = some a
  methods : ∀ m pair, e.methods.get? m = some pair → ∃ σ, e.situation? pair.context = some σ
  sites : ∀ s pair, e.sites.get? s = some pair → ∃ σ, e.situation? pair.context = some σ

namespace Readable

variable {e : Elements} (h : e.Readable)
include h

theorem internContext {c : Context} : (e.internContext c).2.Readable :=
  have w : e.Within (e.internContext c).2 := within_internContext
  { vars := fun v pair hv => (h.vars v pair hv).imp fun _ => w.situation?
    objects := fun o pair ho => (h.objects o pair ho).imp (.imp fun _ => w.situation?) id
    methods := fun m pair hm => (h.methods m pair hm).imp fun _ => w.situation?
    sites := fun s pair hs => (h.sites s pair hs).imp fun _ => w.situation? }

theorem heap {heap : Heap} (w : Table.Within e.heap heap) : { e with heap }.Readable :=
  have w : e.Within { e with heap } := { Within.refl e with heap := w }
  { vars := fun v pair hv => (h.vars v pair hv).imp fun _ => w.situation?
    objects := fun o pair ho => (h.objects o pair ho).imp (.imp fun _ => w.situation?)
      (.imp fun a => w.heap _ a)
    methods := fun m pair hm => (h.methods m pair hm).imp fun _ => w.situation?
    sites := fun s pair hs => (h.sites s pair hs).imp fun _ => w.situation? }

variable {c : ContextId} {σ : Situation} (hc : e.situation? c = some σ)
include hc

theorem internVar {v : VarId} : (e.internVar c v).2.Readable :=
  { h with
    vars := fun v' pair hv => by
      obtain old | rfl := CopyTable.get?_of_intern hv
      · exact h.vars v' pair old
      · exact ⟨σ, hc⟩ }

theorem internMethod {m : MethodId} : (e.internMethod c m).2.Readable :=
  { h with
    methods := fun m' pair hm => by
      obtain old | rfl := CopyTable.get?_of_intern hm
      · exact h.methods m' pair old
      · exact ⟨σ, hc⟩ }

theorem internSite {s : CallSiteId} : (e.internSite c s).2.Readable :=
  { h with
    sites := fun s' pair hs => by
      obtain old | rfl := CopyTable.get?_of_intern hs
      · exact h.sites s' pair old
      · exact ⟨σ, hc⟩ }

theorem internObject {o : ObjectId} {a : AbstractObject} (ho : e.heap.get? o = some a) :
    (e.internObject c o).2.Readable :=
  { h with
    objects := fun o' pair hp => by
      obtain old | rfl := CopyTable.get?_of_intern hp
      · exact h.objects o' pair old
      · exact ⟨⟨σ, hc⟩, a, ho⟩ }

end Readable

/-- How a call of a kind comes about. -/
def via? (e : Elements) : CallEdgeKind → Option Via
  | .static => some .static
  | .special => some .special
  | .virtual => some .virtual
  | .interface => some .interface
  | .extension tag origin => (e.copy? e.sites origin).map fun pair => .extension tag pair.1 pair.2

theorem Within.via? {e f : Elements} (h : e.Within f) {k : CallEdgeKind} {via : Via}
    (hk : e.via? k = some via) : f.via? k = some via := by
  cases k with
  | extension tag origin =>
    obtain ⟨pair, hp, rfl⟩ := Option.map_eq_some_iff.1 hk
    exact Option.map_eq_some_iff.2 ⟨pair, h.site? hp, rfl⟩
  | _ => exact hk

end Elements

/-- A call is one that a reading grants. -/
def Solver.Justifies (s : Solver) (R : Reading) (edge : CallEdge) : Prop :=
  ∃ via c site c' m, s.elements.via? edge.kind = some via ∧
    s.elements.copy? s.elements.sites edge.site = some (c, site) ∧
    s.elements.copy? s.elements.methods edge.callee = some (c', m) ∧ R.calls via c site c' m

/-- What an event is about has a meaning. -/
def Solver.Attests (s : Solver) (F : Solution) : Event → Prop
  | .method _ => True
  | .contextMethod cm => ∃ c m, s.elements.copy? s.elements.methods cm = some (c, m) ∧
    F.reached c m
  | .call edge => s.Justifies (F.demands s.program) edge
  | .unresolved receiver context _ => (∃ c, s.elements.situation? context = some c) ∧
    ∀ o, receiver = some o → ∃ v, s.elements.value? o = some v
  | .objects x delta => ∃ c v, s.elements.copy? s.elements.vars x = some (c, v) ∧
    ∀ o ∈ delta, ∃ w, s.elements.value? o = some w ∧ (F.demands s.program).points (.var c v) w

theorem Solver.Attests.known {s : Solver} {F : Solution} {x : ContextVarId} {delta : Objects}
    (h : s.Attests F (.objects x delta)) : ∀ o ∈ delta, ∃ w, s.elements.value? o = some w := by
  obtain ⟨_, _, -, known⟩ := h
  exact fun o ho => (known o ho).imp fun _ => And.left

/-- Everything in a state has a meaning, and is a fact of `F`. -/
structure Sound (F : Solution) (s : Solver) : Prop where
  readable : s.elements.Readable
  fits : ∀ o a, s.elements.heap.get? o = some a → s.program.Fits a
  nodes : ∀ n p, s.flows.pointer? n = some p → ∃ P, s.elements.place? p = some P
  points : ∀ n o, o ∈ s.points.all n → ∃ P v, s.place? n = some P ∧
    s.elements.value? o = some v ∧ (F.demands s.program).points P v
  flows : ∀ f, s.flows.Has f → ∃ P Q, s.place? f.source = some P ∧ s.place? f.target = some Q ∧
    (F.demands s.program).carries P Q f.kind
  queued : ∀ e ∈ s.callQueue.toList, s.Justifies (F.demands s.program) e
  recorded : ∀ call, s.calls.Records call → s.Justifies (F.demands s.program) call.edge
  reached : ∀ m, s.calls.Reaches m → ∃ c method,
    s.elements.copy? s.elements.methods m = some (c, method) ∧ F.reached c method
  announced : ∀ e ∈ s.events.toList, s.Attests F e

/-- A state grows between two pieces of work, by facts of `F` only. -/
structure Adds (F : Solution) (s t : Solver) : Prop extends Solver.Extends s t where
  sound : Sound F t

namespace Adds

variable {F : Solution} {s t u : Solver}

theorem refl (hs : Sound F s) : Adds F s s := ⟨.refl s, hs⟩

theorem trans (st : Adds F s t) (tu : Adds F t u) : Adds F s u :=
  ⟨st.toExtends.trans tu.toExtends, tu.sound⟩

end Adds

theorem Solver.Justifies.grows {s t : Solver} {R : Reading} {edge : CallEdge}
    (h : s.Justifies R edge) (g : s.Grows t) : t.Justifies R edge := by
  obtain ⟨via, c, site, c', m, hv, hs, hm, hc⟩ := h
  exact ⟨via, c, site, c', m, g.elements.via? hv, g.elements.site? hs, g.elements.method? hm, hc⟩

theorem Solver.Attests.grows {s t : Solver} {F : Solution} {event : Event} (h : s.Attests F event)
    (g : s.Grows t) : t.Attests F event := by
  cases event with
  | method => trivial
  | contextMethod cm =>
    obtain ⟨c, m, hm, reached⟩ := h
    exact ⟨c, m, g.elements.method? hm, reached⟩
  | call edge =>
    have h := Justifies.grows h g
    rwa [← g.program] at h
  | unresolved receiver context site =>
    exact ⟨h.1.imp fun _ => g.elements.situation?,
      fun o ho => (h.2 o ho).imp fun _ => g.elements.value?⟩
  | objects x delta =>
    obtain ⟨c, v, hx, known⟩ := h
    rw [← g.program] at known
    exact ⟨c, v, g.elements.var? hx, fun o ho => (known o ho).imp fun _ => .imp_left
      g.elements.value?⟩

/-! ### Single changes -/

namespace Sound

variable {F : Solution} {s : Solver}

theorem elements {e : Elements} (hs : Sound F s) (w : s.elements.Within e) (readable : e.Readable)
    (fits : ∀ o a, e.heap.get? o = some a → s.program.Fits a) :
    Adds F s { s with elements := e } where
  toExtends := Solver.extends_elements w
  sound :=
    have g := (Solver.extends_elements w).toGrows
    { readable, fits
      nodes := fun n p hp => (hs.nodes n p hp).imp fun _ => w.place?
      points := fun n o ho => by
        obtain ⟨P, v, hP, hv, h⟩ := hs.points n o ho
        exact ⟨P, v, g.place? hP, w.value? hv, h⟩
      flows := fun f hf => by
        obtain ⟨P, Q, hP, hQ, h⟩ := hs.flows f hf
        exact ⟨P, Q, g.place? hP, g.place? hQ, h⟩
      queued := fun e he => (hs.queued e he).grows g
      recorded := fun call hc => (hs.recorded call hc).grows g
      reached := fun m hm => by
        obtain ⟨c, method, hc, h⟩ := hs.reached m hm
        exact ⟨c, method, w.method? hc, h⟩
      announced := fun e he => (hs.announced e he).grows g }

theorem internContext (hs : Sound F s) {c : Context} :
    Adds F s { s with elements := (s.elements.internContext c).2 } :=
  hs.elements Elements.within_internContext hs.readable.internContext hs.fits

variable {c : ContextId} {σ : Situation}

theorem internVar (hs : Sound F s) (hc : s.elements.situation? c = some σ) {v : VarId} :
    Adds F s (s.internVar c v).2 ∧
      (s.internVar c v).2.elements.copy? (s.internVar c v).2.elements.vars (s.internVar c v).1 =
        some (σ, v) :=
  ⟨hs.elements Elements.within_internVar (hs.readable.internVar hc) hs.fits,
    Elements.copy?_eq_some_iff.2
      ⟨c, CopyTable.get?_intern, Elements.within_internVar.situation? hc⟩⟩

theorem internMethod (hs : Sound F s) (hc : s.elements.situation? c = some σ) {m : MethodId} :
    Adds F s (s.internMethod c m).2 ∧
      (s.internMethod c m).2.elements.copy? (s.internMethod c m).2.elements.methods
        (s.internMethod c m).1 = some (σ, m) :=
  ⟨hs.elements Elements.within_internMethod (hs.readable.internMethod hc) hs.fits,
    Elements.copy?_eq_some_iff.2
      ⟨c, CopyTable.get?_intern, Elements.within_internMethod.situation? hc⟩⟩

theorem internSite (hs : Sound F s) (hc : s.elements.situation? c = some σ) (site : CallSiteId) :
    Adds F s (s.internSite c site).2 ∧
      (s.internSite c site).2.elements.copy? (s.internSite c site).2.elements.sites
        (s.internSite c site).1 = some (σ, site) :=
  ⟨hs.elements Elements.within_internSite (hs.readable.internSite hc) hs.fits,
    Elements.copy?_eq_some_iff.2
      ⟨c, CopyTable.get?_intern, Elements.within_internSite.situation? hc⟩⟩

theorem internObject (hs : Sound F s) (hc : s.elements.situation? c = some σ) {o : ObjectId}
    {a : AbstractObject} (ho : s.elements.heap.get? o = some a) :
    Adds F s (s.internObject c o).2 ∧
      (s.internObject c o).2.elements.value? (s.internObject c o).1 = some ⟨σ, a⟩ :=
  ⟨hs.elements Elements.within_internObject (hs.readable.internObject hc ho) hs.fits,
    Elements.value?_eq_some_iff.2 ⟨o, Elements.copy?_eq_some_iff.2
      ⟨c, CopyTable.get?_intern, Elements.within_internObject.situation? hc⟩, ho⟩⟩

/-- Interning an object that fits the program gives an object with the same identity, which fits
it, too. -/
theorem internHeap (hs : Sound F s) {a : AbstractObject} (ha : s.program.Fits a) :
    let t := { s with elements := { s.elements with heap := (s.elements.heap.intern a).2 } }
    Adds F s t ∧ ∃ b, t.elements.heap.get? (s.elements.heap.intern a).1 = some b ∧
      b.identity = a.identity ∧ s.program.Fits b := by
  obtain ⟨w, ⟨b, hb, same, old⟩, new⟩ := Table.intern_spec s.elements.heap a
  have fits (o b) (h : (s.elements.heap.intern a).2.get? o = some b) : s.program.Fits b := by
    obtain h | ⟨-, rfl⟩ := new o b h
    · exact hs.fits o b h
    · exact ha
  exact ⟨hs.elements { Elements.Within.refl s.elements with heap := w } (hs.readable.heap w) fits,
    b, hb, same, fits _ b hb⟩

/-- An allocation gives the object of its statement. -/
theorem allocate (hs : Sound F s) {m : MethodId} {d : MethodDecl} {i : Nat} {lhs : VarId}
    {type : TypeId} (hd : s.program.methods[m]? = some d)
    (hi : d.body[i]? = some (.new lhs type)) :
    Adds F s (s.allocate m i type).2 ∧ (s.allocate m i type).2.elements.heap.get?
      (s.allocate m i type).1 = some ⟨.allocation m i, type, some m⟩ := by
  obtain ⟨adds, ⟨origin, type', container⟩, ha, same, fits⟩ :=
    hs.internHeap (a := ⟨.allocation m i, type, some m⟩) ⟨rfl, d, lhs, hd, hi⟩
  refine ⟨adds, ha.trans ?_⟩
  cases origin with
  | mock => simp [AbstractObject.identity] at same
  | allocation m' i' =>
    simp only [AbstractObject.identity, Prod.mk.injEq, Origin.allocation.injEq, and_true] at same
    obtain ⟨rfl, rfl⟩ := same
    obtain ⟨owner, d', lhs', hd', hi'⟩ := fits
    cases hd.symm.trans hd'
    cases hi.symm.trans hi'
    rw [show container = some m' from owner]

/-- An object that is made up at a call site, where it can belong to one container only. -/
theorem mockIn (hs : Sound F s) {description : String} {site : CallSiteId} (type : TypeId)
    {container : Option MethodId} (houses : s.program.Houses description site type container)
    (only : ∀ other, s.program.Houses description site type other → other = container) :
    Adds F s (s.mock description site type container).2 ∧
      (s.mock description site type container).2.elements.heap.get?
        (s.mock description site type container).1 =
        some ⟨.mock description site, type, container⟩ := by
  obtain ⟨adds, ⟨origin, type', container'⟩, ha, same, fits⟩ :=
    hs.internHeap (a := ⟨.mock description site, type, container⟩) houses
  refine ⟨adds, ha.trans ?_⟩
  cases origin with
  | allocation => simp [AbstractObject.identity] at same
  | mock description' site' =>
    simp only [AbstractObject.identity, Prod.mk.injEq, Origin.mock.injEq, Option.some.injEq]
      at same
    obtain ⟨⟨rfl, rfl⟩, rfl⟩ := same
    rw [only container' fits]

/-- An object that is made up at a call site for the method of the call site. -/
theorem mock (hs : Sound F s) {description : String} {site : CallSiteId} {decl : CallSite}
    {type : TypeId}
    (bound : description = Solve.stringConcatenation ∨ description = Lambda.constructedObject)
    (hd : s.program.callSites[site]? = some decl)
    (houses : s.program.Houses description site type (some decl.container)) :
    Adds F s (s.mock description site type (some decl.container)).2 ∧
      (s.mock description site type (some decl.container)).2.elements.heap.get?
        (s.mock description site type (some decl.container)).1 =
        some ⟨.mock description site, type, some decl.container⟩ :=
  hs.mockIn type houses fun _ houses => houses.bound bound decl hd

/-- A tainted value, which belongs to no method. -/
theorem taint (hs : Sound F s) (site : CallSiteId) (type : TypeId) :
    Adds F s (s.mock Taint.taintedValue site type none).2 ∧
      (s.mock Taint.taintedValue site type none).2.elements.heap.get?
        (s.mock Taint.taintedValue site type none).1 =
        some ⟨.mock Taint.taintedValue site, type, none⟩ :=
  hs.mockIn type Program.houses_taintedValue fun _ houses => houses.tainted rfl

theorem internNode (hs : Sound F s) {p : Pointer} {P : Place} (hp : s.elements.place? p = some P) :
    Adds F s (s.internNode p).2 ∧ (s.internNode p).2.place? (s.internNode p).1 = some P where
  left :=
    have g := (Solver.extends_internNode (s := s) (p := p)).toGrows
    { toExtends := Solver.extends_internNode
      sound :=
      { hs with
        nodes := fun n q hq => by
          obtain old | ⟨-, rfl⟩ := (Table.intern_spec s.flows.nodes p).2.2 n q hq
          · exact hs.nodes n q old
          · exact ⟨P, hp⟩
        points := fun n o ho => by
          obtain ⟨P, v, hP, hv, h⟩ := hs.points n o ho
          exact ⟨P, v, g.place? hP, hv, h⟩
        flows := fun f hf => by
          obtain ⟨P, Q, hP, hQ, h⟩ := hs.flows f hf
          exact ⟨P, Q, g.place? hP, g.place? hQ, h⟩ } }
  right := Option.bind_eq_some_iff.2 ⟨p, FlowGraph.pointer?_internNode, hp⟩

theorem scheduled {points : PendingStore NodeId ContextObjectId} {grew : Bool} {n : NodeId}
    (hs : Sound F s)
    (new : ∀ m o, o ∈ points.all m → ∃ P v, s.place? m = some P ∧ s.elements.value? o = some v ∧
      (F.demands s.program).points P v) :
    Sound F ({ s with points }.scheduleIf grew n) := by
  rw [Solver.scheduleIf_eq]
  exact { hs with points := new }

theorem addToNode (hs : Sound F s) {n : NodeId} {o : ContextObjectId} {P : Place} {v : Value}
    (hn : s.place? n = some P) (ho : s.elements.value? o = some v)
    (demand : (F.demands s.program).points P v) :
    Adds F s (s.addToNode n o) ∧ (s.addToNode n o).Points P v where
  left := ⟨Solver.extends_addToNode, hs.scheduled fun m o' ho' => by
    obtain old | ⟨rfl, rfl⟩ := PendingStore.mem_all_add.1 ho'
    · exact hs.points m o' old
    · exact ⟨P, v, hn, ho, demand⟩⟩
  right := by
    have g := (Solver.extends_addToNode (s := s) (n := n) (o := o)).toGrows
    exact Solver.points_iff.2
      ⟨n, o, g.place? hn, g.elements.value? ho, Solver.mem_addToNode.2 (.inr ⟨rfl, rfl⟩)⟩

theorem uniteInto (hs : Sound F s) {n : NodeId} {objects : Objects} {P : Place}
    (hn : s.place? n = some P) (demand : ∀ o ∈ objects, ∃ v, s.elements.value? o = some v ∧
      (F.demands s.program).points P v) :
    Adds F s (s.uniteInto n objects) := by
  refine ⟨Solver.extends_uniteInto, hs.scheduled fun m o ho => ?_⟩
  obtain old | ⟨rfl, mem⟩ := PendingStore.mem_all_union.1 ho
  · exact hs.points m o old
  · obtain ⟨v, hv, h⟩ := demand o mem
    exact ⟨P, v, hn, hv, h⟩

theorem addVarObject (hs : Sound F s) {x : ContextVarId} {o : ContextObjectId} {v : VarId}
    {w : Value} (hx : s.elements.copy? s.elements.vars x = some (σ, v))
    (ho : s.elements.value? o = some w) (demand : (F.demands s.program).points (.var σ v) w) :
    Adds F s (s.addVarObject x o) ∧ (s.addVarObject x o).Points (.var σ v) w := by
  obtain ⟨adds, hn⟩ := hs.internNode (Elements.place?_var hx)
  obtain ⟨adds', granted⟩ := adds.sound.addToNode hn ho demand
  exact ⟨adds.trans adds', granted⟩

/-- An object of the heap reaches a variable. -/
theorem addObjectIn (hs : Sound F s) {v : VarId} {d : ContextId} {τ : Situation} {o : ObjectId}
    {a : AbstractObject} (hc : s.elements.situation? c = some σ)
    (hd : s.elements.situation? d = some τ) (ho : s.elements.heap.get? o = some a)
    (demand : (F.demands s.program).points (.var σ v) ⟨τ, a⟩) :
    Adds F s (s.addObjectIn c v d o) ∧ (s.addObjectIn c v d o).Points (.var σ v) ⟨τ, a⟩ := by
  obtain ⟨adds, hv⟩ := hs.internVar hc (v := v)
  obtain ⟨adds', ho'⟩ := adds.sound.internObject (adds.elements.situation? hd)
    (adds.elements.heap o a ho)
  obtain ⟨adds'', granted⟩ := adds'.sound.addVarObject (adds'.elements.var? hv) ho' demand
  exact ⟨(adds.trans adds').trans adds'', granted⟩

/-- A set of objects reaches a variable. -/
theorem addObjectsIn (hs : Sound F s) {v : VarId} {objects : Objects}
    (hc : s.elements.situation? c = some σ)
    (demand : ∀ o ∈ objects, ∃ w, s.elements.value? o = some w ∧
      (F.demands s.program).points (.var σ v) w) :
    Adds F s (s.addObjectsIn c v objects) ∧ ∀ o ∈ objects, ∀ w, s.elements.value? o = some w →
      (s.addObjectsIn c v objects).Points (.var σ v) w := by
  unfold Solver.addObjectsIn
  split
  next none => exact ⟨.refl hs, fun o ho => absurd ho (HybridSet.isEmpty_iff.1 none o)⟩
  next =>
    obtain ⟨adds, hx⟩ := hs.internVar hc (v := v)
    obtain ⟨adds', hn⟩ := adds.sound.internNode (Elements.place?_var hx)
    have named := adds.trans adds'
    have united := adds'.sound.uniteInto hn fun o ho => by
      obtain ⟨w, hw, granted⟩ := demand o ho
      rw [named.program]
      exact ⟨w, named.elements.value? hw, granted⟩
    refine ⟨named.trans united, fun o ho w hw => Solver.points_iff.2 ⟨_, o, united.place? hn, ?_⟩⟩
    exact ⟨(named.trans united).elements.value? hw, Solver.mem_uniteInto.2 (.inr ⟨rfl, ho⟩)⟩

theorem queueCall (hs : Sound F s) (edge : CallEdge) {site : CallSiteId} {τ : Situation}
    {m : MethodId} {via : Via} (hv : s.elements.via? edge.kind = some via)
    (he : s.elements.copy? s.elements.sites edge.site = some (σ, site))
    (hm : s.elements.copy? s.elements.methods edge.callee = some (τ, m))
    (demand : (F.demands s.program).calls via σ site τ m) :
    Adds F s (s.queueCall edge) ∧ (s.queueCall edge).Calls σ site τ m where
  left := ⟨Solver.extends_queueCall,
    { hs with
      queued := fun e he' => by
        obtain old | rfl := Queue.mem_push.1 he'
        · exact hs.queued e old
        · exact ⟨via, σ, site, τ, m, hv, he, hm, demand⟩ }⟩
  right := ⟨edge.site, edge.callee, he, hm, .of_queue (Queue.mem_push.2 (.inr rfl))⟩

theorem announce (hs : Sound F s) {e : Event} (he : s.Attests F e) : Adds F s (s.announce e) :=
  ⟨Solver.extends_announce,
    { hs with
      announced := fun e' he' => by
        obtain old | rfl := Queue.mem_push.1 he'
        · exact hs.announced e' old
        · exact he }⟩

theorem warn (hs : Sound F s) {text : String} : Adds F s (s.warn text) :=
  ⟨Solver.extends_warn, { hs with }⟩

theorem meet (hs : Sound F s) (ms : IndexSet MethodId) :
    Adds F s { s with reachedMethods := ms } :=
  ⟨{ Solver.Extends.refl s with
      fresh := fun _ => .inl
      scheduled := fun h => ⟨h.filed, h.apart, h.waiting⟩
      calls := fun _ => .of_queue }, { hs with }⟩

end Sound
end PointsTo
