import PointsTo.Proofs.Fixpoint
import PointsTo.Proofs.Lambda.Rules

/-!
What the reactions to function values add, and how they keep their own records.
-/
namespace PointsTo

open Facts

/-- All facts whatever. -/
def Solution.all : Solution where
  reached _ _ := True
  points _ _ := True
  calls _ _ _ _ _ := True

namespace Solution

variable {p : Program}

theorem supports_all {sel : Selector} : all.Supports p sel :=
  supports_of_all (fun _ _ => trivial) (fun _ _ => trivial) fun _ _ _ _ _ _ => trivial

theorem live_all {P : Place} : all.Live p P := by
  cases P with
  | var => exact fun _ _ => trivial
  | _ => trivial

theorem points_all {P : Place} {v : Value} : (all.demands p).points P v := ⟨trivial, live_all⟩

theorem carries_all {P Q : Place} {k : FlowKind} : (all.demands p).carries P Q k :=
  ⟨live_all, fun _ _ _ => trivial⟩

/-- Plugins may contribute any call. -/
theorem calls_all {tag : String} {d : Situation} {origin : CallSiteId} {c c' : Situation}
    {site : CallSiteId} {m : MethodId} :
    (all.demands p).calls (.extension tag d origin) c site c' m :=
  ⟨trivial, fun _ _ => ⟨trivial, False.elim⟩⟩

end Solution

namespace Lambda

open Solve

/-! ### Records -/

namespace State

variable {l : State} {x v : ContextVarId} {i j : Invocation} {m n : MethodId}

theorem mem_waitingOn_wait :
    j ∈ (l.wait v i).waitingOn x ↔ j ∈ l.waitingOn x ∨ x = v ∧ j = i := by
  unfold wait
  split
  next old =>
    refine ⟨.inl, fun h => h.elim id ?_⟩
    rintro ⟨rfl, rfl⟩
    exact old
  next =>
    rw [waitingOn, Std.TreeMap.getD_insert]
    simp only [Coded.compare_eq_iff]
    split
    next same =>
      subst same
      simp [waitingOn]
    next other => simp [waitingOn, Ne.symm other]

theorem valuesOf_wait : (l.wait v i).valuesOf m = l.valuesOf m := by
  unfold wait
  split <;> rfl

theorem mem_valuesOf_addValue {site : CallSiteId} {o : ObjectId} {pair : CallSiteId × ObjectId} :
    pair ∈ (l.addValue m site o).valuesOf n ↔ pair ∈ l.valuesOf n ∨ n = m ∧ pair = (site, o) := by
  rw [valuesOf, addValue, Std.TreeMap.getD_insert]
  simp only [Coded.compare_eq_iff]
  split
  next same =>
    subst same
    simp
  next other => simp [valuesOf, Ne.symm other]

end State

/-- Captured values come from where the function value was created, arguments from where it is called. -/
theorem mem_arguments {callee : MethodDecl} {creation site : InContext .callSite}
    {created decl : CallSite} {arg : ContextId × VarId}
    (h : arg ∈ arguments callee creation created site decl) :
    arg.1 = creation.context ∧ arg.2 ∈ created.args ∨ arg.1 = site.context ∧ arg.2 ∈ decl.args := by
  unfold arguments at h
  obtain h | h := List.mem_append.1 h
  · obtain ⟨v, hv, rfl⟩ := List.mem_map.1 h
    refine .inl ⟨rfl, ?_⟩
    split at hv
    · exact List.mem_of_mem_drop hv
    · exact hv
  · obtain ⟨v, hv, rfl⟩ := List.mem_map.1 h
    refine .inr ⟨rfl, ?_⟩
    split at hv
    · exact List.mem_of_mem_drop hv
    · exact hv

/-- What an invocation stands for. -/
structure Invocation.Means (i : Invocation) (e : Elements) (u : Use) : Prop where
  site : e.copy? e.sites i.site = some (u.context, u.site)
  creationContext : e.situation? i.creationContext = some u.creationContext
  creation : i.creation = u.creation

theorem Invocation.Means.within {i : Invocation} {e f : Elements} {u : Use} (h : i.Means e u)
    (w : e.Within f) : i.Means f u :=
  ⟨w.site? h.site, w.situation? h.creationContext, h.creation⟩

/-! ### Calls of function values -/

variable {s : Solver} {i : Invocation} {u : Use}

/-- A method has been called on a receiver, which is bound to its `this`. -/
def Use.Serves (u : Use) (s : Solver) (o : Value) (callee : MethodId) : Prop :=
  s.Calls u.context u.site
    (s.selector.dispatchSituation s.program.toCatalog u.context u.site o) callee ∧
  ∀ d this, s.program.methods[callee]? = some d → d.receiver = some this →
    s.Points (.var (s.selector.dispatchSituation s.program.toCatalog u.context u.site o) this) o

theorem Use.Serves.grows {t : Solver} {o : Value} {callee : MethodId} (h : u.Serves s o callee)
    (g : s.Grows t) : u.Serves t o callee := by
  unfold Serves
  rw [g.program, g.selector]
  exact ⟨g.calls_mono h.1, fun d this hd ht => g.reading.points _ _ (h.2 d this hd ht)⟩

theorem ensures_handleOf {creation : CallSiteId} :
    Ensures (handleOf creation) s fun handle t => s = t ∧ ∃ created,
      s.program.callSites[creation]? = some created ∧
      ∃ bootstrap, created.kind = .dynamic ⟨bootstrap, some handle⟩ := by
  refine .bind ensures_callSite ?_
  rintro created _ ⟨rfl, hc⟩
  split
  next bootstrap handle hk => exact .pure ⟨rfl, created, hc, bootstrap, hk⟩
  next => exact .bind (P := fun _ _ => True) (fun _ _ _ => trivial) fun _ _ _ => .throw

section Calls

variable (hs : Sound .all s) (hi : i.Means s.elements u)
include hs hi

theorem ensures_queueCall {context : ContextId} {c : Situation} {callee : MethodId}
    (hc : s.elements.situation? context = some c) :
    Ensures (do
      let contextCallee ← change (·.internMethod context callee)
      let origin ← change (·.internSite i.creationContext i.creation)
      modify (·.queueCall ⟨i.site, contextCallee, .extension callTag origin⟩) : Solve Unit) s
        fun _ t => Adds .all s t ∧ t.Calls u.context u.site c callee := by
  refine .bind ensures_change ?_
  rintro cm _ ⟨rfl, rfl⟩
  obtain ⟨adds, hcm⟩ := hs.internMethod hc (m := callee)
  refine .bind ensures_change ?_
  rintro origin _ ⟨rfl, rfl⟩
  obtain ⟨adds', ho⟩ := adds.sound.internSite (adds.elements.situation? hi.creationContext)
    i.creation
  refine ensures_modify.mono ?_
  rintro _ _ rfl
  have all := adds.trans adds'
  obtain ⟨adds'', found⟩ := adds'.sound.queueCall
    ⟨i.site, _, .extension callTag _⟩ (Option.map_eq_some_iff.2 ⟨_, ho, rfl⟩)
    (all.elements.site? hi.site) (adds'.elements.method? hcm) Solution.calls_all
  exact ⟨all.trans adds'', found⟩

/-- A call without a receiver is found, in the situation that its call site selects. -/
theorem ensures_addCall_none {callee : MethodId} :
    Ensures (addCall i none callee) s fun _ t => Adds .all s t ∧
      t.Calls u.context u.site (s.selector.calleeSituation u.context u.site) callee := by
  refine .bind (ensures_calleeContext hs hi.site) fun context t ⟨st, hc⟩ => ?_
  refine (ensures_queueCall st.sound (hi.within st.elements) hc).mono ?_
  exact fun _ _ ⟨adds, found⟩ => ⟨st.trans adds, found⟩

/-- A call on a receiver is found, in the situation that the receiver selects, and the receiver is
bound. -/
theorem ensures_addCall_some {callee : MethodId} {o : ContextObjectId} {w : Value}
    (ho : s.elements.value? o = some w) :
    Ensures (addCall i (some o) callee) s fun _ t => Adds .all s t ∧ u.Serves t w callee := by
  refine .bind (ensures_dispatchContext hs hi.site ho) fun context t ⟨st, hc⟩ => ?_
  refine .bind (ensures_bindReceiver st.sound hc (st.elements.value? ho) callee
    fun _ _ _ _ => Solution.points_all) fun _ v ⟨tv, bound⟩ => ?_
  have sv := st.trans tv
  refine (ensures_queueCall sv.sound (hi.within sv.elements) (tv.elements.situation? hc)).mono ?_
  rintro _ y ⟨vy, found⟩
  have sy := sv.trans vy
  unfold Use.Serves
  rw [sy.program, sy.selector]
  rw [st.program] at bound
  exact ⟨sy, found, fun d this hd ht => vy.reading.points _ _ (bound d this hd ht)⟩

end Calls

/-- The method that a function value hands over has been called on a receiver. -/
def Use.Answers (u : Use) (s : Solver) (w : Value) : Prop :=
  ∀ created bootstrap handle callee, s.program.callSites[u.creation]? = some created →
    created.kind = .dynamic ⟨bootstrap, some handle⟩ →
    s.program.dispatch w.object.type handle.target.sub = some callee → u.Serves s w callee

theorem Use.Answers.grows {t : Solver} {w : Value} (h : u.Answers s w) (g : s.Grows t) :
    u.Answers t w := by
  intro created bootstrap handle callee hc hk hm
  rw [g.program] at hc hm
  exact (h created bootstrap handle callee hc hk hm).grows g

theorem ensures_dispatchOn (hs : Sound .all s) (hi : i.Means s.elements u) {receivers : Objects}
    (known : ∀ o ∈ receivers, ∃ w, s.elements.value? o = some w) :
    Ensures (dispatchOn i receivers) s fun _ t => Adds .all s t ∧
      ∀ o ∈ receivers, ∀ w, s.elements.value? o = some w → u.Answers t w := by
  refine .bind ensures_handleOf ?_
  rintro handle _ ⟨rfl, created, hc, bootstrap, hk⟩
  rw [hi.creation] at hc
  refine (ensures_forM_of_extends (D := fun o t => ∀ w, s.elements.value? o = some w →
      u.Answers t w) (fun o t v tv h w hw => (h w hw).grows tv.toGrows) hs ?_).mono
    fun _ t ⟨adds, answers⟩ => ⟨adds, fun o ho => answers o (HybridSet.mem_toList.2 ho)⟩
  intro o ho t st
  obtain ⟨w, hw⟩ := known o (HybridSet.mem_toList.1 ho)
  refine .bind (ensures_dispatch? (st.elements.value? hw)) ?_
  rintro r _ ⟨rfl, rfl⟩
  -- the handle that is looked up is the one of the creation site
  have only {v : Solver} (sv : s.Grows v)
      (serves : ∀ callee, s.program.dispatch w.object.type handle.target.sub = some callee →
        u.Serves v w callee) w' (hw' : s.elements.value? o = some w') : u.Answers v w' := by
    intro created' bootstrap' handle' callee hc' hk' hm
    cases hw.symm.trans hw'
    rw [sv.program] at hc' hm
    cases hc.symm.trans hc'
    cases hk.symm.trans hk'
    exact serves callee hm
  rw [st.program]
  split
  next callee hm =>
    refine (ensures_addCall_some st.sound (hi.within st.elements) (st.elements.value? hw)).mono ?_
    rintro _ v ⟨tv, serves⟩
    refine ⟨tv, only (st.toGrows.trans tv.toGrows) fun callee' hm' => ?_⟩
    cases hm.symm.trans hm'
    exact serves
  next none =>
    exact .pure ⟨.refl st.sound, only st.toGrows fun callee hm => absurd hm (none callee)⟩

/-! ### Reactions -/

/-- The records make sense. -/
structure Knows (l : State) (s : Solver) : Prop where
  values : ∀ m pair, pair ∈ l.valuesOf m → ∃ a, s.elements.heap.get? pair.2 = some a
  waiting : ∀ x i, i ∈ l.waitingOn x → ∃ u : Use, i.Means s.elements u

theorem Knows.grows {l : State} {t : Solver} (h : Knows l s) (g : s.Grows t) : Knows l t where
  values m pair mem := (h.values m pair mem).imp fun a => g.elements.heap _ a
  waiting x i mem := (h.waiting x i mem).imp fun _ means => means.within g.elements

theorem Invocation.Means.unique {e : Elements} {v : Use} (h : i.Means e u) (h' : i.Means e v) :
    u = v := by
  obtain ⟨c, site, d, creation⟩ := u
  obtain ⟨c', site', d', creation'⟩ := v
  obtain ⟨hs, hd, rfl⟩ := h
  obtain ⟨hs', hd', rfl⟩ := h'
  cases hs.symm.trans hs'
  cases hd.symm.trans hd'
  rfl

/-- A waiting call has been made on an object. -/
def Made (i : Invocation) (o : ContextObjectId) (s : Solver) : Prop :=
  ∀ u w, i.Means s.elements u → s.elements.value? o = some w → u.Answers s w

theorem Made.grows {o : ContextObjectId} {t : Solver} (h : Made i o s) (g : s.Grows t)
    (hi : ∃ u : Use, i.Means s.elements u) (ho : ∃ w, s.elements.value? o = some w) :
    Made i o t := by
  intro u w means hw
  obtain ⟨v, hv⟩ := hi
  obtain ⟨w', hw'⟩ := ho
  cases (hv.within g.elements).unique means
  cases hw.symm.trans (g.elements.value? hw')
  exact (h _ w hv hw').grows g

/-- A waiting call has been made on all objects that its receiver has passed on. -/
def Caught (x : ContextVarId) (i : Invocation) (s : Solver) : Prop :=
  ∀ n o, s.flows.pointer? n = some (.var x) → o ∈ s.points.propagatedOf n → Made i o s

/-- What a reaction may do: it adds facts and records, and does not let a call wait for objects that
are not to come. -/
structure Reacts (a b : State × Solver) : Prop where
  adds : Adds .all a.2 b.2
  knows : Knows b.1 b.2
  values : ∀ m pair, pair ∈ a.1.valuesOf m → pair ∈ b.1.valuesOf m
  kept : ∀ x i, i ∈ a.1.waitingOn x → i ∈ b.1.waitingOn x
  caught : ∀ x i, i ∈ b.1.waitingOn x → i ∈ a.1.waitingOn x ∨ Caught x i b.2

/-- What has been passed on is known. -/
theorem known_of_propagated (hs : Sound .all s) {n : NodeId} {o : ContextObjectId}
    (ho : o ∈ s.points.propagatedOf n) :
    (∃ p, s.flows.pointer? n = some p) ∧ ∃ w, s.elements.value? o = some w := by
  obtain ⟨P, w, hP, hw, -⟩ := hs.points n o (PendingStore.mem_all.2 (.inr ho))
  obtain ⟨p, hp, -⟩ := Option.bind_eq_some_iff.1 hP
  exact ⟨⟨p, hp⟩, w, hw⟩

/-- What was caught once stays caught, since additions pass nothing on. -/
theorem Caught.adds {x : ContextVarId} {t : Solver} (h : Caught x i s) (hs : Sound .all s)
    (hi : ∃ u : Use, i.Means s.elements u) (st : Adds .all s t) : Caught x i t := by
  intro n o hn ho
  rw [st.propagated] at ho
  obtain ⟨⟨p, hp⟩, hw⟩ := known_of_propagated hs ho
  cases hn.symm.trans (st.nodes n p hp)
  exact (h n o hp ho).grows st.toGrows hi hw

namespace Reacts

variable {a b c : State × Solver}

theorem refl (hs : Sound .all a.2) (hl : Knows a.1 a.2) : Reacts a a :=
  ⟨.refl hs, hl, fun _ _ => id, fun _ _ => id, fun _ _ => .inl⟩

theorem again (h : Reacts a b) : Reacts b b := refl h.adds.sound h.knows

theorem trans (ab : Reacts a b) (bc : Reacts b c) : Reacts a c where
  adds := ab.adds.trans bc.adds
  knows := bc.knows
  values m pair mem := bc.values m pair (ab.values m pair mem)
  kept x i mem := bc.kept x i (ab.kept x i mem)
  caught x i mem := by
    obtain old | new := bc.caught x i mem
    · exact (ab.caught x i old).imp_right fun h =>
        h.adds ab.adds.sound (ab.knows.waiting x i old) bc.adds
    · exact .inr new

/-- A reaction that leaves the records alone. -/
theorem of_adds {l : State} {t : Solver} (hl : Knows l s) (st : Adds .all s t) :
    Reacts (l, s) (l, t) :=
  ⟨st, hl.grows st.toGrows, fun _ _ => id, fun _ _ => id, fun _ _ => .inl⟩

end Reacts

end Lambda
end PointsTo
