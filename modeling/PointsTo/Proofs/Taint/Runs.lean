import PointsTo.Proofs.Reactions
import PointsTo.Proofs.Taint.Reactions

/-!
Runs with taint tracking, whichever other plugins are on: no announced call and no announced object is
forgotten, so that at the end the rules hold of every call.
-/
namespace PointsTo.Taint

open Facts Solve

variable {F : Solution} {rules : Rules} {k k' : Tracking} {s t : Solver}

/-- The rules are in effect at a recorded call. -/
def Heeded (rules : Rules) (edge : CallEdge) (k : Tracking) (s : Solver) : Prop :=
  ∀ c site c' m, s.elements.copy? s.elements.sites edge.site = some (c, site) →
    s.elements.copy? s.elements.methods edge.callee = some (c', m) →
      ∃ decl, s.program.callSites[site]? = some decl ∧ Engaged rules c site decl m k s

theorem Heeded.mono {edge : CallEdge} {R : Reading} (h : Heeded rules edge k s)
    (known : s.Justifies R edge) (g : s.Grows t)
    (kept : ∀ v x, x ∈ k.transfersFrom v → x ∈ k'.transfersFrom v)
    (follows : ∀ c source target type, (target, type) ∈ k.transfersFrom source →
      Follows c source target type s → Follows c source target type t) :
    Heeded rules edge k' t := by
  intro c site c' m hsite hm
  obtain ⟨_, c₁, site₁, c₁', m₁, -, hs₁, hm₁, -⟩ := known
  cases hsite.symm.trans (g.elements.site? hs₁)
  cases hm.symm.trans (g.elements.method? hm₁)
  obtain ⟨decl, hdecl, sources, transfers⟩ := h c site c' m hs₁ hm₁
  rw [g.program]
  refine ⟨decl, hdecl, fun result hr type mem => g.reading.points _ _ (sources result hr type mem),
    fun rule mem source target hf ht => ?_⟩
  obtain ⟨recorded, followed⟩ := transfers rule mem source target hf ht
  exact ⟨kept _ _ recorded, follows _ _ _ _ recorded followed⟩

/-- What is dealt with when an event is handled. -/
def Handled (rules : Rules) (e : Event) (k k' : Tracking) (t : Solver) : Prop :=
  match e with
  | .call edge => Heeded rules edge k' t
  | .objects x delta => ∀ c v, t.elements.copy? t.elements.vars x = some (c, v) →
    ∀ target type, (target, type) ∈ k.transfersFrom v → ∀ o ∈ delta, Copied c target type o t
  | _ => True

/-- What has been dealt with stays dealt with. -/
theorem Handled.adds {e : Event} (h : Handled rules e k k' s) (hs : Sound F s)
    (he : s.Attests F e) (st : Adds F s t) : Handled rules e k k' t := by
  cases e with
  | method | contextMethod | unresolved => trivial
  | call edge =>
    exact Heeded.mono h he st.toGrows (fun _ _ => id) fun _ _ _ _ _ followed => followed.adds hs st
  | objects x delta =>
    intro c v hx target type mem o ho
    obtain ⟨c', v', hx', known⟩ := he
    cases hx.symm.trans (st.elements.var? hx')
    exact (h c v hx' target type mem o ho).grows ((known o ho).imp fun _ => And.left) st.toGrows

/-- Every event is handled. -/
theorem ensures_react {e : Event} (hs : Sound F s) (hk : Derived F s.program k)
    (taints : F.Taints s.program rules) (he : s.Attests F e) :
    Ensures ((plugin rules).react e) (k, s) fun _ st =>
      Reacts F (k, s) st ∧ Handled rules e k st.1 st.2 := by
  cases e with
  | method | contextMethod => exact .pure ⟨.refl hs hk, trivial⟩
  | unresolved => exact .bind (.pure ⟨.refl hs hk, trivial⟩) fun _ _ h => .pure h
  | call edge =>
    refine (ensures_onCall hs hk taints he).mono fun _ st ⟨reacts, engaged⟩ => ⟨reacts, ?_⟩
    intro c site c' m hsite hm
    obtain ⟨_, c₁, site₁, c₁', m₁, -, hs₁, hm₁, -⟩ := he
    cases hsite.symm.trans (reacts.adds.elements.site? hs₁)
    cases hm.symm.trans (reacts.adds.elements.method? hm₁)
    rw [reacts.adds.program]
    exact engaged c site c' m hs₁ hm₁
  | objects x delta =>
    refine (ensures_onObjects hs hk he).mono fun _ st ⟨reacts, copied⟩ => ⟨reacts, ?_⟩
    intro c v hx
    obtain ⟨c₁, v₁, hx₁, -⟩ := he
    cases hx.symm.trans (reacts.adds.elements.var? hx₁)
    exact copied c v hx₁

/-- All that taint tracking is to deal with is announced, or has been dealt with. -/
structure Attends (F : Solution) (rules : Rules) (k : Tracking) (s : Solver) : Prop where
  derived : Derived F s.program k
  calls : ∀ call, s.calls.Records call →
    Event.call call.edge ∈ s.events.toList ∨ Heeded rules call.edge k s

namespace Attends

theorem initial {p : Program} {sel : Selector} {contexts : ContextTable} :
    Attends F rules {} (.initial p sel contexts) where
  derived _ _ _ mem := absurd mem (by simp [Tracking.transfersFrom])
  calls := by
    rintro call ⟨i, h⟩
    cases h

/-- The records are in order when all that is new is announced, and all that is no longer announced
has been dealt with. -/
theorem preserved (h : Attends F rules k s) (hs : Sound F s) (g : s.Grows t)
    (derived : Derived F t.program k')
    (kept : ∀ v x, x ∈ k.transfersFrom v → x ∈ k'.transfersFrom v) {events : Queue Event}
    (told : { s with events }.Told t)
    (objects : ∀ x delta, Event.objects x delta ∈ s.events.toList →
      Event.objects x delta ∈ t.events.toList ∨
        ∀ c v, s.elements.copy? s.elements.vars x = some (c, v) →
          ∀ target type, (target, type) ∈ k.transfersFrom v → ∀ o ∈ delta, Copied c target type o t)
    (calls : ∀ edge, Event.call edge ∈ s.events.toList →
      Event.call edge ∈ t.events.toList ∨ Heeded rules edge k' t) : Attends F rules k' t where
  derived := derived
  calls call hc := by
    obtain old | new := told.calls call hc
    · obtain announced | heeded := h.calls call old
      · exact calls _ announced
      refine .inr (heeded.mono (hs.recorded call old) g kept
        fun c source target type recorded followed => ?_)
      refine followed.mono hs g told fun x delta announced hx => ?_
      exact (objects x delta announced).imp_right fun copied => copied c source hx _ _ recorded
    · exact .inl new

/-- A piece of work announces what it does. -/
theorem work (h : Attends F rules k s) (hs : Sound F s) (g : s.Grows t) (told : s.Told t) :
    Attends F rules k t :=
  h.preserved hs g (by rw [g.program]; exact h.derived) (fun _ _ => id)
    (show Solver.Told { s with events := s.events } t from told)
    (fun _ _ mem => .inl (told.kept.subset mem)) fun _ mem => .inl (told.kept.subset mem)

/-- The handling of an event. -/
theorem event {e : Event} {rest : Queue Event} (h : Attends F rules k s) (hs : Sound F s)
    (next : s.events.toList = e :: rest.toList)
    (reacts : Reacts F (k, { s with events := rest }) (k', t)) (handled : Handled rules e k k' t) :
    Attends F rules k' t := by
  have g := Analysis.grows_events.trans reacts.adds.toGrows
  -- an event is the one that is handled, or one that is left
  have left {e' : Event} (mem : e' ∈ s.events.toList) : e' = e ∨ e' ∈ t.events.toList := by
    rw [next] at mem
    exact (List.mem_cons.1 mem).imp_right (reacts.adds.announced.subset ·)
  refine h.preserved hs g reacts.derived reacts.kept reacts.adds.still.told
    (fun x delta mem => ?_) fun edge mem => ?_
  · obtain rfl | mem := left mem
    · exact .inr fun c v hx => handled c v (g.elements.var? hx)
    · exact .inl mem
  · obtain rfl | mem := left mem
    · exact .inr handled
    · exact .inl mem

variable {p : Program} {sel : Selector}

/-- In a quiet state the rules hold of every call. -/
theorem holds (h : Attends F rules k s) (running : Analysis.Running F p sel s) (quiet : s.Quiet)
    {via : Via} {c c' : Situation} {site : CallSiteId} {m : MethodId}
    (call : s.facts.calls via c site c' m) : ∃ decl, p.callSites[site]? = some decl ∧
      rules.Holds s.facts.points c site decl m := by
  obtain ⟨call, hc, -, hs, hm⟩ := call
  have silent {e : Event} : e ∉ s.events.toList := by
    rw [quiet.1]
    exact List.not_mem_nil
  obtain ⟨decl, hd, sources, transfers⟩ := (h.calls call hc).resolve_left silent c site c' m hs hm
  rw [running.program] at hd
  refine ⟨decl, hd, sources, fun rule mem source target hf ht w q hw hq => ?_⟩
  obtain ⟨n, o, hn, ho, all⟩ := Solver.points_iff.1 hw
  obtain ⟨_, -, _, -, announced⟩ | copied := (transfers rule mem source target hf ht).2 n o hn
    (running.propagated_of_quiet quiet all)
  · exact absurd announced silent
  · exact copied w q ho hq

end Attends

end PointsTo.Taint
