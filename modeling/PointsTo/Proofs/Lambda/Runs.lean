import PointsTo.Proofs.Lambda.Handlers
import PointsTo.Proofs.Reactions

/-!
Runs with function values: nothing that is announced is forgotten, so that at the end every call on
a function value has been made, and every call that derives from one is linked.
-/
namespace PointsTo.Lambda

open Facts

variable {l l' : State} {s t u : Solver}

/-- A call on a function value has been dealt with, if the object is one. -/
def Met (l : State) (s : Solver) (c : Situation) (site : CallSiteId) (w : Value) : Prop :=
  ∀ creation, w.object.origin = .mock functionValue creation →
    (Use.mk c site w.context creation).Engaged l s

theorem Met.grows {c : Situation} {site : CallSiteId} {w : Value} (h : Met l s c site w)
    (g : s.Grows t) (kept : ∀ x i, i ∈ l.waitingOn x → i ∈ l'.waitingOn x) :
    Met l' t c site w := fun creation origin => (h creation origin).grows g kept

theorem Linked.grows {edge : CallEdge} {R : Reading} (h : Linked s edge) (g : s.Grows t)
    (known : s.Justifies R edge) : Linked t edge := by
  intro origin hk ⟨c, site, d, creation⟩ c' m hs ho hm
  obtain ⟨via, c₁, site₁, c₂, m₁, hv, hs₁, hm₁, -⟩ := known
  rw [hk] at hv
  obtain ⟨⟨d₁, creation₁⟩, ho₁, -⟩ := Option.map_eq_some_iff.1 hv
  cases hs.symm.trans (g.elements.site? hs₁)
  cases ho.symm.trans (g.elements.site? ho₁)
  cases hm.symm.trans (g.elements.method? hm₁)
  rw [g.program]
  exact (h origin hk ⟨c, site, d, creation⟩ c' m hs₁ ho₁ hm₁).mono g.reading.carries

/-- Whatever the reactions are to deal with is announced, or has been dealt with. -/
structure Attends (l : State) (s : Solver) : Prop extends Knows l s where
  failures : ∀ n o, o ∈ s.points.propagatedOf n → ∀ c v w, s.place? n = some (.var c v) →
    s.elements.value? o = some w → ∀ site, s.program.Fails v site w →
      s.Heralds c site w ∨ Met l s c site w
  arrivals : ∀ x i, i ∈ l.waitingOn x → ∀ n o, s.flows.pointer? n = some (.var x) →
    o ∈ s.points.propagatedOf n →
      (∃ delta : Objects, o ∈ delta ∧ Event.objects x delta ∈ s.events.toList) ∨ Made i o s
  links : ∀ call, s.calls.Records call →
    Event.call call.edge ∈ s.events.toList ∨ Linked s call.edge

/-- The records are in order when all that is new is announced, and all that is no longer announced
has been dealt with. -/
theorem Attends.preserved (h : Attends l s) (hs : Sound .all s) (g : s.Grows t)
    (knows : Knows l' t) (kept : ∀ x i, i ∈ l.waitingOn x → i ∈ l'.waitingOn x)
    (waiting : ∀ x i, i ∈ l'.waitingOn x → i ∈ l.waitingOn x ∨ Caught x i t)
    (events : Queue Event) (told : { s with events }.Told t)
    (heralds : ∀ c site w, s.Heralds c site w → t.Heralds c site w ∨ Met l' t c site w)
    (objects : ∀ x delta, Event.objects x delta ∈ s.events.toList →
      Event.objects x delta ∈ t.events.toList ∨ ∀ i ∈ l.waitingOn x, ∀ o ∈ delta, Made i o t)
    (calls : ∀ edge, Event.call edge ∈ s.events.toList →
      Event.call edge ∈ t.events.toList ∨ Linked t edge) : Attends l' t where
  toKnows := knows
  failures n o ho c v w hn hw site fails := by
    rw [g.program] at fails
    obtain old | new := told.failures n o ho
    · obtain ⟨P, w', hP, hw', -⟩ := hs.points n o (PendingStore.mem_all.2 (.inr old))
      cases hn.symm.trans (g.place? hP)
      cases hw.symm.trans (g.elements.value? hw')
      obtain announced | met := h.failures n o old c v w hP hw' site fails
      · exact heralds c site w announced
      · exact .inr (met.grows g kept)
    · exact .inl (new c v w hn hw site fails)
  arrivals x i mem n o hn ho := by
    obtain old | caught := waiting x i mem
    · obtain old' | new := told.objects n o ho
      · obtain ⟨⟨p, hp⟩, hw⟩ := known_of_propagated hs old'
        cases hn.symm.trans (g.nodes n p hp)
        obtain ⟨delta, ho, announced⟩ | made := h.arrivals x i old n o hp old'
        · exact (objects x delta announced).imp (fun announced => ⟨delta, ho, announced⟩)
            fun made => made i old o ho
        · exact .inr (made.grows g (h.waiting x i old) hw)
      · exact .inl (new x hn)
    · exact .inr (caught n o hn ho)
  links call hc := by
    obtain old | new := told.calls call hc
    · obtain announced | linked := h.links call old
      · exact calls _ announced
      · exact .inr (linked.grows g (hs.recorded call old))
    · exact .inl new

theorem heralds_mono (g : s.Grows t) (kept : s.events.toList <+: t.events.toList) {c : Situation}
    {site : CallSiteId} {w : Value} (h : s.Heralds c site w) : t.Heralds c site w := by
  obtain ⟨context, o, hc, ho, mem⟩ := h
  exact ⟨context, o, g.elements.situation? hc, g.elements.value? ho, kept.subset mem⟩

/-- A piece of work announces what it does. -/
theorem Attends.work (h : Attends l s) (hs : Sound .all s) (g : s.Grows t) (told : s.Told t) :
    Attends l t :=
  h.preserved hs g (h.toKnows.grows g) (fun _ _ => id) (fun _ _ => .inl) s.events told
    (fun _ _ _ heralds => .inl (heralds_mono g told.kept heralds))
    (fun _ _ mem => .inl (told.kept.subset mem)) fun _ mem => .inl (told.kept.subset mem)

/-- What is dealt with when an event is handled. -/
def Handled (e : Event) (l : State) (t : Solver) (l' : State) : Prop :=
  match e with
  | .method _ | .contextMethod _ => True
  | .call edge => Linked t edge
  | .unresolved receiver context site => ∀ o c w, receiver = some o →
    t.elements.situation? context = some c → t.elements.value? o = some w → Met l' t c site w
  | .objects x delta => ∀ i ∈ l.waitingOn x, ∀ o ∈ delta, Made i o t

/-- What has been dealt with stays dealt with. -/
theorem Handled.adds {e : Event} (h : Handled e l t l') (hl : Knows l s) (he : s.Attests .all e)
    (st : s.Grows t) (tu : t.Grows u) : Handled e l u l' := by
  cases e with
  | method | contextMethod => trivial
  | call edge =>
    obtain ⟨via, c, site, c', m, hv, hs, hm, granted⟩ := he
    exact h.grows tu (R := (Solution.all.demands s.program)) ⟨via, c, site, c', m,
      st.elements.via? hv, st.elements.site? hs, st.elements.method? hm, granted⟩
  | unresolved receiver context site =>
    intro o c w ho hc hw
    obtain ⟨⟨c', hc'⟩, known⟩ := he
    obtain ⟨w', hw'⟩ := known o ho
    have hc' := st.elements.situation? hc'
    have hw' := st.elements.value? hw'
    cases hc.symm.trans (tu.elements.situation? hc')
    cases hw.symm.trans (tu.elements.value? hw')
    exact (h o _ _ ho hc' hw').grows tu fun _ _ => id
  | objects x delta =>
    intro i mem o ho
    obtain ⟨v, means⟩ := hl.waiting x i mem
    obtain ⟨w, hw⟩ := he.known o ho
    exact (h i mem o ho).grows tu ⟨v, means.within st.elements⟩ ⟨w, st.elements.value? hw⟩

/-- The handling of an event. -/
theorem Attends.event {e : Event} {rest : Queue Event} (h : Attends l s) (hs : Sound .all s)
    (next : s.events.toList = e :: rest.toList)
    (reacts : Reacts (l, { s with events := rest }) (l', t)) (handled : Handled e l t l') :
    Attends l' t := by
  have g := Analysis.grows_events.trans reacts.adds.toGrows
  have announced := reacts.adds.announced
  -- an event is the one that is handled, or one that is left
  have left {e' : Event} (mem : e' ∈ s.events.toList) : e' = e ∨ e' ∈ t.events.toList := by
    rw [next] at mem
    exact (List.mem_cons.1 mem).imp_right (announced.subset ·)
  refine h.preserved hs g reacts.knows reacts.kept reacts.caught _ reacts.adds.still.told
    (fun c site w heralds => ?_) (fun x delta mem => ?_) fun edge mem => ?_
  · obtain ⟨context, o, hc, ho, mem⟩ := heralds
    have hc := g.elements.situation? hc
    have ho := g.elements.value? ho
    obtain rfl | mem := left mem
    · exact .inr (handled o c w rfl hc ho)
    · exact .inl ⟨context, o, hc, ho, mem⟩
  · obtain rfl | mem := left mem
    · exact .inr handled
    · exact .inl mem
  · obtain rfl | mem := left mem
    · exact .inr handled
    · exact .inl mem

/-! ### Whole runs -/

theorem ensures_single {σ : Type} {α : Type} {f : α → ExceptT Fault (StateM σ) PUnit} {a : α}
    {st : σ} {Q : σ → Prop} (h : Ensures (f a) st fun _ => Q) :
    Ensures ([a].forM f) st fun _ => Q :=
  .bind h fun _ _ done => .pure done

theorem ensures_unresolved (hs : Sound .all s) (hl : Knows l s)
    {receiver : Option ContextObjectId} {context : ContextId} {site : CallSiteId}
    (he : s.Attests .all (.unresolved receiver context site)) :
    Ensures (claim receiver context site) (l, s) fun _ st =>
      Reacts (l, s) st ∧ Handled (.unresolved receiver context site) l st.2 st.1 := by
  obtain ⟨⟨c, hc⟩, known⟩ := he
  cases receiver with
  | none =>
    refine .bind (ensures_lookup Solve.ensures_callSite) ?_
    rintro _ _ ⟨rfl, -⟩
    exact .pure ⟨.refl hs hl, fun _ _ _ h => by cases h⟩
  | some o =>
    obtain ⟨w, hw⟩ := known o rfl
    refine (ensures_claim hs hl hc hw).mono fun _ st ⟨reacts, engaged⟩ => ⟨reacts, ?_⟩
    rintro _ c' w' ⟨⟩ hc' hw'
    cases hc'.symm.trans (reacts.adds.elements.situation? hc)
    cases hw'.symm.trans (reacts.adds.elements.value? hw)
    exact engaged

/-- The reaction to an event. -/
theorem ensures_react {e : Event} (hs : Sound .all s) (hl : Knows l s) (he : s.Attests .all e) :
    Ensures (plugin.react e) (l, s) fun _ st =>
      Reacts (l, s) st ∧ Handled e l st.2 st.1 := by
  cases e with
  | method m => exact (ensures_createValues hs hl).mono fun _ _ h => ⟨h.1, trivial⟩
  | contextMethod cm => exact (ensures_placeValues hs hl).mono fun _ _ h => ⟨h.1, trivial⟩
  | call edge =>
    refine ensures_solve ((ensures_linkCall hs).mono fun _ t ⟨st, linked⟩ => ?_)
    exact ⟨.of_adds hl st, linked⟩
  | objects x delta => exact (ensures_redispatch hs hl he.known).mono fun _ _ h => h.2
  | unresolved receiver context site =>
    exact .bind (ensures_unresolved hs hl he) fun _ _ h => .pure h

/-- Every event is handled. -/
theorem ensures_dispatch {e : Event} (hs : Sound .all s) (hl : Knows l s) (he : s.Attests .all e) :
    Ensures (Analysis.dispatch (.all [plugin]) e) (l, s) fun _ st =>
      Reacts (l, s) st ∧ Handled e l st.2 st.1 := by
  refine Analysis.ensures_dispatch_all (ensures_single (ensures_react hs hl he)) ?_
  rintro l' t text ⟨reacts, handled⟩
  have warned : Adds .all t (t.warn text) := reacts.adds.sound.warn
  exact ⟨reacts.trans (.of_adds reacts.knows warned),
    handled.adds hl he reacts.adds.toGrows warned.toGrows⟩

theorem attends_initial {p : Program} {sel : Selector} {contexts : ContextTable} :
    Attends {} (.initial p sel contexts) where
  values _ _ h := absurd h (by simp [State.valuesOf])
  waiting _ _ h := absurd h (by simp [State.waitingOn])
  failures _ _ h := absurd h HybridSet.not_mem_empty
  arrivals _ _ h := absurd h (by simp [State.waitingOn])
  links := by
    rintro call ⟨i, h⟩
    cases h

/-- A run with function values reaches a quiet state in which every constraint has contributed, and
all that is announced has been dealt with. -/
theorem running_of_finished {p : Program} {sel : Selector} {contexts : ContextTable} {fuel : Nat}
    {r : Run State} (ran : analyze fuel (.all [plugin]) {} (.initial p sel contexts) = r)
    (indexed : p.Indexed) (finished : r.verdict = .finished) :
    Analysis.Running .all p sel r.solver ∧ Attends r.plugins r.solver ∧ r.solver.Quiet := by
  subst ran
  let I (l : State) (s : Solver) := Analysis.Running .all p sel s ∧ Attends l s
  let Q (l : State) (s : Solver) := Analysis.Running .all p sel s ∧ Attends l s ∧ s.Quiet
  refine Analysis.of_finished (Q := Q) finished
    (Analysis.ensures_runWithin (I := I) (Q := Q) ?_ ?_ ?_ ?_)
  · rintro l s e rest ⟨running, attends⟩ next
    have running' := running.events rest fun e he => by simp [next, he]
    have he := running.sound.announced e (by simp [next])
    refine (ensures_dispatch running'.sound (attends.toKnows.grows Analysis.grows_events)
      he).mono ?_
    rintro _ ⟨l', t⟩ ⟨reacts, handled⟩
    exact ⟨running'.adds reacts.adds, attends.event running.sound next reacts handled⟩
  · rintro l s ⟨running, attends⟩ -
    refine (Solve.ensures_step running.toInvariant Solution.supports_all
      (by rw [running.program]; exact indexed)).mono ?_
    rintro more t ⟨hi, st, told, last⟩
    exact ⟨⟨running.grows st hi, attends.work running.sound st told⟩, last⟩
  · refine ensures_single (.pure ?_)
    refine (Solve.ensures_reachEntries Analysis.invariant_initial Solution.supports_all).mono ?_
    rintro _ t ⟨hi, st, still, entries⟩
    exact ⟨⟨hi, st.program, st.selector, entries⟩,
      attends_initial.work Analysis.sound_initial st still.told⟩
  · rintro l s ⟨running, attends⟩ quiet
    exact ensures_single (.pure ⟨running, attends, quiet⟩)

end PointsTo.Lambda
