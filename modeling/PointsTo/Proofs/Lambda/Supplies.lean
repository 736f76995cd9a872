import PointsTo.Proofs.Entrances
import PointsTo.Proofs.Lambda.Runs

/-!
Runs with function values, whichever other plugins are on: the function values of every reached method
are made, they reach the results of their creation sites in every context, and the calls on them are
dealt with.
-/
namespace PointsTo.Lambda

open Facts

variable {l l' : State} {s t u : Solver}

/-- The function values of a method are on record. -/
def Greeted (l : State) (s : Solver) (m : MethodId) : Prop :=
  ∀ site result type, Creates s.program m site result type → Stocked m site type l s

/-- The function values of a method are in place in a context. -/
def Seated (s : Solver) (cm : ContextMethodId) : Prop :=
  ∀ c m, s.elements.copy? s.elements.methods cm = some (c, m) →
    ∀ site result type, Creates s.program m site result type →
      s.Points (.var c result) (valueIn c m site type)

theorem Greeted.reacts {a b : State × Solver} {m : MethodId} (h : Greeted a.1 a.2 m)
    (ab : Reacts a b) : Greeted b.1 b.2 m := by
  intro site result type creates
  rw [ab.adds.program] at creates
  exact (h site result type creates).reacts ab

theorem Seated.grows {cm : ContextMethodId} (h : Seated s cm)
    (known : ∃ c m, s.elements.copy? s.elements.methods cm = some (c, m)) (g : s.Grows t) :
    Seated t cm := by
  obtain ⟨c, m, hcm⟩ := known
  intro c' m' hcm' site result type creates
  cases hcm'.symm.trans (g.elements.method? hcm)
  rw [g.program] at creates
  exact g.reading.points _ _ (h c m hcm site result type creates)

/-- What handling an event does about function values themselves. -/
structure Supplied (e : Event) (l : State) (s : Solver) (l' : State) (t : Solver) : Prop where
  method : ∀ m, e = .method m → s.program.toCatalog.Scoped → Greeted l' t m
  contextMethod : ∀ cm, e = .contextMethod cm →
    (∀ c m, s.elements.copy? s.elements.methods cm = some (c, m) → Greeted l s m) → Seated t cm

/-- Events of other kinds are not about function values themselves. -/
theorem supplied_of_plain {e : Event} (plain : e.isEntrance = false) : Supplied e l s l' t :=
  ⟨fun _ he => absurd (he ▸ plain) (by simp [Event.isEntrance]),
    fun _ he => absurd (he ▸ plain) (by simp [Event.isEntrance])⟩

theorem Supplied.adds {e : Event} (h : Supplied e l s l' t) (he : s.Attests .all e)
    (st : s.Grows t) (known : Knows l' t) (tu : Adds .all t u) : Supplied e l s l' u where
  method m same owned := (h.method m same owned).reacts (.of_adds known tu)
  contextMethod cm same greeted := by
    subst same
    obtain ⟨c, m, hcm, -⟩ := he
    exact (h.contextMethod cm rfl greeted).grows ⟨c, m, st.elements.method? hcm⟩ tu.toGrows

/-- The function values that an event is about are made, or put in place. -/
theorem ensures_supplied {e : Event} (hs : Sound .all s) (hl : Knows l s) (he : s.Attests .all e) :
    Ensures (plugin.react e) (l, s) fun _ st => Supplied e l s st.1 st.2 := by
  cases e with
  | method m =>
    refine (ensures_createValues hs hl).mono fun _ st ⟨reacts, stocked⟩ => ⟨?_, nofun⟩
    rintro _ ⟨⟩ owned site result type creates
    rw [reacts.adds.program] at creates
    exact stocked owned site result type creates
  | contextMethod cm =>
    refine (ensures_placeValues hs hl).mono fun _ st ⟨reacts, placed⟩ => ⟨nofun, ?_⟩
    rintro _ ⟨⟩ greeted c m hcm site result type creates
    obtain ⟨c', m', hcm', -⟩ := he
    cases hcm.symm.trans (reacts.adds.elements.method? hcm')
    rw [reacts.adds.program] at creates
    exact placed c m hcm' site result type creates (greeted c m hcm' site result type creates)
  | _ => exact fun _ _ _ => supplied_of_plain rfl

/-- All that the reactions to function values are to deal with is announced, or has been dealt
with. -/
structure Tends (l : State) (s : Solver) : Prop extends Attends l s where
  receives : s.Receives (Greeted l s) (Seated s)

namespace Tends

theorem initial {p : Program} {sel : Selector} {contexts : ContextTable} :
    Tends {} (.initial p sel contexts) where
  toAttends := attends_initial
  receives := by
    refine ⟨fun m hm => absurd hm Std.TreeSet.not_mem_emptyc, ?_, fun before after cm split => ?_⟩
    · rintro cm ⟨i, h⟩
      cases h
    · simp [Solver.entrances, Solver.initial] at split

variable {rest : Queue Event}

theorem seated (hs : Sound .all s) (g : s.Grows t) (cm : ContextMethodId)
    (reached : s.calls.Reaches cm) (h : Seated s cm) : Seated t cm := by
  obtain ⟨c, m, hcm, -⟩ := hs.reached cm reached
  exact h.grows ⟨c, m, hcm⟩ g

/-- A piece of work announces what it does. -/
theorem work (h : Tends l s) (hs : Sound .all s) (g : s.Grows t) (told : s.Told t)
    (welcomes : s.Welcomes t) : Tends l t where
  toAttends := h.toAttends.work hs g told
  receives := by
    have greeted (m) (hm : Greeted l s m) : Greeted l t m := fun site result type creates => by
      rw [g.program] at creates
      exact (hm site result type creates).imp fun o => .imp_right (g.elements.heap o _)
    exact (h.receives.mono greeted (seated hs g)).welcomes welcomes

/-- The handling of an event. -/
theorem event {e : Event} (h : Tends l s) (hs : Sound .all s)
    (next : s.events.toList = e :: rest.toList) (owned : s.program.toCatalog.Scoped)
    (reacts : Reacts (l, { s with events := rest }) (l', t)) (handled : Handled e l t l')
    (supplied : Supplied e l { s with events := rest } l' t)
    (welcomes : Solver.Welcomes { s with events := rest } t) : Tends l' t where
  toAttends := h.toAttends.event hs next reacts handled
  receives := by
    have g := Analysis.grows_events.trans reacts.adds.toGrows
    have greeted (m) (hm : Greeted l s m) : Greeted l' t m :=
      Greeted.reacts (a := (l, { s with events := rest })) hm reacts
    refine ((h.receives.mono greeted (seated hs g)).handled next
      (fun m he => supplied.method m he owned) fun cm he => ?_).welcomes welcomes
    refine supplied.contextMethod cm he fun c m hcm => ?_
    obtain ⟨pair, hpair, greeted⟩ := h.receives.greeted_of_next next he
    obtain ⟨d, hd, -⟩ := Elements.copy?_eq_some_iff.1 hcm
    cases hpair.symm.trans hd
    exact greeted

end Tends

end PointsTo.Lambda
