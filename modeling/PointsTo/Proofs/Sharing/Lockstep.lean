import PointsTo.Proofs.Ensures
import PointsTo.Proofs.Sharing.Twins

/-!
Two computations in lockstep. From states that belong together they reach states that belong together,
with the same fault or with values that belong together. What belongs together depends on a bond, which
only grows on the way, so that what has been paired stays paired.
-/
namespace PointsTo

variable {σ τ α β γ δ : Type}

/-- The same fault, or values that are related. -/
inductive SameEnd (A : α → β → Prop) : Except Fault α → Except Fault β → Prop
  | ok {a : α} {b : β} (related : A a b) : SameEnd A (.ok a) (.ok b)
  | error (fault : Fault) : SameEnd A (.error fault) (.error fault)

theorem SameEnd.bind {A : α → β → Prop} {B : γ → δ → Prop} {r : Except Fault α} {r' : Except Fault β}
    {f : α → Except Fault γ} {g : β → Except Fault δ} (first : SameEnd A r r')
    (rest : ∀ a b, A a b → SameEnd B (f a) (g b)) : SameEnd B (r >>= f) (r' >>= g) := by
  cases first with
  | ok related => exact rest _ _ related
  | error fault => exact .error fault

/-- From states that `T` relates, `f` and `g` end the same way, with values that `A` relates, and leave
states behind that `T` relates. -/
def Lockstep (T : Bond → σ → τ → Prop) (W : Bond) (f : ExceptT Fault (StateM σ) α)
    (g : ExceptT Fault (StateM τ) β) (A : Bond → α → β → Prop) : Prop :=
  ∀ s t, T W s t → ∃ V, Subrelation W V ∧ T V (f s).2 (g t).2 ∧ SameEnd (A V) (f s).1 (g t).1

/-- The same value, whatever the bond. -/
def Same : Bond → α → α → Prop := fun _ a b => a = b

namespace Lockstep

variable {T : Bond → σ → τ → Prop} {W : Bond} {f : ExceptT Fault (StateM σ) α}
  {g : ExceptT Fault (StateM τ) β} {A : Bond → α → β → Prop} {B : Bond → γ → δ → Prop}

theorem pure {a : α} {b : β} (related : A W a b) : Lockstep T W (Pure.pure a) (Pure.pure b) A :=
  fun _ _ twins => ⟨W, id, twins, .ok related⟩

theorem throw {fault : Fault} :
    Lockstep T W (MonadExcept.throw fault) (MonadExcept.throw fault) A :=
  fun _ _ twins => ⟨W, id, twins, .error fault⟩

/-- Results that were found beforehand. -/
theorem result {r : Except Fault α} {r' : Except Fault β} (same : SameEnd (A W) r r') :
    Lockstep T W (ExceptT.mk (Pure.pure r)) (ExceptT.mk (Pure.pure r')) A :=
  fun _ _ twins => ⟨W, id, twins, same⟩

theorem get : Lockstep T W MonadState.get MonadState.get T :=
  fun _ _ twins => ⟨W, id, twins, .ok twins⟩

theorem set {s : σ} {t : τ} (twins : T W s t) :
    Lockstep T W (MonadStateOf.set s) (MonadStateOf.set t) Same :=
  fun _ _ _ => ⟨W, id, twins, .ok rfl⟩

theorem modifyGet {φ : σ → α × σ} {ψ : τ → β × τ} (h : ∀ s t, T W s t → ∃ V, Subrelation W V ∧
    T V (φ s).2 (ψ t).2 ∧ A V (φ s).1 (ψ t).1) :
    Lockstep T W (MonadStateOf.modifyGet φ) (MonadStateOf.modifyGet ψ) A := by
  intro s t twins
  obtain ⟨V, grown, twins', related⟩ := h s t twins
  exact ⟨V, grown, twins', .ok related⟩

theorem modify {φ : σ → σ} {ψ : τ → τ} (h : ∀ s t, T W s t → T W (φ s) (ψ t)) :
    Lockstep T W (modify φ) (modify ψ) Same :=
  fun s t twins => ⟨W, id, h s t twins, .ok rfl⟩

theorem bind {f' : α → ExceptT Fault (StateM σ) γ} {g' : β → ExceptT Fault (StateM τ) δ}
    (first : Lockstep T W f g A)
    (rest : ∀ V, Subrelation W V → ∀ a b, A V a b → Lockstep T V (f' a) (g' b) B) :
    Lockstep T W (f >>= f') (g >>= g') B := by
  intro s t twins
  obtain ⟨V, grown, twins', same⟩ := first s t twins
  rw [Ensures.bind_run, Ensures.bind_run]
  generalize f s = r at twins' same ⊢
  generalize g t = r' at twins' same ⊢
  obtain ⟨a, s'⟩ := r
  obtain ⟨b, t'⟩ := r'
  cases same with
  | error fault => exact ⟨V, grown, twins', .error fault⟩
  | ok related =>
    obtain ⟨V', grown', twins'', same'⟩ := rest V grown _ _ related s' t' twins'
    exact ⟨V', fun h => grown' (grown h), twins'', same'⟩

/-- After a computation that gives the same value on both sides. -/
theorem bindSame {g : ExceptT Fault (StateM τ) α} {f' : α → ExceptT Fault (StateM σ) γ}
    {g' : α → ExceptT Fault (StateM τ) δ} (first : Lockstep T W f g Same)
    (rest : ∀ V, Subrelation W V → ∀ a, Lockstep T V (f' a) (g' a) B) :
    Lockstep T W (f >>= f') (g >>= g') B := by
  apply first.bind
  rintro V grown a _ rfl
  exact rest V grown a

theorem forM {l : List γ} {f : γ → ExceptT Fault (StateM σ) PUnit}
    {g : γ → ExceptT Fault (StateM τ) PUnit}
    (round : ∀ c ∈ l, ∀ V, Subrelation W V → Lockstep T V (f c) (g c) Same) :
    Lockstep T W (l.forM f) (l.forM g) Same := by
  induction l generalizing W with
  | nil => exact pure rfl
  | cons c l ih =>
    apply (round c (by simp) W id).bindSame
    intro V grown _
    apply ih
    intro c' mem V' grown'
    exact round c' (by simp [mem]) V' fun h => grown' (grown h)

end Lockstep
end PointsTo
