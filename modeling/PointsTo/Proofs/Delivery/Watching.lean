import PointsTo.Proofs.Entries
import PointsTo.Proofs.Reactions

/-!
Plugins under watch: one of several plugins writes down each event that it is handed, before it reacts.
Nothing else changes by that.
-/
namespace PointsTo

variable {σ α β : Type}

/-- The state of plugins, and a record of events. -/
abbrev Watched (σ : Type) := σ × List Event

namespace Watched

/-- A reaction that leaves the record alone. -/
def quietly (f : Reaction σ α) : Reaction (Watched σ) α :=
  f.focus Prod.fst fun own watched => (own, watched.2)

/-- Writes an event down. -/
def note (e : Event) : Reaction (Watched σ) Unit :=
  Reaction.modifyOwn fun (own, events) => (own, events ++ [e])

/-- A reaction to an event that is written down before. -/
def noting (e : Event) (f : Reaction σ α) : Reaction (Watched σ) α := do
  note e
  quietly f

end Watched

open Watched

namespace Plugin

/-- A plugin beside a record that it knows nothing of. -/
def unwatched (p : Plugin σ) : Plugin (Watched σ) :=
  p.focus Prod.fst fun own watched => (own, watched.2)

/-- A plugin that writes down the events that it is handed. -/
def watched (p : Plugin σ) : Plugin (Watched σ) where
  onStart := quietly p.onStart
  onMethod m := noting (.method m) (p.onMethod m)
  onContextMethod cm := noting (.contextMethod cm) (p.onContextMethod cm)
  onCall edge := noting (.call edge) (p.onCall edge)
  onUnresolved receiver c site := noting (.unresolved receiver c site) (p.onUnresolved receiver c site)
  onObjects x delta := noting (.objects x delta) (p.onObjects x delta)
  onFinish := quietly p.onFinish

/-- Several plugins of which one is under watch. -/
def watching (before : List (Plugin σ)) (p : Plugin σ) (after : List (Plugin σ)) :
    List (Plugin (Watched σ)) := before.map unwatched ++ p.watched :: after.map unwatched

end Plugin

/-- `f` does what `g` does, and adds the events `l` to the record. -/
def Mirrors (l : List Event) (f : Reaction (Watched σ) α) (g : Reaction σ α) : Prop :=
  ∀ own record s, match g (own, s) with
    | (.ok a, own', t) => f ((own, record), s) = (.ok a, (own', record ++ l), t)
    | (.error fault, own', t) => ∃ record', f ((own, record), s) = (.error fault, (own', record'), t)

namespace Mirrors

variable {l k : List Event} {f : Reaction (Watched σ) α} {g : Reaction σ α}
  {f' : α → Reaction (Watched σ) β} {g' : α → Reaction σ β}

theorem ok (h : Mirrors l f g) {own own' : σ} {record : List Event} {s t : Solver} {a : α}
    (run : g (own, s) = (.ok a, own', t)) :
    f ((own, record), s) = (.ok a, (own', record ++ l), t) := by
  have mirrored := h own record s
  rw [run] at mirrored
  exact mirrored

/-- A value of the reaction under watch is one of the reaction by itself. -/
theorem of_ok (h : Mirrors l f g) {own : σ} {record : List Event} {s t : Solver} {a : α}
    {watched : Watched σ} (run : f ((own, record), s) = (.ok a, watched, t)) :
    g (own, s) = (.ok a, watched.1, t) ∧ watched.2 = record ++ l := by
  have mirrored := h own record s
  rcases plain : g (own, s) with ⟨fault | b, own', u⟩ <;> rw [plain] at mirrored
  · obtain ⟨record', failed⟩ := mirrored
    rw [failed] at run
    cases run
  · rw [mirrored] at run
    cases run
    exact ⟨rfl, rfl⟩

theorem pure {a : α} : Mirrors (σ := σ) [] (Pure.pure a) (Pure.pure a) := fun own record s => by
  change (Except.ok a, (own, record), s) = (Except.ok a, (own, record ++ []), s)
  rw [List.append_nil]

theorem quietly (g : Reaction σ α) : Mirrors [] (Watched.quietly g) g := fun own record s => by
  rcases run : g (own, s) with ⟨fault | a, own', t⟩
  · exact ⟨record, by simp only [Watched.quietly, Reaction.focus, run]⟩
  · simp only [Watched.quietly, Reaction.focus, run, List.append_nil]

theorem bind (h : Mirrors l f g) (h' : ∀ a, Mirrors k (f' a) (g' a)) :
    Mirrors (l ++ k) (f >>= f') (g >>= g') := fun own record s => by
  have first := h own record s
  rw [Ensures.bind_run, Ensures.bind_run]
  rcases run : g (own, s) with ⟨fault | a, own', t⟩ <;> rw [run] at first
  · obtain ⟨record', failed⟩ := first
    exact ⟨record', by rw [failed]⟩
  · rw [first, ← List.append_assoc]
    exact h' a own' (record ++ l) t

theorem solve (g : Solve α) : Mirrors (σ := σ) [] (Reaction.solve g) (Reaction.solve g) :=
  quietly (Reaction.solve g)

theorem noting (e : Event) (g : Reaction σ α) : Mirrors [e] (Watched.noting e g) g :=
  fun own record s => by
  have run : Watched.noting e g ((own, record), s) =
      Watched.quietly g ((own, record ++ [e]), s) := rfl
  have mirrored := quietly g own (record ++ [e]) s
  simp only [List.append_nil] at mirrored
  rw [run]
  exact mirrored

section Plugins

variable {F : Plugin (Watched σ) → Reaction (Watched σ) Unit} {G : Plugin σ → Reaction σ Unit}
  (unwatched : ∀ q, Mirrors [] (F q.unwatched) (G q))
include unwatched

theorem forM_unwatched (plugins : List (Plugin σ)) :
    Mirrors [] ((plugins.map Plugin.unwatched).forM F) (plugins.forM G) := by
  induction plugins with
  | nil => exact pure
  | cons q plugins ih => exact bind (unwatched q) fun _ => ih

/-- When all plugins do something in turn, what is noted is what the one under watch notes. -/
theorem forM_watching {p : Plugin σ} (watched : Mirrors l (F p.watched) (G p))
    (before after : List (Plugin σ)) :
    Mirrors l ((Plugin.watching before p after).forM F) ((before ++ p :: after).forM G) := by
  change Mirrors l (forM (before.map Plugin.unwatched ++ p.watched :: after.map Plugin.unwatched) F)
    (forM (before ++ p :: after) G)
  rw [List.forM_append, List.forM_append]
  refine bind (l := []) (forM_unwatched unwatched before) fun _ => ?_
  have rest := bind watched fun _ => forM_unwatched unwatched after
  rwa [List.append_nil] at rest

end Plugins

section Claims

variable {F : Bool → Plugin (Watched σ) → Reaction (Watched σ) Bool}
  {G : Bool → Plugin σ → Reaction σ Bool} (unwatched : ∀ b q, Mirrors [] (F b q.unwatched) (G b q))
include unwatched

theorem foldlM_unwatched (plugins : List (Plugin σ)) (b : Bool) :
    Mirrors [] ((plugins.map Plugin.unwatched).foldlM F b) (plugins.foldlM G b) := by
  induction plugins generalizing b with
  | nil => exact pure
  | cons q plugins ih =>
    rw [List.map_cons, List.foldlM_cons, List.foldlM_cons]
    exact bind (unwatched b q) fun c => ih c

theorem foldlM_watching {p : Plugin σ} (watched : ∀ b, Mirrors l (F b p.watched) (G b p))
    (before after : List (Plugin σ)) (b : Bool) :
    Mirrors l ((Plugin.watching before p after).foldlM F b)
      ((before ++ p :: after).foldlM G b) := by
  rw [Plugin.watching, List.foldlM_append, List.foldlM_append]
  refine bind (l := []) (foldlM_unwatched unwatched before b) fun c => ?_
  rw [List.foldlM_cons, List.foldlM_cons]
  have rest := bind (watched c) fun d => foldlM_unwatched unwatched after d
  rwa [List.append_nil] at rest

end Claims
end Mirrors

/-- `f` does what `g` does, whatever it adds to the record. -/
def Accompanies (f : Reaction (Watched σ) α) (g : Reaction σ α) : Prop :=
  ∀ own record s a own' t, g (own, s) = (.ok a, own', t) →
    ∃ record', f ((own, record), s) = (.ok a, (own', record'), t)

namespace Accompanies

variable {f : Reaction (Watched σ) α} {g : Reaction σ α} {f' : α → Reaction (Watched σ) β}
  {g' : α → Reaction σ β}

theorem of_mirrors {l : List Event} (h : Mirrors l f g) : Accompanies f g :=
  fun _ record _ _ _ _ run => ⟨record ++ l, h.ok run⟩

theorem bind (h : Accompanies f g) (h' : ∀ a, Accompanies (f' a) (g' a)) :
    Accompanies (f >>= f') (g >>= g') := by
  intro own record s b own' t run
  rw [Ensures.bind_run] at run ⊢
  split at run
  next a st first =>
    obtain ⟨record', first⟩ := h own record s a st.1 st.2 first
    rw [first]
    exact h' a st.1 record' st.2 b own' t run
  next => cases run

end Accompanies

/-! ### Runs -/

namespace Plugin

/-- Plugins use entry points only, whether or not one of them is under watch. -/
theorem public_watching {before after : List (Plugin σ)} {p : Plugin σ}
    (guarded : ∀ q ∈ before ++ p :: after, q.Public) : ∀ q ∈ watching before p after, q.Public := by
  have quietly {α : Type} {f : Reaction σ α} (h : f.Public) : (Watched.quietly f).Public :=
    Reaction.relates_focus h
  have noting {α : Type} {e : Event} {f : Reaction σ α} (h : f.Public) :
      (Watched.noting e f).Public := .bind Reaction.relates_modifyOwn fun _ => quietly h
  intro q hq
  obtain hq | rfl | hq := by simpa only [watching, List.mem_append, List.mem_cons] using hq
  · obtain ⟨q, mem, rfl⟩ := List.mem_map.1 hq
    exact .focus (guarded q (by simp [mem]))
  · have guard : p.Public := guarded p (by simp)
    exact {
      onStart := quietly guard.onStart
      onMethod := fun m => noting (guard.onMethod m)
      onContextMethod := fun cm => noting (guard.onContextMethod cm)
      onCall := fun edge => noting (guard.onCall edge)
      onUnresolved := fun receiver c site => noting (guard.onUnresolved receiver c site)
      onObjects := fun x delta => noting (guard.onObjects x delta)
      onFinish := quietly guard.onFinish }
  · obtain ⟨q, mem, rfl⟩ := List.mem_map.1 hq
    exact .focus (guarded q (by simp [mem]))

end Plugin

namespace Analysis

variable {before after : List (Plugin σ)} {p : Plugin σ}

/-- The plugin under watch notes the event that is handed out. -/
theorem mirrors_dispatch (e : Event) :
    Mirrors [e] (dispatch (.all (Plugin.watching before p after)) e)
      (dispatch (.all (before ++ p :: after)) e) := by
  cases e with
  | method m =>
    exact .forM_watching (fun q => .quietly (q.onMethod m)) (.noting _ (p.onMethod m)) before after
  | contextMethod cm =>
    exact .forM_watching (fun q => .quietly (q.onContextMethod cm)) (.noting _ (p.onContextMethod cm))
      before after
  | call edge =>
    exact .forM_watching (fun q => .quietly (q.onCall edge)) (.noting _ (p.onCall edge)) before after
  | objects x delta =>
    exact .forM_watching (fun q => .quietly (q.onObjects x delta)) (.noting _ (p.onObjects x delta))
      before after
  | unresolved receiver c site =>
    have asked : Mirrors [.unresolved receiver c site]
        ((Plugin.all (Plugin.watching before p after)).onUnresolved receiver c site)
        ((Plugin.all (before ++ p :: after)).onUnresolved receiver c site) := by
      refine .foldlM_watching (fun b q => ?_) (fun b => ?_) before after false
      · exact .bind (l := []) (.quietly (q.onUnresolved receiver c site)) fun _ => .pure
      · exact .bind (l := [_]) (.noting _ (p.onUnresolved receiver c site)) fun _ => .pure
    refine .bind (k := []) asked fun claimed => ?_
    split
    · exact .solve (reject receiver site)
    · exact .pure

theorem mirrors_onStart : Mirrors [] (Plugin.all (Plugin.watching before p after)).onStart
    (Plugin.all (before ++ p :: after)).onStart :=
  .forM_watching (fun q => .quietly q.onStart) (.quietly p.onStart) before after

theorem accompanies_step : Accompanies (step (.all (Plugin.watching before p after)))
    (step (.all (before ++ p :: after))) := by
  refine .bind (.of_mirrors (.solve nextEvent)) fun next => ?_
  cases next with
  | some e => exact .bind (.of_mirrors (mirrors_dispatch e)) fun _ => .of_mirrors .pure
  | none => exact .of_mirrors (.solve Solve.step)

/-- A run under watch comes through the same states. -/
theorem accompanies_loop (fuel : Nat) : Accompanies
    (loop (.all (Plugin.watching before p after)) fuel) (loop (.all (before ++ p :: after)) fuel) := by
  induction fuel with
  | zero => exact .of_mirrors .pure
  | succ fuel ih =>
    refine .bind accompanies_step fun more => ?_
    cases more with
    | true => exact ih
    | false => exact .of_mirrors .pure

end Analysis

end PointsTo
