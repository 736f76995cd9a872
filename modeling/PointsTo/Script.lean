import PointsTo.Plugin

/-!
Scripts: a plugin that writes down the events of a run, and acts after given ones.
-/
namespace PointsTo

structure Script (α : Type) where
  /-- Whether it takes care of the calls that have no target. -/
  claims : Bool := false
  /-- Whether events are written down. Answers of actions always are. -/
  records : Bool := true
  /-- What to do after which event, counted from zero. -/
  actions : List (Nat × Solve α) := []

namespace Script

inductive Entry (α : Type)
  | start
  | event (event : Event)
  | finish
  /-- The answer of an action after the given event. -/
  | answer (after : Nat) (answer : α)

structure Transcript (α : Type) where
  entries : Array (Entry α) := #[]
  /-- The number of events so far. -/
  events : Nat := 0

variable {α : Type}

instance : Inhabited (Transcript α) := ⟨{}⟩

def Transcript.write (t : Transcript α) (e : Entry α) : Transcript α :=
  { t with entries := t.entries.push e }

/-- Does the actions that follow an event. -/
def act (s : Script α) (event : Nat) : Reaction (Transcript α) Unit :=
  (s.actions.filter fun (after, _) => after == event).forM fun (after, action) => do
    let answer ← Reaction.solve action
    Reaction.modifyOwn (·.write (.answer after answer))

def observe (s : Script α) (e : Entry α) : Reaction (Transcript α) Unit := do
  let event := (← Reaction.own).events
  if s.records then Reaction.modifyOwn (·.write e)
  Reaction.modifyOwn fun t => { t with events := event + 1 }
  s.act event

def plugin (s : Script α) : Plugin (Transcript α) where
  onStart := s.observe .start
  onMethod m := s.observe (.event (.method m))
  onContextMethod m := s.observe (.event (.contextMethod m))
  onCall edge := s.observe (.event (.call edge))
  onUnresolved receiver context site := do
    s.observe (.event (.unresolved receiver context site))
    return s.claims
  onObjects var delta := s.observe (.event (.objects var delta))
  onFinish := s.observe .finish

end Script

end PointsTo
