import PointsTo.Options.Setting
import PointsTo.Text.Cut

/-!
Reading options from the arguments of a command.

A setting is given as `--name`, followed by its value, if it takes one, after an equals sign or in
the next argument. Any other argument is the input, and after `--` all are. A value is checked when
the next setting begins, so of two mistakes the earlier one counts, except that missing values and
repetitions are found at the end.
-/
namespace PointsTo

/-- Why the options are not read to the end. -/
inductive Interruption
  | mistake (mistake : Mistake)
  /-- Help was asked for, in its brief or in its full form. -/
  | help (full : Bool)
  | version
  deriving DecidableEq, Repr

/-- The form of an argument before `--`. -/
inductive ArgumentForm
  | separator
  | long (name : String) (value : Option String)
  | short (letter : Char)
  | plain
  deriving DecidableEq, Repr

namespace ArgumentForm

def longOf (s : List Char) : ArgumentForm :=
  match Text.cut? ['='] s with
  | some (name, value) => long (String.ofList name) (some (String.ofList value))
  | none => long (String.ofList s) none

def of (argument : String) : ArgumentForm :=
  match argument.toList with
  | ['-', '-'] => separator
  | '-' :: '-' :: s => longOf s
  | '-' :: c :: _ => short c
  | _ => plain

end ArgumentForm

/-- A setting as it was given, its value absent where none was. -/
structure Use where
  setting : Setting
  value : Option String
  deriving DecidableEq, Repr

/-- The arguments read so far. -/
structure ArgumentReading where
  /-- The settings whose values are checked, in order. -/
  uses : List Use := []
  /-- The last setting, when its value is not yet checked. -/
  pending : Option Use := none
  /-- Whether the pending setting waits for a value. -/
  awaiting : Bool := false
  /-- Whether `--` has come. -/
  separated : Bool := false
  inputTaken : Bool := false

namespace ArgumentReading

/-- Checks the value of the pending setting. -/
def settle (r : ArgumentReading) : Except Interruption ArgumentReading :=
  match r.pending with
  | none => pure r
  | some use =>
    match (use.value.elim (pure ()) use.setting.check : Except Mistake Unit) with
    | .error m => throw (.mistake m)
    | .ok () => pure { r with uses := r.uses ++ [use], pending := none }

/-- Ends the reading, once the pending setting is found good. -/
def interrupt (r : ArgumentReading) (i : Interruption) : Except Interruption ArgumentReading := do
  let _ ← r.settle
  throw i

def give (r : ArgumentReading) (argument : String) : Except Interruption ArgumentReading := do
  if r.inputTaken then throw (.mistake (.unknownArgument argument))
  let r ← r.settle
  return { r with pending := some ⟨.input, some argument⟩, awaiting := false, inputTaken := true }

def readLong (r : ArgumentReading) (argument name : String) (value : Option String) :
    Except Interruption ArgumentReading := do
  let needless := Interruption.mistake (.needlessValue name)
  match Setting.ofName? name, value with
  | some setting, some _ =>
    if setting.takesValue then
      let r ← r.settle
      { r with pending := some ⟨setting, value⟩, awaiting := false }.settle
    else throw needless
  | some setting, none =>
    let r ← r.settle
    let r := { r with pending := some ⟨setting, none⟩, awaiting := setting.takesValue }
    if setting.takesValue then return r else r.settle
  | none, _ =>
    if name = "help" then if value.isSome then throw needless else r.interrupt (.help true)
    else if name = "version" then if value.isSome then throw needless else r.interrupt .version
    else throw (.mistake (.unknownArgument argument))

def readShort (r : ArgumentReading) (argument : String) (letter : Char) :
    Except Interruption ArgumentReading :=
  if letter = 'h' then r.interrupt (.help false)
  else if letter = 'V' then r.interrupt .version
  else throw (.mistake (.unknownArgument argument))

def step (r : ArgumentReading) (argument : String) : Except Interruption ArgumentReading :=
  if r.separated then r.give argument
  else match ArgumentForm.of argument with
    | .separator => pure { r with separated := true }
    | .long name value => r.readLong argument name value
    | .short letter => r.readShort argument letter
    | .plain => match r.pending, r.awaiting with
      | some use, true =>
        pure { r with pending := some { use with value := some argument }, awaiting := false }
      | _, _ => r.give argument

/-- The uses of a setting. -/
def usesOf (uses : List Use) (setting : Setting) : List Use :=
  uses.filter fun u => u.setting == setting

/-- Whether a setting that takes a value has none. -/
def lacksValue (uses : List Use) (setting : Setting) : Bool :=
  setting.takesValue && (usesOf uses setting).all fun u => u.value.isNone

def checkUse (uses : List Use) (use : Use) : Except Interruption Unit := do
  if lacksValue uses use.setting then throw (.mistake (.missingValue use.setting))
  if (usesOf uses use.setting).length > 1 then throw (.mistake (.repeated use.setting))

/-- The settings, when each is given once and has its value. -/
def finish (r : ArgumentReading) : Except Interruption (List Use) := do
  let settled ← r.settle
  if let (some use, true) := (r.pending, r.awaiting) then
    if lacksValue settled.uses use.setting then throw (.mistake (.missingValue use.setting))
  settled.uses.forM (checkUse settled.uses)
  return settled.uses

end ArgumentReading

namespace Options

/-- The options as changed by some arguments. -/
def read (o : Options) (arguments : List String) : Except Interruption Options := do
  let r ← arguments.foldlM ArgumentReading.step {}
  return (← r.finish).foldl (fun o use => use.setting.apply o use.value) o

end Options

end PointsTo
