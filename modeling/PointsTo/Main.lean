import PointsTo.Command

/-!
The program: the command on the files of the machine.
-/
namespace PointsTo.Machine

/-- A system error as it is shown to users. -/
def describe : IO.Error → String
  | .noFileOrDirectory _ code details | .permissionDenied _ code details
  | .inappropriateType _ code details | .resourceExhausted _ code details
  | .alreadyExists _ code details | .invalidArgument _ code details =>
    s!"{details} (os error {code})"
  | e => toString e

def attempt {α : Type} (fault : IO.Error → Fault) (action : IO α) : IO (Except Fault α) := do
  try return pure (← action)
  catch e => return throw (fault e)

/-- Why a file has no text: it cannot be opened, or it is a directory, or what it holds is no
text. -/
def unreadable : IO.Error → Fault
  | .inappropriateType name 21 details => .document (describe (.inappropriateType name 21 details))
  | .userError reason => .document reason
  | e => .file (describe e)

def access : Files IO where
  read path := attempt unreadable (IO.FS.withFile path .read fun file => file.readToEnd)
  write path text := attempt (fun e => .file (describe e)) (IO.FS.writeFile path text)
  print text := do (← IO.getStdout).putStr text

end PointsTo.Machine

def main (arguments : List String) : IO UInt32 := do
  let standing := (← IO.getEnv "PTA_FLAGS").getD ""
  let exit ← PointsTo.Command.run PointsTo.Machine.access standing arguments
  (← IO.getStderr).putStr exit.complaint
  return exit.code.toUInt32
