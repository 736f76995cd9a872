import PointsTo.Files
import PointsTo.Text.Cut

/-!
Files held in memory, which stand in for those of a machine.

A path is followed name by name, from the root or from the working directory, and every name but
the last has to lead to a directory.
-/
namespace PointsTo

/-- The names that lead from the root to a file or a directory. -/
abbrev Disk.Place := List String

/-- What stands at a place where texts are not kept. -/
inductive Device
  /-- It holds nothing and takes everything. -/
  | null
  /-- It takes nothing. -/
  | full
  /-- It takes what is printed. -/
  | output
  deriving DecidableEq, Repr

structure Disk where
  files : List (Disk.Place × String) := []
  /-- What has been printed. -/
  printed : String := ""

namespace Disk

instance : Inhabited Disk := ⟨{}⟩

/-! ### What there is -/

/-- The working directory, where relative paths begin. -/
def home : Place := ["tmp", "session"]

def devices : List (Place × Device) :=
  [(["dev", "null"], .null), (["dev", "full"], .full), (["dev", "stdout"], .output),
    (["dev", "stderr"], .null)]

/-- The directories that are there without a file in them. -/
def standing : List Place :=
  home :: ["bin", "etc", "home", "proc", "root", "sys", "usr", "var"].map fun name => [name]

/-- The names along a path. One is empty where two slashes meet, or where a slash begins or ends
the path. -/
def namesOf (path : String) : List String := (Text.pieces '/' path.toList).map String.ofList

/-- Files in the working directory and below. -/
def ofList (files : List (String × String)) : Disk where
  files := files.map fun (path, text) =>
    (home ++ (namesOf path).filter fun name => name != "" && name != ".", text)

/-- The files in the working directory and below. -/
def toList (d : Disk) : List (String × String) :=
  d.files.filterMap fun (place, text) =>
    (home.isPrefixOf? place).map fun names => ("/".intercalate names, text)

def isDirectory (d : Disk) (place : Place) : Bool :=
  standing.any place.isPrefixOf ||
    (d.files.map Prod.fst ++ devices.map Prod.fst).any fun other =>
      place.isPrefixOf other && place != other

def isFile (d : Disk) (place : Place) : Bool :=
  (d.files.lookup place).isSome || (devices.lookup place).isSome

/-! ### Faults -/

def missing : Fault := .file "No such file or directory (os error 2)"

def notADirectory : Fault := .file "Not a directory (os error 20)"

def tooLong : Fault := .file "File name too long (os error 36)"

def full : Fault := .file "No space left on device (os error 28)"

/-- A path is a text without the zero character. -/
def notAPath : Fault := .file "file name contained an unexpected NUL byte"

/-- A directory can be opened for reading, and turns out to have no text. -/
def unreadable : Fault := .document "Is a directory (os error 21)"

def unwritable : Fault := .file "Is a directory (os error 21)"

/-! ### Following paths -/

/-- The greatest length of a name, in bytes. -/
def nameLimit : Nat := 255

/-- The least length of a path that is too long, in bytes. -/
def pathBound : Nat := 4096

/-- The place that a name leads to; an empty one leads nowhere else. -/
def follow (d : Disk) (place : Place) (name : String) : Except Fault Place :=
  if d.isDirectory place then
    if name = "" ∨ name = "." then return place
    else if name = ".." then return place.dropLast
    else if nameLimit < name.utf8ByteSize then throw tooLong
    else return place ++ [name]
  else throw (if d.isFile place then notADirectory else missing)

/-- The place that the given names of a path lead to, whether or not there is anything. -/
def resolve (d : Disk) (path : String) (names : List String) : Except Fault Place :=
  if path.contains '\x00' then throw notAPath
  else if path = "" then throw missing
  else if pathBound ≤ path.utf8ByteSize then throw tooLong
  else names.foldlM d.follow (if path.startsWith "/" then [] else home)

def read (d : Disk) (path : String) : Except Fault String := do
  let place ← d.resolve path (namesOf path)
  if d.isDirectory place then throw unreadable
  else match d.files.lookup place, devices.lookup place with
    | some text, _ => return text
    | none, some .full => return "\x00"
    | none, some _ => return ""
    | none, none => throw missing

/-- Replaces a file, or makes it in a directory that is there. No slash follows its name. -/
def write (d : Disk) (path text : String) : Except Fault Disk := do
  let place ← d.resolve path ((namesOf path).reverse.dropWhile (· == "")).reverse
  if d.isDirectory place || path.endsWith "/" then throw unwritable
  else match devices.lookup place with
    | some .null => return d
    | some .full => if text = "" then return d else throw full
    | some .output => return { d with printed := d.printed ++ text }
    | none => return { d with
        files := d.files.filter (fun (other, _) => other != place) ++ [(place, text)] }

/-- Access to the files held in memory. -/
def access : Files (StateM Disk) where
  read path := return (← get).read path
  write path text := do
    match (← get).write path text with
    | .ok d => set d; return .ok ()
    | .error f => return .error f
  print text := modify fun d => { d with printed := d.printed ++ text }

end Disk

end PointsTo
