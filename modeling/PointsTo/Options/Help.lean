/-!
The help text of the command.

The brief form puts the notes on an argument behind its description, the full form on lines of
their own below it. No line is longer than the page is wide, unless a single word is.
-/
namespace PointsTo.Help

/-- An argument as help shows it. -/
structure Entry where
  /-- The names and the kind of value. -/
  head : String
  brief : String
  /-- The description in the full form, when it differs. -/
  full : String := brief
  /-- The value taken by default, and the values that there are. -/
  notes : List String := []

def pageWidth : Nat := 100

/-- The indentation of descriptions. -/
def indent : Nat := 12

/-- Puts words on lines of at most `width` characters; `line` has been begun. -/
def fill (width : Nat) (line : String) : List String → List String
  | [] => [line]
  | word :: rest =>
    let longer := line ++ " " ++ word
    if longer.length ≤ width then fill width longer rest else line :: fill width word rest

def wrap (s : String) : List String :=
  match s.splitOn " " with
  | [] => []
  | word :: rest => fill (pageWidth - indent) word rest

namespace Entry

/-- The lines below the head. -/
def body (full : Bool) (e : Entry) : List String :=
  if full then
    wrap e.full ++ if e.notes.isEmpty then [] else "" :: e.notes.flatMap wrap
  else wrap (" ".intercalate (e.brief :: e.notes))

def text (full : Bool) (e : Entry) : String :=
  "    " ++ e.head ++ "\n"
    ++ String.join ((e.body full).map fun line => "".pushn ' ' indent ++ line ++ "\n")

end Entry

def input : Entry where
  head := "<INPUT>"
  brief := "The program to be analyzed, in JSON format."

/-- The options in the order of their names. -/
def entries : List Entry :=
  [ { head := "    --context-depth <context-depth>"
      brief := "The context depth limit for a context-sensitive pointer analysis."
      notes := ["[default: 1]"] },
    { head := "    --dump-call-graph <call-graph-output>"
      brief := "Dump the call graph in DOT format to the output file." },
    { head := "    --dump-pts <pts-output>"
      brief := "Dump points-to results to the output file." },
    { head := "    --dump-stats"
      brief := "Dump the statistics of the analysis results." },
    { head := "    --dump-taint-flows <taint-flows-output>"
      brief := "Dump the detected taint flows in JSON format to the output file." },
    { head := "-h, --help"
      brief := "Print help information" },
    { head := "    --no-lambda"
      brief := "Do not resolve lambdas and method references." },
    { head := "    --pta-type <pta-type>"
      brief := "The type of pointer analysis."
      full := "The context abstraction: context-insensitive, call-site, object or type sensitive."
      notes := ["[default: callsite-sensitive]",
        "[possible values: ci, context-insensitive, callsite-sensitive, cs, " ++
          "object-sensitive, obj, type-sensitive, type]"] },
    { head := "    --taint-config <taint-config>"
      brief := "Run the taint analysis with the rules in the given JSON file." },
    { head := "-V, --version"
      brief := "Print version information" } ]

def version : String := "pta 0.1.0\n"

def usage : String := "USAGE:\n    pta [OPTIONS] INPUT\n"

/-- The input stands on one line in the brief form, since it is short. -/
def inputText (full : Bool) : String :=
  if full then input.text full else "    " ++ input.head ++ "    " ++ input.brief ++ "\n"

def text (full : Bool) : String :=
  "\n".intercalate [version, usage, "ARGS:\n" ++ inputText full,
    "OPTIONS:\n" ++ "\n".intercalate (entries.map (Entry.text full))]

end PointsTo.Help
