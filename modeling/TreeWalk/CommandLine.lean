import TreeWalk.Options

/-!
# The command line

The answer to a command line is a status and the texts of the two output streams.  It
depends on the arguments and on the texts of the files they name, and `respond` is that
function.  `request` is the part of it that the arguments alone decide, so that a file is
read only when a program is to be run.

The system passes words on, which are bytes.  `answer` takes them for arguments if all of them
are texts.

## Giving up

There are three reasons to give up without an answer, `Crash`: a word that is no text, a program
with more parts than the machine has numbers, and a run that stores more values than it has
handles.  The status is then `101`, and what was printed until then stays printed.

## What is taken for granted

Both streams take what is written to them, and there is memory for whatever fits on the machine.
The variable `RUST_LOG`, of which the usage speaks, is not set.  If it is, a trace is written to
the standard error as well.
-/

namespace TreeWalk

/-- What a command leaves behind. -/
structure Response where
  /-- The exit status. -/
  status : Nat
  /-- What is written to the standard output. -/
  output : String
  /-- What is written to the standard error. -/
  error : String
  deriving DecidableEq, Repr

namespace CommandLine

/-- The version of the program. -/
def version : String := "0.1.0"

/-- The line that follows the output of a program that ran to its end. -/
def successMessage : String := "Program executed successfully"

/-- Lines as one text. -/
def text (lines : List String) : String := Printer.join lines.toArray

/-- How to use the program. -/
def usage : String := text
  [ "tpy - tree-walking evaluator for tpy programs",
    "",
    "Usage: tpy <command> [options]",
    "",
    "Commands:",
    "  run <program.json>   Evaluate a program tree ('-' reads stdin)",
    "  help                 Show this message",
    "  version              Show version information",
    "",
    "Set RUST_LOG (e.g. RUST_LOG=tpy_eval=trace) to trace evaluation." ]

/-- How to use the command that runs a program. -/
def runUsage : String := text
  [ "Usage: tpy run <program.json | -> [options]",
    "",
    "Options:",
    "  --recursion-limit=<n>       Maximum nested calls (default: 1000)",
    "  --no-call-result-binding    Don't bind call results to the function's name" ]

/-- Why a command is given up. -/
inductive Crash where
  /-- A word that the system passed on is no text. -/
  | badWord
  /-- The machine has no position for a part of the program. -/
  | programTooLarge
  /-- The machine has no handle for a value. -/
  | tooManyValues
  deriving DecidableEq, Repr

/-- What is the matter.  The system adds where it was noticed. -/
def Crash.message : Crash → String
  | badWord => "an argument is not valid Unicode"
  | programTooLarge => s!"a store of the program exceeded {NameError.maxIndex} entries"
  | tooManyValues => s!"value arena exceeded {NameError.maxIndex} values"

/-- The response of a command that is given up, with what was printed until then. -/
def crashed (printed : String) (c : Crash) : Response := ⟨101, printed, text [c.message]⟩

/-- The response to a program that was run, according to how the run ended. -/
def ofOutcome : Outcome (Option Value) → Response
  | .done _ s => ⟨0, s.printer.shown ++ text [successMessage], ""⟩
  | .failed e s => ⟨1, s.printer.shown, text [e.message]⟩
  | .dangling => ⟨1, "", text ["the program refers to a node that does not exist"]⟩
  | .exhausted => ⟨1, "", text ["the program nests more deeply than it has nodes"]⟩
  | .full s => crashed s.printer.shown .tooManyValues

/-- The response to a request to run the program at a path. -/
def runPath (files : Files) (path : String) (settings : Settings) : Response :=
  match Program.readTree files path with
  | .error e => ⟨1, "", text [e.message]⟩
  | .ok t =>
    if t.Fits then
      match Program.ofTree t with
      | .error e => ⟨1, "", text [e.message]⟩
      | .ok p => ofOutcome (p.execute settings (.console #[]))
    else crashed "" .programTooLarge

/-- What a command line asks for. -/
inductive Request where
  /-- A response that depends on nothing else. -/
  | answer (r : Response)
  /-- A file to be run. -/
  | run (path : String) (settings : Settings)
  deriving DecidableEq, Repr

/-- What the arguments of the run command ask for. -/
def runRequest (arguments : List String) : Request :=
  match Options.ofArguments arguments with
  | .error e => .answer ⟨1, "", text [s!"error: {e.message}"] ++ runUsage⟩
  | .ok o =>
    match o.positional with
    | [] => .answer ⟨1, "", text ["error: missing program path"] ++ runUsage⟩
    | path :: _ => .run path o.settings

/-- What a command line asks for. -/
def request : List String → Request
  | [] => .answer ⟨0, usage, ""⟩
  | command :: arguments =>
    if command = "run" then runRequest arguments
    else if command = "help" ∨ command = "--help" ∨ command = "-h" then .answer ⟨0, usage, ""⟩
    else if command = "version" ∨ command = "--version" ∨ command = "-V" then
      .answer ⟨0, text [s!"tpy {version}"], ""⟩
    else .answer ⟨1, usage, text [s!"Unknown command: {command}", ""]⟩

/-- The response to a command line. -/
def respond (files : Files) (arguments : List String) : Response :=
  match request arguments with
  | .answer r => r
  | .run path settings => runPath files path settings

/-- The texts that words are, if all of them are texts. -/
def texts? (words : List ByteArray) : Option (List String) := words.mapM String.fromUTF8?

/-- The response to the words that the system passes on.  The first of them is the name under
which the command was called. -/
def answer (files : Files) (words : List ByteArray) : Response :=
  match texts? words with
  | none => crashed "" .badWord
  | some arguments => respond files arguments.tail

end CommandLine

end TreeWalk
