import TreeWalk.Files
import TreeWalk.Machine
import TreeWalk.Tree.Reader

/-!
# Programs

A program file holds one tree, whose root must be a block.  Loading reads the tree and
lays it out for evaluation, and running evaluates the root in a fresh state.  `Program.run`
has room for all values, and `Program.execute` is the run on a machine.

`LoadError` tells why there is no program to run: its file could not be read, the text of
the file does not spell a tree, or the root of the tree is no block.
-/

namespace TreeWalk

/-- Why there is no program to run. -/
inductive LoadError where
  | notFound (path : String)
  | permissionDenied (path : String)
  | io (path reason : String)
  /-- The text does not spell a tree. -/
  | invalid (cause : Json.Error)
  /-- The root of the tree is no block. -/
  | rootNotSuite (found : NodeKind)
  deriving DecidableEq

namespace LoadError

/-- The wording of a failure to load. -/
def message : LoadError → String
  | notFound path => s!"cannot find file '{path}'"
  | permissionDenied path => s!"permission denied reading '{path}'"
  | io path reason => s!"error reading '{path}': {reason}"
  | invalid cause => s!"invalid program: {cause.message}"
  | rootNotSuite found => s!"program root must be a suite, found {found.name}"

/-- A failure to read a text, as a failure to load a program from it.  Only of a file can
it be said that it is missing or forbidden. -/
def ofFileError (path : String) (e : FileError) : LoadError :=
  if path = Files.inputPath then io path e.reason
  else
    match e with
    | .notFound => notFound path
    | .permissionDenied => permissionDenied path
    | e => io path e.reason

end LoadError

/-- A program that is ready to run. -/
structure Program where
  /-- Its identifiers. -/
  names : NameTable
  /-- Its nodes. -/
  nodes : NodeStore
  /-- Its root, which is a block. -/
  root : NodeId

/-- How a program is to be run. -/
structure Settings where
  /-- How many calls may nest. -/
  limit : Nat
  /-- Whether calls bind their results. -/
  resultBinding : ResultBinding
  deriving DecidableEq, Repr

namespace Settings

/-- The settings that apply unless others are chosen. -/
def default : Settings := ⟨Env.defaultLimit, .enabled⟩

instance : Inhabited Settings := ⟨default⟩

end Settings

namespace Program

/-- The program that a tree is, if its root is a block. -/
def ofTree (t : Tree) : Except LoadError Program :=
  let (root, layout) := t.lower .fresh
  if t.kind = .suite then .ok ⟨layout.names, layout.nodes, root⟩
  else .error (.rootNotSuite t.kind)

/-- The program that a text spells. -/
def ofText (text : String) : Except LoadError Program :=
  match Tree.ofText text with
  | .error e => .error (.invalid e)
  | .ok t => ofTree t

/-- The tree at a path. -/
def readTree (files : Files) (path : String) : Except LoadError Tree :=
  match files.read path with
  | .error e => .error (.ofFileError path e)
  | .ok text =>
    match Tree.ofText text with
    | .error e => .error (.invalid e)
    | .ok t => .ok t

/-- The program at a path. -/
def load (files : Files) (path : String) : Except LoadError Program :=
  match readTree files path with
  | .error e => .error e
  | .ok t => ofTree t

/-- What evaluation needs of a program. -/
def context (p : Program) (settings : Settings) : Context :=
  ⟨p.names, p.nodes, settings.resultBinding⟩

/-- Run a program from the beginning. -/
def run (p : Program) (settings : Settings) (printer : Printer) : Outcome (Option Value) :=
  Eval.run (p.context settings) p.root (.fresh settings.limit printer)

/-- Run a program from the beginning on the machine. -/
def execute (p : Program) (settings : Settings) (printer : Printer) : Outcome (Option Value) :=
  Machine.run (p.context settings) p.root (.fresh settings.limit printer)

end Program

end TreeWalk
