import TreeWalk.Program

/-!
# Options of a run

The arguments of a run are options, which begin with two dashes, and positional
arguments, in any order.  The last limit that is given counts.  A limit is a number
below `2^64` in decimal digits, which may follow a plus sign.
-/

namespace TreeWalk

/-- Why arguments are not understood. -/
inductive OptionError where
  | invalidLimit (text : String)
  | unknown (argument : String)
  deriving DecidableEq, Repr

namespace OptionError

/-- The wording of a complaint about an argument. -/
def message : OptionError → String
  | invalidLimit text => s!"invalid recursion limit '{text}'"
  | unknown argument => s!"unknown option '{argument}'"

end OptionError

/-- What the arguments of a run say. -/
structure Options where
  /-- How to run the program. -/
  settings : Settings
  /-- The arguments that are no options, in order. -/
  positional : List String
  deriving DecidableEq, Repr

namespace Options

/-- The value of a text of decimal digits, of which there must be at least one. -/
def decimal? (cs : List Char) : Option Nat :=
  if cs ≠ [] ∧ cs.all Char.isDigit then some (Nat.ofDigitChars 10 cs 0) else none

/-- The limit that a text gives. -/
def limit? (text : List Char) : Option Nat :=
  let digits :=
    match text with
    | [] => []
    | c :: rest => if c = '+' then rest else c :: rest
  match decimal? digits with
  | some n => if n < UInt64.size then some n else none
  | none => none

/-- The beginning of an option that gives a limit. -/
def limitFlag : List Char := "--recursion-limit=".toList

/-- The option that turns off the binding of results. -/
def noBindingFlag : String := "--no-call-result-binding"

/-- What one argument adds to the options. -/
def add (o : Options) (argument : String) : Except OptionError Options :=
  let cs := argument.toList
  if limitFlag.isPrefixOf cs then
    let text := cs.drop limitFlag.length
    match limit? text with
    | some n => .ok { o with settings := { o.settings with limit := n } }
    | none => .error (.invalidLimit (String.ofList text))
  else if argument = noBindingFlag then
    .ok { o with settings := { o.settings with resultBinding := .disabled } }
  else if ['-', '-'].isPrefixOf cs then .error (.unknown argument)
  else .ok { o with positional := o.positional ++ [argument] }

/-- What arguments add to the options, from left to right. -/
def addAll (o : Options) : List String → Except OptionError Options
  | [] => .ok o
  | argument :: rest =>
    match o.add argument with
    | .error e => .error e
    | .ok o => o.addAll rest

/-- The options that arguments give.  The first argument that is not understood is
complained about. -/
def ofArguments (arguments : List String) : Except OptionError Options :=
  addAll ⟨.default, []⟩ arguments

end Options

end TreeWalk
