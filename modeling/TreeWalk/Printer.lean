/-!
# Where printed lines go

A run prints line by line, and a `Printer` says what becomes of the lines.  A
`console` shows them to whoever started the program, a `buffer` keeps them for the
embedder to read back, and a `silent` printer drops them.

All three are values: what a console has shown and what a buffer has kept is part
of the printer, so printing is a function from printers to printers.  What was
printed is held line by line, one entry for each time something was printed, and put
together when it is read.  An entry may itself contain line breaks, so the lines that
a reader sees, `Printer.lines`, are found by splitting the text again.
-/

namespace TreeWalk

/-- A destination for printed lines. -/
inductive Printer where
  /-- Lines are shown as they come; `shown` is everything shown so far. -/
  | console (shown : Array String)
  /-- Lines are kept; `kept` is everything since the last clearing. -/
  | buffer (kept : Array String)
  /-- Lines are dropped. -/
  | silent
  deriving DecidableEq, Repr

namespace Printer

/-- Printed lines as one text, in which a line feed ends each of them. -/
def join (printed : Array String) : String :=
  printed.foldl (fun text line => text ++ line ++ "\n") ""

/-- Print one line. -/
def println (p : Printer) (line : String) : Printer :=
  match p with
  | console shown => console (shown.push line)
  | buffer kept => buffer (kept.push line)
  | silent => silent

/-- What can be read back.  Only a buffer keeps anything to read. -/
def output : Printer → String
  | buffer kept => join kept
  | _ => ""

/-- What has been shown.  Only a console shows anything. -/
def shown : Printer → String
  | console shown => join shown
  | _ => ""

/-- Drop what can be read back. -/
def clear : Printer → Printer
  | buffer _ => buffer #[]
  | p => p

@[simp] theorem join_empty : join #[] = "" := rfl

@[simp] theorem join_push (printed : Array String) (line : String) :
    join (printed.push line) = join printed ++ line ++ "\n" := by
  simp [join]

@[simp] theorem output_buffer_println (kept : Array String) (line : String) :
    ((buffer kept).println line).output = (buffer kept).output ++ line ++ "\n" :=
  join_push kept line

@[simp] theorem shown_console_println (shown : Array String) (line : String) :
    ((console shown).println line).shown = (console shown).shown ++ line ++ "\n" :=
  join_push shown line

@[simp] theorem output_clear (p : Printer) : p.clear.output = "" := by
  cases p <;> rfl

/-- One line without the carriage return that may end it. -/
def dropReturn (line : List Char) : List Char :=
  if line.getLast? = some '\r' then line.dropLast else line

/-- Split a text into lines.  `current` holds the characters of the line being read,
last first.  A line feed ends a line, together with one carriage return right
before it; a last line without a line feed keeps its carriage return, and an empty
last line is no line. -/
def splitLines (current : List Char) : List Char → List (List Char)
  | [] => if current.isEmpty then [] else [current.reverse]
  | c :: rest =>
    if c = '\n' then dropReturn current.reverse :: splitLines [] rest
    else splitLines (c :: current) rest

/-- What can be read back, line by line. -/
def lines (p : Printer) : List String :=
  (splitLines [] p.output.toList).map String.ofList

end Printer

end TreeWalk
