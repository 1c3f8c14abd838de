import TreeWalk.CommandLine

/-!
# The program

This is the thin layer between the command line and the system: it reads the one file
that a request needs and writes the two streams of the response.
-/

namespace TreeWalk

namespace Main

/-- A failure with a number of the system, which some of its parts give as a negative
number. -/
def numbered (code : UInt32) (details : String) : FileError :=
  let number := if code.toNat < Nat.pow 2 31 then code.toNat else UInt32.size - code.toNat
  match number with
  | 20 => .notDirectory
  | 21 => .isDirectory
  | 36 => .nameTooLong
  | _ => .other s!"{details} (os error {number})"

/-- A failure of the system, as far as messages tell failures apart. -/
def fileError : IO.Error → FileError
  | .noFileOrDirectory .. => .notFound
  | .permissionDenied .. => .permissionDenied
  | .inappropriateType _ code details => numbered code details
  | .invalidArgument _ code details => numbered code details
  | .resourceExhausted _ code details => numbered code details
  | .otherError code details => numbered code details
  | e => .other (toString e)

/-- The text of the standard input. -/
def readInput : IO (Except FileError String) := do
  try
    return decodeText (← (← IO.getStdin).readBinToEnd)
  catch e =>
    return .error (fileError e)

/-- The text of a file. -/
def readFile (path : String) : IO (Except FileError String) := do
  try
    return decodeText (← IO.FS.readBinFile path)
  catch e =>
    return .error (fileError e)

/-- The files of the system, as far as a request needs them. -/
def files : CommandLine.Request → IO Files
  | .answer _ => return ⟨.error .notFound, fun _ => .error .notFound⟩
  | .run path _ => do
    if path = Files.inputPath then
      let text ← readInput
      return ⟨text, fun _ => .error .notFound⟩
    else
      let text ← readFile path
      return ⟨.error .notFound, fun _ => text⟩

end Main

end TreeWalk

/-- Answer the command line. -/
def main (arguments : List String) : IO UInt32 := do
  let r := TreeWalk.CommandLine.respond
    (← TreeWalk.Main.files (TreeWalk.CommandLine.request arguments)) arguments
  IO.print r.output
  IO.eprint r.error
  return r.status.toUInt32
