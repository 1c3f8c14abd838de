/-!
# Files

A program comes from a file or from the standard input, for which the path `-` stands.
`Files` is what reading these comes to, so whatever depends on files is a function of it.

What can go wrong before the text of a file is there is told by `FileError`.  Its reasons
are worded as the system words them, with the numbers that the system gives them.
-/

namespace TreeWalk

/-- Why the text of a file is not there. -/
inductive FileError where
  | notFound
  | permissionDenied
  /-- The path leads to a directory. -/
  | isDirectory
  /-- The path goes on behind something that is no directory. -/
  | notDirectory
  /-- The path, or one name in it, is longer than the system allows. -/
  | nameTooLong
  /-- The path holds a character that no path may hold. -/
  | badName
  /-- The bytes of the file are not UTF-8. -/
  | notText
  /-- Any other failure, in the words of the system. -/
  | other (reason : String)
  deriving DecidableEq, Repr

namespace FileError

/-- The reason for a failure. -/
def reason : FileError → String
  | notFound => "No such file or directory (os error 2)"
  | permissionDenied => "Permission denied (os error 13)"
  | isDirectory => "Is a directory (os error 21)"
  | notDirectory => "Not a directory (os error 20)"
  | nameTooLong => "File name too long (os error 36)"
  | badName => "file name contained an unexpected NUL byte"
  | notText => "stream did not contain valid UTF-8"
  | other reason => reason

end FileError

/-- The text that bytes encode. -/
def decodeText (bytes : ByteArray) : Except FileError String :=
  match String.fromUTF8? bytes with
  | some text => .ok text
  | none => .error .notText

/-- What reading the standard input and reading files comes to. -/
structure Files where
  /-- The standard input. -/
  input : Except FileError String
  /-- The file at a path. -/
  file : String → Except FileError String

namespace Files

/-- The path that stands for the standard input. -/
def inputPath : String := "-"

/-- What reading the text at a path comes to. -/
def read (files : Files) (path : String) : Except FileError String :=
  if path = inputPath then files.input else files.file path

end Files

end TreeWalk
