import TreeWalk.Files

/-!
# Files in memory

A `FileTree` is a tree of directories, and its files hold bytes.  It serves programs from
memory, to whoever has no system to read files from or does not want to.

A path is followed name by name, from the root or from a home directory.  Empty names and
`.` stay where they are, and `..` goes up, which the root does not.  Only a directory can
be left again, so even an empty name behind a file is one too many.
-/

namespace TreeWalk

/-- A file, or a directory of named files and directories. -/
inductive FileTree where
  | file (bytes : ByteArray)
  | directory (entries : List (String × FileTree))

namespace FileTree

instance : Inhabited FileTree := ⟨directory []⟩

/-- The greatest number of bytes in a name. -/
def maxName : Nat := 255

/-- The greatest number of bytes in a path. -/
def maxPath : Nat := 4095

/-- Follow names from a place in a tree.  `above` holds the directories around the place,
innermost first. -/
def follow (above : List FileTree) (here : FileTree) : List String → Except FileError FileTree
  | [] => .ok here
  | name :: rest =>
    match here with
    | file _ => .error .notDirectory
    | directory entries =>
      if name = "" ∨ name = "." then follow above here rest
      else if name = ".." then
        match above with
        | [] => follow [] here rest
        | parent :: above => follow above parent rest
      else if maxName < name.utf8ByteSize then .error .nameTooLong
      else
        match entries.lookup name with
        | none => .error .notFound
        | some found => follow (here :: above) found rest

/-- What is at a path, where relative paths begin at the directory with the names in
`home`. -/
def find (root : FileTree) (home : List String) (path : String) : Except FileError FileTree :=
  if path.toList.contains '\x00' then .error .badName
  else if maxPath < path.utf8ByteSize then .error .nameTooLong
  else if path = "" then .error .notFound
  else
    match path.splitOn "/" with
    | "" :: names => follow [] root names
    | names => follow [] root (home ++ names)

/-- The text at a path. -/
def read (root : FileTree) (home : List String) (path : String) : Except FileError String :=
  match root.find home path with
  | .error e => .error e
  | .ok (file bytes) => decodeText bytes
  | .ok (directory _) => .error .isDirectory

end FileTree

/-- The files of a tree, together with the bytes of a standard input. -/
def Files.ofTree (input : ByteArray) (root : FileTree) (home : List String) : Files :=
  ⟨decodeText input, root.read home⟩

end TreeWalk
