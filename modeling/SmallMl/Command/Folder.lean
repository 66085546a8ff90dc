/-!
# Folders

A command finds its sources in the folder it is started in.  A `Folder` holds files by their paths;
`Folder.read` follows a path through it, name by name.

* An empty name and a single point stay where they are, two points lead one directory up.
* A directory is there when some file is in it.  The folder itself is always there, and so is every
  directory above it, but nothing else is known of those.
* Only a directory leads on: a path that goes on behind a file, even with a slash only, leads
  nowhere.

Of two files with one path, the later one counts.
-/

namespace SmallMl

inductive ReadError
  | missing
  | isDirectory
  | notDirectory
  /-- Any other reason, in the words of the system. -/
  | other (message : String)
  deriving DecidableEq

namespace ReadError

def message (name : String) : ReadError → String
  | missing => String.join ["open ", name, ": no such file or directory"]
  | isDirectory => String.join ["read ", name, ": is a directory"]
  | notDirectory => String.join ["open ", name, ": not a directory"]
  | other message => message

end ReadError

/-- The names that lead to a file or directory. -/
abbrev Path := List (List Char)

namespace Path

def names : List Char → Path
  | [] => [[]]
  | c :: cs =>
    if c = '/' then [] :: names cs
    else match names cs with
      | [] => [[c]]
      | n :: ns => (c :: n) :: ns

def stays (name : List Char) : Bool := name = [] || name = ['.']

def goesUp (name : List Char) : Bool := name = ['.', '.']

end Path

/-- Files by their paths, the later ones first. -/
structure Folder where
  files : List (Path × List UInt8)

namespace Folder

inductive Place
  /-- The directory of the folder with the given path. -/
  | inside (path : Path)
  /-- A directory above the folder. -/
  | outside
  | file (bytes : List UInt8)
  deriving DecidableEq

def ofFiles (files : List (String × List UInt8)) : Folder :=
  ⟨files.reverse.map fun f => ((Path.names f.1.toList).filter (!Path.stays ·), f.2)⟩

/-- Some file is in the directory with the given path. -/
def hasDirectory (d : Folder) (path : Path) : Bool :=
  d.files.any fun f => path.isPrefixOf f.1

def find (d : Folder) (path : Path) : Except ReadError Place :=
  match d.files.lookup path with
  | some bytes => .ok (.file bytes)
  | none => if d.hasDirectory path then .ok (.inside path) else .error .missing

def enter (d : Folder) : Place → List Char → Except ReadError Place
  | .file _, _ => .error .notDirectory
  | .outside, name =>
    if Path.stays name || Path.goesUp name then .ok .outside else .error .missing
  | .inside path, name =>
    if Path.stays name then .ok (.inside path)
    else if Path.goesUp name then .ok (if path.isEmpty then .outside else .inside path.dropLast)
    else d.find (path ++ [name])

/-- Where a path starts that is written like this: with a slash in front, at the very top. -/
def origin (text : List Char) : Place := if text.head? = some '/' then .outside else .inside []

def read (d : Folder) (name : String) : Except ReadError (List UInt8) :=
  if name.isEmpty then .error .missing
  else
    match (Path.names name.toList).foldlM d.enter (origin name.toList) with
    | .ok (.file bytes) => .ok bytes
    | .ok _ => .error .isDirectory
    | .error e => .error e

end Folder

end SmallMl
