import JumpCode.Source.Script

/-!
# Files

A `FileTree` is the content of a directory: files under paths of names, and the directories they
are in.  Paths given by a user are resolved against it as a Unix system does: every part but the
last must lead to a directory, `.` stays, and `..` goes up.  What lies above the directory is not
known, but for the directories that `..` leads to.
-/

namespace JumpCode

inductive FileError where
  | notFound
  | notADirectory
  | isADirectory
  | notText
  | nameTooLong
  | nulInPath
  deriving DecidableEq, Repr

def FileError.reason : FileError → String
  | .notFound => "No such file or directory (os error 2)"
  | .notADirectory => "Not a directory (os error 20)"
  | .isADirectory => "Is a directory (os error 21)"
  | .notText => "stream did not contain valid UTF-8"
  | .nameTooLong => "File name too long (os error 36)"
  | .nulInPath => "file name contained an unexpected NUL byte"

/-! ### Paths -/

namespace Path

def parts (path : String) : List String :=
  ((path.toList.splitOn '/').map String.ofList).filter (· ≠ "")

def isAbsolute (path : String) : Bool := path.toList.head? == some '/'

/-- The name of what a path leads to, empty if its last part is not a name. -/
def fileName (path : String) : String :=
  match ((parts path).filter (· ≠ ".")).getLast? with
  | none => ""
  | some name => if name = ".." then "" else name

end Path

/-! ### Trees -/

/-- Files and directories under their paths from the directory. -/
structure FileTree where
  files : List (List String × ByteArray)
  directories : List (List String)

/-- Where a path has led to. -/
inductive Place where
  | file (path : List String) (content : ByteArray)
  | directory (path : List String)
  /-- A directory above the one that is known. -/
  | above

namespace FileTree

def empty : FileTree := ⟨[], []⟩

def content? (t : FileTree) (path : List String) : Option ByteArray := t.files.lookup path

def hasDirectory (t : FileTree) (path : List String) : Bool := t.directories.contains path

def origin (path : String) : Place := if Path.isAbsolute path then .above else .directory []

def put (t : FileTree) (path : List String) (content : ByteArray) : FileTree :=
  match t.content? path with
  | some _ => { t with files := t.files.map fun f => if f.1 = path then (path, content) else f }
  | none => { t with files := t.files ++ [(path, content)] }

/-- Go from the directory `dir` to where one part of a path leads, making a directory if there is
    none. -/
def makeDirectory (t : FileTree) (dir : List String) (part : String) : FileTree × List String :=
  if part = "." then (t, dir)
  else if part = ".." then (t, dir.dropLast)
  else
    let path := dir ++ [part]
    if t.hasDirectory path then (t, path)
    else ({ t with directories := t.directories ++ [path] }, path)

def addFile (t : FileTree) (path : String) (content : ByteArray) : FileTree :=
  match (Path.parts path).getLast? with
  | none => t
  | some name =>
    let (t, dir) := (Path.parts path).dropLast.foldl
      (fun (t, dir) part => t.makeDirectory dir part) (t, [])
    t.put (dir ++ [name]) content

def ofFiles (files : List (String × ByteArray)) : FileTree :=
  files.foldl (fun t f => t.addFile f.1 f.2) empty

/-- The files that are not in an earlier tree, or not with the same content. -/
def changesSince (t earlier : FileTree) : List (String × ByteArray) :=
  (t.files.filter fun f => earlier.content? f.1 != some f.2).map fun f =>
    (String.intercalate "/" f.1, f.2)

end FileTree

end JumpCode
