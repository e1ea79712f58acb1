import CallLang.Host

/-!
# A small file tree

The files and directories of one working directory, and what a path leads to in it. Paths that leave the working
directory lead to directories without entries.
-/

namespace CallLang

/-- Files with their contents and directories, by their paths from the working directory. -/
structure FileTree where
  files : List (Bytes × Bytes) := []
  directories : List Bytes := []

namespace FileTree

/-- The parts of a path between slashes. -/
def parts : Bytes → List Bytes
  | [] => [[]]
  | b :: rest =>
    if b = slash then [] :: parts rest
    else match parts rest with
      | [] => [[b]]
      | part :: more => (b :: part) :: more

/-- A part that leads nowhere else: an empty one, or a dot. -/
def isHere (part : Bytes) : Bool :=
  part == [] || part == ascii "."

/-- The path of an entry as the parts that matter. -/
def normal (path : Bytes) : List Bytes :=
  (parts path).filter fun part => !isHere part

/-- The content of the file at a path. -/
def file? (t : FileTree) (path : List Bytes) : Option Bytes :=
  (t.files.find? fun (name, _) => normal name == path).map (·.2)

/-- Whether a path is that of a directory: the working directory, one that is listed, or one with an entry in it. -/
def isDirectory (t : FileTree) (path : List Bytes) : Bool :=
  path == [] || (t.directories.any fun name => path.isPrefixOf (normal name)) ||
    (t.files.any fun (name, _) => path.isPrefixOf (normal name) && path != normal name)

/-- The length up to which one part of a path can name an entry. -/
def longestPart : Nat := 255

/-- The length up to which a path is looked at. -/
def longestPath : Nat := 4095

/-- Follows the parts of a path from the directory `here`; no directory stands for one outside the tree. -/
def walk (t : FileTree) : (here : Option (List Bytes)) → List Bytes → Except PathProblem Entry
  | _, [] => .ok .directory
  | none, part :: rest =>
    if isHere part || part == ascii ".." then walk t none rest
    else if longestPart < part.length then .error .tooLong
    else .error .missing
  | some here, part :: rest =>
    if isHere part then walk t (some here) rest
    else if part == ascii ".." then walk t (if here == [] then none else some here.dropLast) rest
    else if longestPart < part.length then .error .tooLong
    else if t.isDirectory (here ++ [part]) then walk t (some (here ++ [part])) rest
    else match t.file? (here ++ [part]), rest with
      | some content, [] => .ok (.file content)
      | some _, _ :: _ => .error .notDirectory
      | none, _ => .error .missing

/-- What a path leads to. No path holds a null byte. -/
def entry (t : FileTree) (path : Bytes) : Except PathProblem Entry :=
  match path with
  | [] => .error .missing
  | b :: _ =>
    if 0 ∈ path then .error .invalid
    else if longestPath < path.length then .error .tooLong
    else walk t (if b = slash then none else some []) (parts path)

/-- The C compiler at a path: files of the tree cannot be run. -/
def tool (t : FileTree) (path : Bytes) : Except PathProblem Tool :=
  match t.entry path with
  | .error problem => .error problem
  | .ok _ => .error .denied

end FileTree

end CallLang
