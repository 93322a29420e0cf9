/-!
# Files

A small tree of files: what the calculator sees of the directory in which it
is run.  A path is walked part by part: `.` and repeated slashes stay where
they are and `..` goes back, but every step must begin in a directory that is
there, so `a/..` leads nowhere if `a` is missing or is a file.
-/

namespace Reckon

/-- What stands at a place. -/
inductive FileEntry where
  | file (bytes : List UInt8)
  | directory
deriving DecidableEq

/-- A place by the names that lead to it, the last one first.  A leading `..`
stands for the directory above the tree, and `/` for the root of all files. -/
abbrev Place := List String

/-- Files and directories by their places. -/
structure FileTree where
  entries : List (Place × FileEntry)
deriving DecidableEq

namespace FileTree

/-- No files at all. -/
def empty : FileTree := ⟨[]⟩

/-- The name that stands for the root of all files. -/
def root : String := "/"

/-- One step further from a place: `..` goes back, save at the root and above
the tree itself. -/
def onward (here : Place) (part : String) : Place :=
  if part = "" ∨ part = "." then here
  else if part = ".." then
    match here with
    | [] => [".."]
    | last :: before =>
      if last = root then here else if last = ".." then ".." :: here else before
  else part :: here

/-- The parts of a path, between its slashes. -/
def parts (path : String) : List String :=
  (path.toList.splitOn '/').map String.ofList

/-- Where a path begins. -/
def start (path : String) : Place :=
  if path.toList.head? = some '/' then [root] else []

/-- The place that a path means when everything it leads through is there. -/
def place (path : String) : Place :=
  (parts path).foldl onward (start path)

/-- What stands at a place.  The tree itself and what lies above it are
directories, and so is everything that something stands below. -/
def entryAt? (t : FileTree) (p : Place) : Option FileEntry :=
  if p.all fun name => name = ".." ∨ name = root then some .directory
  else
    match t.entries.lookup p with
    | some entry => some entry
    | none => if t.entries.any fun (q, _) => p.isSuffixOf q then some .directory else none

/-- A step further from a place, which must be a directory. -/
def step? (t : FileTree) (p : Place) (part : String) : Option Place :=
  if t.entryAt? p = some .directory then some (onward p part) else none

/-- What a path leads to.  The empty path leads nowhere. -/
def find? (t : FileTree) (path : String) : Option FileEntry :=
  if path.isEmpty then none
  else ((parts path).foldlM t.step? (start path)).bind t.entryAt?

/-- Puts something at a path. -/
def write (t : FileTree) (path : String) (entry : FileEntry) : FileTree :=
  ⟨(place path, entry) :: t.entries.filter (·.1 ≠ place path)⟩

/-- Takes away what stands at a path. -/
def remove (t : FileTree) (path : String) : FileTree :=
  ⟨t.entries.filter (·.1 ≠ place path)⟩

end FileTree

end Reckon
