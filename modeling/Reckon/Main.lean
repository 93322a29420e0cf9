import Reckon.CommandLine
import Reckon.Randomness
import Reckon.Yaml.Reader
/-!
# The program

Reads the files that a run can need, hands them to the command line, and
writes what it answers.  Nothing stops the log.
-/

namespace Reckon

/-- What stands at a path of the file system. -/
def readEntry (path : String) : IO (Option FileEntry) := do
  let file := (← IO.currentDir) / path
  if ← file.isDir then return some .directory
  else if ← file.pathExists then return some (.file (← IO.FS.readBinFile file).toList)
  else return none

/-- A tree with what stands at a path, and the directories on the way to it. -/
def addPath (tree : FileTree) (path : String) : IO FileTree := do
  let parts := path.splitOn "/"
  let mut tree := tree
  for n in [1:parts.length] do
    let way := "/".intercalate (parts.take n)
    if (← readEntry way) = some .directory then
      tree := tree.write way .directory
  match ← readEntry path with
  | some entry => return tree.write path entry
  | none => return tree

/-- The files that the arguments can lead to. -/
def filesFor (arguments : List String) : IO FileTree := do
  let operands := match arguments with
    | "run" :: path :: _ => [path]
    | _ => []
  (Settings.fileName :: operands).foldlM addPath .empty

end Reckon

/-- Runs the command line on the arguments of the program. -/
def main (arguments : List String) : IO UInt32 := do
  let files ← Reckon.filesFor arguments
  let seed ← IO.rand 0 (UInt64.size - 1)
  let random := Reckon.randomAt seed.toUInt64
  let ending :=
    Reckon.CommandLine.run Reckon.Yaml.reader (fun _ => none) arguments files (.fresh random)
  match ending with
  | .exit status output errors =>
    IO.print output
    IO.eprint errors
    return status.toUInt32
  | .escape f =>
    IO.eprintln f.text
    return 1
