import Contracts.Command.Run

/-!
# The program

What the command line names is read from the disk, the run is computed from it, and then its outcome
is carried out: the output and the messages are written, and so are the files that are new or changed.
-/

namespace Contracts.Command

/-- The location as an absolute path. -/
def absolutePath (l : Location) : String :=
  "/" ++ FileTree.pathOf l

/-- Add what the disk holds at a location and below it to a tree. -/
partial def survey (l : Location) (t : FileTree) : IO FileTree := do
  let path := System.mkFilePath [absolutePath l]
  if ← path.isDir then
    let entries ← path.readDir
    entries.foldlM (fun t entry => survey (l ++ [entry.fileName]) t)
      { t with directories := l :: t.directories }
  else if (← path.pathExists) && !t.isFile l then
    return t.put l (← IO.FS.readBinFile path)
  else return t

/-- What the disk holds at the paths that the arguments name. -/
def surveyArguments (base : Location) (arguments : List String) : IO FileTree :=
  let empty : FileTree := ⟨base, [], []⟩
  match Request.read arguments with
  | .error _ => return empty
  | .ok r => r.action.paths.foldlM (fun t path =>
      survey (FileTree.resolve (empty.startOf path) (Path.segments path)) t) empty

/-- Write a file with the directories it is in. -/
def save (f : File) : IO Unit := do
  IO.FS.createDirAll (absolutePath f.location.dropLast)
  IO.FS.writeBinFile (absolutePath f.location) f.bytes

end Contracts.Command

open Contracts Contracts.Command in
/-- Run the program with the arguments of the command line. -/
def main (arguments : List String) : IO UInt32 := do
  let base := FileTree.resolve [] (Path.segments (← IO.currentDir).toString)
  let files ← surveyArguments base arguments
  let outcome := run arguments files
  (← IO.getStdout).putStr outcome.output
  outcome.messages.forM fun line => IO.eprintln line
  (files.changes outcome.files).forM save
  return outcome.exit.toUInt32
