import TestScript.Command.Run

/-!
# The program

Reads the files that the arguments name, runs the command on them, and writes its outcome. Of a
directory that is named, the scripts right in it are read as well.
-/

namespace TestScript.Program

/-- What stands at a path on disk, if anything. -/
def entryAt (path : String) : IO (Option FileEntry) := do
  try
    let bytes ← IO.FS.readBinFile path
    return some (.file (String.fromUTF8? bytes))
  catch
    | .inappropriateType .. => return some .directory
    | _ => return none

/-- The paths of what is named like a script right in a directory on disk. -/
def scriptsIn (path : String) : IO (List String) := do
  let found ← ((← IO.currentDir) / path).readDir
  return ((found.toList.map (·.fileName)).filter Command.isScriptName).map (joinPath path)

/-- Puts what stands at a path on disk into a file tree, if anything. -/
def addEntry (files : FileTree) (path : String) : IO FileTree := do
  match ← entryAt path with
  | some entry => return files.add path entry
  | none => return files

/-- What stands at some paths on disk, and right in those of them that are directories. -/
def snapshot (paths : List String) : IO FileTree :=
  paths.foldlM (fun files path => do
    let files ← addEntry files path
    if files.isDirectory path then (← scriptsIn path).foldlM addEntry files
    else return files) {}

/-- Colours are forced by an environment variable. -/
def colorsForced : IO Bool := do
  match ← IO.getEnv "CLICOLOR_FORCE" with
  | some value => return value ≠ "0"
  | none => return false

end TestScript.Program

open TestScript in
/-- Runs the command on the files that its arguments name. -/
def main (args : List String) : IO UInt32 := do
  let dir := toString (← IO.currentDir)
  let paths := Settings.fileNames.map (joinPath dir) ++ (Command.Arguments.parse args).paths
  let outcome := Command.run (← Program.snapshot paths) dir (← Program.colorsForced) args
  (← IO.getStdout).putStr outcome.out
  (← IO.getStderr).putStr outcome.err
  return outcome.code.toUInt32
