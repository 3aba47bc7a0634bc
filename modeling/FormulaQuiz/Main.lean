import FormulaQuiz.Cli.Report

/-!
# The program

Reads the file or directory that the command line names, prints the report and exits with its code.
-/

namespace FormulaQuiz.Cli

/-- The file tree that a path names; a link within a directory is no file. -/
partial def readTree (path : String) : IO FileTree := do
  let place := (← IO.currentDir) / path
  if ← place.isDir then
    let mut entries := #[]
    for entry in ← place.readDir do
      let kind := (← entry.path.symlinkMetadata).type
      if kind matches .file || kind matches .dir then
        try
          entries := entries.push (entry.fileName, ← readTree entry.path.toString)
        catch _ => pure ()
    return .directory entries.toList
  else return .file (← IO.FS.readBinFile path)

/-- What a path names, if it names anything. -/
def readPath? (path : String) : IO (Option FileTree) := do
  let place := (← IO.currentDir) / path
  if ← place.pathExists then return some (← readTree path) else return none

end FormulaQuiz.Cli

open FormulaQuiz Cli in
/-- Runs the command that the arguments are. -/
def main (arguments : List String) : IO UInt32 := do
  let report ← match Command.ofLine? arguments with
    | none => pure Report.usage
    | some command =>
      let path := absolutePath (← IO.currentDir).toString command.path
      let entropy ← IO.rand 0 (1 <<< 64 - 1)
      pure (command.report path (← readPath? path) (UInt64.ofNat entropy))
  report.lines.forM IO.println
  return report.exitCode
