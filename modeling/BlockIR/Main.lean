import BlockIR.CommandLine.Interpreter
import BlockIR.FileTest.Session

/-!
# The command line

Interprets the files that are given, or runs the file tests if the first word says so.
-/

namespace BlockIR.CommandLine

def logFilter (verbose trace : Bool) : IO LogFilter := do
  return .choose verbose trace (← IO.getEnv "MIRI_LOG")

/-- The text of a file, if it can be read. -/
def readText? (path : String) : IO (Option String) := do
  try return some (← IO.FS.readFile path) catch _ => return none

def refuse : Refusal → IO UInt32
  | .help => do
    IO.println "Usage: [options] <input files>"
    return 0
  | .usage => do
    IO.eprintln "these options make no sense"
    return 1

def writeOutput (filter : LogFilter) (e : Effect) : IO Bool := do
  match e.file with
  | none =>
    IO.print e.output
    return true
  | some path =>
    try
      IO.FS.writeFile path e.output
      return true
    catch _ =>
      (filter.lines [⟨.error, "unable to write output to file `" ++ path ++ "`", []⟩]).forM IO.eprintln
      return false

def interpret (args : List String) : IO UInt32 := do
  match interpreterOptions args with
  | .error r => refuse r
  | .ok (options, base) =>
    let filter ← logFilter base.verbose options.trace
    let inputs ← base.inputs.mapM fun p => return (p, ← readText? p)
    let e := Interpreter.effect options filter base.output inputs
    e.messages.forM IO.eprintln
    let written ← writeOutput filter e
    return if written && e.success then 0 else 1

open FileTest

/-- The folders and the test files of a tree, by their paths below its root. -/
partial def listTree (root : String) (folder : String) : IO (List String × List SourceFile) := do
  let place := if folder = "" then root else root ++ "/" ++ folder
  let mut folders := [folder]
  let mut files := []
  for entry in ← (← IO.FS.realPath place).readDir do
    let path := if folder = "" then entry.fileName else folder ++ "/" ++ entry.fileName
    if ← entry.path.isDir then
      let (inner, below) ← listTree root path
      folders := folders ++ inner
      files := files ++ below
    else if Suite.isTestName entry.fileName then
      files := files ++ [⟨folder, entry.fileName, ← IO.FS.readFile entry.path⟩]
  return (folders, files)

def console : Console IO where
  print := IO.print
  timed test := do
    let start ← IO.monoNanosNow
    let failure := test ()
    let passed := failure.isNone
    let stop ← IO.monoNanosNow
    return (if passed then none else failure, stop - start)
  timeText := secondsText

def runFileTests (args : List String) : IO UInt32 := do
  match sessionOptions args with
  | .error r => refuse r
  | .ok (options, base) =>
    if base.inputs.isEmpty then
      let (folders, files) ← try listTree "tests/filetests" "" catch _ => pure ([], [])
      let ending ← Session.run console options.jobs options.group (Suite.ofFiles folders files)
      match ending with
      | .broken b => IO.eprintln b.message
      | .unknownGroup name => IO.eprintln ("unknown subtest '" ++ name ++ "'")
      | .passed | .failed => pure ()
      return ending.exitCode
    else
      IO.eprintln "expected file list to be empty!"
      return 1

end BlockIR.CommandLine

def main (args : List String) : IO UInt32 :=
  match args with
  | "filetest" :: rest => BlockIR.CommandLine.runFileTests rest
  | _ => BlockIR.CommandLine.interpret args
