import BlockIR.FileTest.Expectation

/-!
# Suites of file tests

The test files of a folder tree. All expectations are read before any test is run, so that a file
without a good header spoils the whole suite.
-/

namespace BlockIR.FileTest

/-- A file of the tree: its folder, relative to the root, its name and its text. -/
structure SourceFile where
  folder : String
  name : String
  text : String

structure Case where
  name : String
  text : String
  expectation : Expectation

/-- Why there is no run, or why it does not go on. -/
inductive Breakdown
  | noWorkers
  | noRoot
  | noFolder (path : String)
  | badHeader (fault : HeaderFault)

def Breakdown.message : Breakdown → String
  | noWorkers => "a test run needs at least one worker"
  | noRoot => "unable to list 'tests/filetests'"
  | noFolder path => "no test directory `tests/filetests/" ++ path ++ "`"
  | badHeader fault => fault.message

/-- The folders and, beside the folder of each, the cases, in the order of their names. -/
structure Suite where
  folders : List String
  cases : List (String × Case)

namespace Suite

/-- Whether a name ends in a dot and `mir`, with something before them. -/
def isTestName (name : String) : Bool :=
  match name.toList.reverse with
  | 'r' :: 'i' :: 'm' :: '.' :: _ :: _ => true
  | _ => false

def case (f : SourceFile) : Except Breakdown (String × Case) :=
  match Expectation.ofText f.name f.text with
  | .ok e => .ok (f.folder, ⟨f.name, f.text, e⟩)
  | .error fault => .error (.badHeader fault)

/-- The suite of a tree. The root is the folder with the empty path. -/
def ofFiles (folders : List String) (files : List SourceFile) : Except Breakdown Suite := do
  if "" ∉ folders then .error .noRoot
  else
    let cases ← (files.filter (isTestName ·.name)).mapM case
    return ⟨folders, cases.mergeSort fun a b => a.2.name ≤ b.2.name⟩

/-- The cases of a folder, if it exists. -/
def casesIn (s : Suite) (folder : String) : Except Breakdown (List Case) :=
  if folder ∈ s.folders then .ok ((s.cases.filter (·.1 = folder)).map (·.2))
  else .error (.noFolder folder)

end Suite

end BlockIR.FileTest
