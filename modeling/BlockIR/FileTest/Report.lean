import BlockIR.FileTest.Expectation
import BlockIR.Text.LineDiff
import BlockIR.Text.Styled

/-!
# The report of a file test run

A line for each group of tests, a line for each file and a line for the whole run; after them, what is
wrong with each file that failed.
-/

namespace BlockIR.FileTest

/-- All that belongs to a file stands this far to the right. -/
def indent : String := "        "

/-- Text of which the lines after the first are indented. -/
def indented (text : String) : String :=
  String.ofList (text.toList.flatMap fun c => if c = '\n' then '\n' :: indent.toList else [c])

/-- Text that is filled up with blanks on its left. -/
def padLeft (width : Nat) (text : String) : String :=
  String.ofList (List.replicate (width - text.length) ' ') ++ text

/-- A time in nanoseconds, in seconds with four places. -/
def secondsText (nanoseconds : Nat) : String :=
  let ticks := (nanoseconds + 50000) / 100000
  let places := toString (10000 + ticks % 10000)
  padLeft 9 (toString (ticks / 10000) ++ "." ++ places.drop 1) ++ "s"

def groupLine (group : String) (files : Nat) : String :=
  "     " ++ Colour.green.bold "Running" ++ " subtest '" ++ Colour.white.bold group ++ "' (" ++
    toString files ++ " files)\n"

/-- How a file is called in the report. -/
def fileLabel (group file : String) : String := Colour.cyan.paint group ++ "/" ++ Colour.blue.paint file

def fileLine (passed : Bool) (time label : String) : String :=
  indent ++ (if passed then Colour.green.bold "pass" else Colour.red.bold "FAIL") ++ " [ " ++ time ++
    " ] " ++ label ++ "\n"

def summaryLine (total failed : Nat) (time : String) : String :=
  let colour := if failed = 0 then Colour.green else Colour.red
  "     " ++ colour.bold "Finished" ++ " [ " ++ time ++ " ] " ++ Colour.blue.paint (toString total) ++
    " files, " ++ Colour.green.paint (toString (total - failed)) ++ " passed, " ++
    colour.paint (toString failed) ++ " failed\n"

def changeText : Text.Change → String
  | .removed line => Colour.red.paint ("- " ++ line)
  | .added line => Colour.green.paint ("+ " ++ line)
  | .kept line => "  " ++ line

/-- The numbered changes that turn the output into what is expected. -/
def diffText (expected got : String) : String :=
  let line (x : Text.Change × Nat) :=
    indent ++ padLeft 4 (toString (x.2 + 1)) ++ " | " ++ changeText x.1 ++ "\n"
  Colour.red.paint "- output" ++ " " ++ Colour.green.paint "+ expected" ++ "\n" ++
    String.join ((Text.LineDiff.changes got expected).zipIdx.map line)

namespace Failure

def text : Failure → String
  | differs expected got => diffText expected got
  | unmatched check output =>
    Colour.red.bold "no output line matched CHECK:" ++ "\n" ++ indent ++ check ++ "\n\n" ++ indent ++
      Colour.yellow.paint "full output:" ++ "\n" ++ indent ++ indented output
  | refused message =>
    Colour.red.bold "file failed to read:" ++ "\n" ++ indent ++ indented message
  | accepted =>
    Colour.red.bold "expected the file to be rejected, but it was read successfully"

/-- What is said of a file that failed. -/
def details (label : String) (f : Failure) : String :=
  "\n" ++ indent ++ String.join (List.replicate 20 "- ") ++ "\n" ++
    Colour.red.bold ("failure in '" ++ label ++ "':") ++ " " ++ f.text ++ "\n"

end Failure

end BlockIR.FileTest
