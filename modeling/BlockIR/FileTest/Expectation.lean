import BlockIR.Text.Lines

/-!
# Expectations of file tests

The first line of a test file says what is expected of the rest: all of the output, a part of it, some
of its lines in order, or that the file is refused.
-/

namespace BlockIR.FileTest

/-- What becomes of a file. -/
inductive Product
  | output (text : String)
  | refused (message : String)
deriving DecidableEq

inductive Expectation
  | whole (text : String)
  | excerpt (text : String)
  | lines (checks : List String)
  /-- The file is refused, with a message that contains a text. -/
  | refusal (part : String)
deriving DecidableEq

/-- How a product falls short of what is expected. -/
inductive Failure
  | differs (expected got : String)
  | unmatched (check output : String)
  | refused (message : String)
  | accepted
deriving DecidableEq

/-- Why no expectation can be read from a file. -/
inductive HeaderFault
  | noHeader (file firstLine : String)
  | noSection (file : String)
deriving DecidableEq

def HeaderFault.message : HeaderFault → String
  | noHeader file firstLine =>
    "test '" ++ file ++ "' did not provide `// <TYPE>` header for `filetest`. got: '" ++ firstLine ++ "'"
  | noSection file =>
    "assertion `left == right` failed: test '" ++ file ++
      "' has a `// MATCH-SECTION` header without an opening `//`"

namespace Expectation

/-- The first line and what follows its line feed, if there is one. -/
def splitFirst? (cs : List Char) : Option (List Char × List Char) :=
  match cs.dropWhile (· ≠ '\n') with
  | [] => none
  | _ :: rest => some (cs.takeWhile (· ≠ '\n'), rest)

/-- The text that a line of a section stands for. An empty line is written as two slashes. -/
def sectionLine (line : List Char) : List Char :=
  if line = "//".toList then [] else (Text.after? "// ".toList line).getD line

/-- The text of the section that these lines begin with: two slashes, its lines, and three slashes. -/
def section? (rest : List Char) : Option (List Char) :=
  match (Text.lineChars rest).map Text.trimRight with
  | [] => none
  | opening :: ls =>
    if opening = "//".toList then
      some ((ls.takeWhile (· ≠ "///".toList)).flatMap fun l => sectionLine l ++ ['\n'])
    else none

/-- The texts of the check comments, each on a line of its own. -/
def checks (rest : List Char) : List String :=
  ((Text.lineChars rest).filterMap fun l =>
    Text.after? "// CHECK: ".toList (Text.trimLeft l)).map fun l => String.ofList (Text.trimRight l)

/-- What a file expects. A file of one line expects nothing. -/
def ofText (file text : String) : Except HeaderFault Expectation :=
  match splitFirst? text.toList with
  | none => .ok (.lines [])
  | some (first, rest) =>
    if "// MATCH-ENTIRE".toList.isPrefixOf first then .ok (.whole (String.ofList rest))
    else if "// MATCH-SECTION".toList.isPrefixOf first then
      match section? rest with
      | some text => .ok (.excerpt (String.ofList text))
      | none => .error (.noSection file)
    else
      match Text.after? "// COMPILE-ERROR: ".toList first with
      | some message => .ok (.refusal (String.ofList (Text.trimRight message)))
      | none =>
        if "// STANDARD".toList.isPrefixOf first then .ok (.lines (checks rest))
        else .error (.noHeader file (String.ofList first))

/-- The first check that has no line of its own after those of the checks before it. -/
def firstUnmatched? : (checks lines : List String) → Option String
  | [], _ => none
  | c :: _, [] => some c
  | c :: cs, l :: ls => if l = c then firstUnmatched? cs ls else firstUnmatched? (c :: cs) ls

def contains (text part : String) : Bool := Text.occursIn part.toList text.toList

/-- How a product fails an expectation, unless it meets it. -/
def failure? : Expectation → Product → Option Failure
  | .refusal part, .refused message => if contains message part then none else some (.refused message)
  | .refusal _, .output _ => some .accepted
  | _, .refused message => some (.refused message)
  | .whole expected, .output got => if got = expected then none else some (.differs expected got)
  | .excerpt expected, .output got => if contains got expected then none else some (.differs expected got)
  | .lines checks, .output got => (firstUnmatched? checks (Text.lines got)).map (.unmatched · got)

end Expectation

end BlockIR.FileTest
