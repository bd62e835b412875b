import BlockIR.Machine.Run
import BlockIR.Printer

/-!
# Start points

Every function with a start-point attribute is called without arguments, once for each such attribute,
and the text of the value it returns is held against the one the attribute expects.
-/

namespace BlockIR

inductive Verdict
  | passed
  | mismatch (actual expected : String)
  | noExpectation (actual : String)
  | errored (fault : Fault)
deriving DecidableEq

namespace Verdict

def isFailure : Verdict → Bool
  | mismatch _ _ | errored _ => true
  | passed | noExpectation _ => false

/-- The verdict on a returned value. -/
def ofValue (v : Value) : Option String → Verdict
  | some expected => if expected = v.text then passed else mismatch v.text expected
  | none => noExpectation v.text

def text : Verdict → String
  | passed => "Test passed!\n"
  | mismatch actual expected => "Actual value:\t" ++ actual ++ "\nExpected value:\t" ++ expected ++ "\n"
  | noExpectation actual => "=> " ++ actual ++ "\n"
  | errored fault => "error: " ++ fault.message ++ "\n"

end Verdict

structure StartPoint where
  name : String
  verdict : Verdict
deriving DecidableEq

namespace StartPoint

def text (p : StartPoint) : String := "Interpreting: " ++ p.name ++ "\n" ++ p.verdict.text ++ "\n"

/-- Runs a start point on a new machine; gives its events too if they are asked for. -/
def run (x : Setting) (watch : Bool) (f : FuncId) (name : String) (a : Attribute) :
    StartPoint × List Event :=
  match (if watch then Machine.watched else Machine.fresh).call x f [] with
  | (.ok v, s) => (⟨name, .ofValue v (a.value? Attribute.expected)⟩, .starting name :: s.events)
  | (.error fault, s) =>
    (⟨name, .errored fault⟩, .starting name :: s.events ++ [.failed name fault])

end StartPoint

namespace Module

/-- The start points of a module: a function for each of its start-point attributes. -/
def startPoints (m : Module) : List (FuncId × String × Attribute) :=
  m.functions.entries.flatMap fun (f, function) =>
    (function.attrs.filter (·.name = Attribute.startPoint)).map fun a => (f, function.name, a)

/-- Runs the start points in order, each with its events. -/
def runStartPoints (m : Module) (c : Config) (watch : Bool) : List (StartPoint × List Event) :=
  m.startPoints.map fun (f, name, a) => StartPoint.run ⟨m, c⟩ watch f name a

/-- The verdicts on the start points. -/
def report (m : Module) (c : Config) : List StartPoint := (m.runStartPoints c false).map (·.1)

end Module

namespace StartPoint

/-- How many start points failed. -/
def failures (report : List StartPoint) : Nat := report.countP (·.verdict.isFailure)

def succeeds (report : List StartPoint) : Bool := failures report = 0

/-- The report as it is printed. -/
def reportText (report : List StartPoint) : String := String.join (report.map text)

end StartPoint

end BlockIR
