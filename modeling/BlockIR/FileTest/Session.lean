import BlockIR.FileTest.Report
import BlockIR.FileTest.Suite
import BlockIR.Parser.Module
import BlockIR.StartPoint

/-!
# Sessions of file tests

There are two groups of tests. One holds files against their canonical text, the other against the report
on their start points. A session runs one group or both and prints as it goes.
-/

namespace BlockIR.FileTest

inductive Group
  | parse | run
deriving DecidableEq

namespace Group

def all : List Group := [parse, run]

/-- The folder of the group. -/
def name : Group → String
  | parse => "parse"
  | run => "run"

def ofName? (name : String) : Option Group := all.find? (·.name = name)

/-- A start point that takes more steps than this fails. -/
def stepLimit : Nat := 1000000

/-- What the group makes of a file. -/
def product (g : Group) (file text : String) : Product :=
  match Module.read file text with
  | .error e => .refused (e.render file text)
  | .ok m =>
    match g with
    | parse => .output m.text
    | run => .output (StartPoint.reportText (m.report { Config.default with stepLimit := some stepLimit }))

def failure? (g : Group) (c : Case) : Option Failure := c.expectation.failure? (g.product c.name c.text)

end Group

/-- Where a session prints, and the clock it reads. -/
structure Console (m : Type → Type) where
  print : String → m Unit
  /-- Runs a test and takes its time in nanoseconds. -/
  timed : (Unit → Option Failure) → m (Option Failure × Nat)
  timeText : Nat → String

/-- What a session has done so far; the failures come with the labels of their files. -/
structure Tally where
  total : Nat
  elapsed : Nat
  failures : List (String × Failure)

namespace Tally

def start : Tally := ⟨0, 0, []⟩

/-- Counts one more file. -/
def add (t : Tally) (label : String) (elapsed : Nat) (failure : Option Failure) : Tally :=
  ⟨t.total + 1, t.elapsed + elapsed, t.failures ++ (failure.map (label, ·)).toList⟩

end Tally

/-- How a session ends. -/
inductive Ending
  | passed
  | failed
  | unknownGroup (name : String)
  | broken (breakdown : Breakdown)

namespace Ending

def exitCode : Ending → UInt32
  | passed => 0
  | failed | unknownGroup _ => 1
  | broken _ => 101

end Ending

namespace Session

variable {m : Type → Type} [Monad m]

def runCase (c : Console m) (g : Group) (t : Tally) (case : Case) : m Tally := do
  let (failure, elapsed) ← c.timed fun _ => g.failure? case
  let label := fileLabel g.name case.name
  c.print (fileLine failure.isNone (c.timeText elapsed) label)
  return t.add label elapsed failure

/-- Runs the groups in order, or stops at the first one without a folder. -/
def runGroups (c : Console m) (suite : Suite) : List Group → Tally → m (Except Breakdown Tally)
  | [], t => return .ok t
  | g :: gs, t => do
    match suite.casesIn g.name with
    | .error b => return .error b
    | .ok cases =>
      c.print (groupLine g.name cases.length)
      runGroups c suite gs (← cases.foldlM (runCase c g) t)

def finish (c : Console m) (t : Tally) : m Ending := do
  c.print (summaryLine t.total t.failures.length (c.timeText t.elapsed))
  t.failures.forM fun (label, failure) => c.print (failure.details label)
  return if t.failures.isEmpty then .passed else .failed

/-- Runs groups of a suite. There have to be workers to run them. -/
def runAll (c : Console m) (jobs : Option Nat) (suite : Except Breakdown Suite) (groups : List Group) :
    m Ending := do
  if jobs = some 0 then return .broken .noWorkers
  else
    match suite with
    | .error b => return .broken b
    | .ok suite =>
      match ← runGroups c suite groups .start with
      | .error b => return .broken b
      | .ok t => finish c t

/-- Runs the group of a name, or all of them. -/
def run (c : Console m) (jobs : Option Nat) (group : Option String) (suite : Except Breakdown Suite) :
    m Ending :=
  match group with
  | none => runAll c jobs suite Group.all
  | some name =>
    match Group.ofName? name with
    | some g => runAll c jobs suite [g]
    | none => return .unknownGroup name

end Session

end BlockIR.FileTest
