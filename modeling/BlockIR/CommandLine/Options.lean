import BlockIR.CommandLine.Item
import BlockIR.Machine.Basic
import BlockIR.Text.Numeral

/-!
# Options of the tools

Every tool takes an output file, a switch for verbose output and input files. The interpreter has
options for its limits besides, and the file test runner for its workers and its groups.
-/

namespace BlockIR.CommandLine

/-- Why a command line gives no options: it asks for help or for the version, or it makes no sense. -/
inductive Refusal
  | help
  | usage
deriving DecidableEq

structure BaseOptions where
  output : Option String
  verbose : Bool
  inputs : List String
deriving DecidableEq

structure InterpreterOptions where
  config : Config
  /-- Whether every step is logged. -/
  trace : Bool
  /-- Whether modules are printed and not run. -/
  print : Bool
deriving DecidableEq

structure SessionOptions where
  group : Option String
  jobs : Option Nat
deriving DecidableEq

namespace OptionSpec

def output : OptionSpec := ⟨some 'o', "output", true⟩
def verbose : OptionSpec := ⟨some 'v', "verbose", false⟩
def help : OptionSpec := ⟨some 'h', "help", false⟩
def version : OptionSpec := ⟨some 'V', "version", false⟩
def maxDepth : OptionSpec := ⟨none, "max-depth", true⟩
def stepLimit : OptionSpec := ⟨none, "step-limit", true⟩
def trace : OptionSpec := ⟨none, "trace", false⟩
def print : OptionSpec := ⟨none, "print", false⟩
def jobs : OptionSpec := ⟨some 'j', "jobs", true⟩
def group : OptionSpec := ⟨none, "subtest", true⟩

/-- The options of every tool. -/
def base : List OptionSpec := [output, verbose, help, version]

end OptionSpec

/-- An unsigned number of 64 bits, which may have a plus sign. -/
def number? (text : String) : Option Nat :=
  match text.toList with
  | '+' :: cs => Numeral.below? UInt64.size 10 cs
  | cs => Numeral.below? UInt64.size 10 cs

namespace Taking

def base : Taking BaseOptions := do
  return ⟨← value .output, ← flag .verbose, ← words⟩

/-- The number that an option has as its value, if it is given. -/
def number (spec : OptionSpec) : Taking (Option Nat) := do
  match ← value spec with
  | none => return none
  | some text => some <$> StateT.lift (number? text)

/-- No frame fits in a depth of zero, so it is refused. -/
def interpreter : Taking InterpreterOptions := do
  let maxDepth := (← number .maxDepth).getD Config.defaultMaxDepth
  if maxDepth = 0 then failure
  else return ⟨⟨maxDepth, ← number .stepLimit⟩, ← flag .trace, ← flag .print⟩

def jobs : Taking (Option Nat) := number .jobs

def session : Taking SessionOptions := do return ⟨← value .group, ← jobs⟩

end Taking

/-- The options of a tool: its own, and those of every tool. No item may be left over. -/
def optionsOf {α : Type} (specs : List OptionSpec) (own : Taking α) (words : List String) :
    Except Refusal (α × BaseOptions) :=
  let items := Item.ofWords (OptionSpec.base ++ specs) words
  match (do return (← own, ← Taking.base)).run items with
  | some (options, items') => if items'.all Item.isSettled then .ok options else .error (refusal items')
  | none => .error (refusal items)
where
  refusal (items : List Item) : Refusal :=
    if items.any fun i => i.names .help || i.names .version then .help else .usage

def baseOptions (words : List String) : Except Refusal BaseOptions :=
  (optionsOf [] (pure ()) words).map (·.2)

def interpreterOptions (words : List String) : Except Refusal (InterpreterOptions × BaseOptions) :=
  optionsOf [.maxDepth, .stepLimit, .trace, .print] .interpreter words

def jobsOptions (words : List String) : Except Refusal (Option Nat × BaseOptions) :=
  optionsOf [.jobs] .jobs words

def sessionOptions (words : List String) : Except Refusal (SessionOptions × BaseOptions) :=
  optionsOf [.jobs, .group] .session words

end BlockIR.CommandLine
