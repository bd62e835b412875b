import BlockIR.CommandLine.Options
import BlockIR.Machine.Event
import BlockIR.Parser.Module
import BlockIR.StartPoint

/-!
# The interpreter tool

Every input file is read and verified, and then printed or run. What comes of all files together is the
output of the tool; a file that cannot be read does not keep the others from being run.
-/

namespace BlockIR.CommandLine

/-- What comes of a file: its part of the output, and what is told to the user. -/
structure Yield where
  output : String
  messages : List String
  success : Bool
deriving DecidableEq

/-- What a tool is to do: to write its output, to a file if one is named, and to tell its messages. -/
structure Effect where
  file : Option String
  output : String
  messages : List String
  success : Bool
deriving DecidableEq

namespace Interpreter

def report (m : Module) (options : InterpreterOptions) (filter : LogFilter) : Yield :=
  let runs := m.runStartPoints options.config (filter.admits .debug)
  let report := runs.map (·.1)
  ⟨StartPoint.reportText report, filter.lines ((runs.flatMap (·.2)).map (Event.toRecord m)),
    StartPoint.succeeds report⟩

/-- Prints or runs a text. A report with failures is no success. -/
def yield (options : InterpreterOptions) (filter : LogFilter) (name source : String) : Yield :=
  match Module.read name source with
  | .error e => ⟨"", [e.render name source], false⟩
  | .ok m => if options.print then ⟨m.text, [], true⟩ else report m options filter

/-- What comes of a file of which the text is given, if it could be read. -/
def yieldOf (options : InterpreterOptions) (filter : LogFilter) : String × Option String → Yield
  | (name, some source) => yield options filter name source
  | (name, none) => ⟨"", filter.lines [⟨.error, "unable to read `" ++ name ++ "`", []⟩], false⟩

/-- What is to be done with the inputs. Without any there is nothing to write. -/
def effect (options : InterpreterOptions) (filter : LogFilter) (file : Option String)
    (inputs : List (String × Option String)) : Effect :=
  if inputs.isEmpty then ⟨none, "", filter.lines [⟨.error, "no input files", []⟩], false⟩
  else
    let yields := inputs.map (yieldOf options filter)
    ⟨file, String.join (yields.map (·.output)), yields.flatMap (·.messages), yields.all (·.success)⟩

end Interpreter

end BlockIR.CommandLine
