/-!
# Log records

A record has a level, which says how important it is, and a message with named details. A filter says
which levels are wanted.
-/

namespace BlockIR

inductive LogLevel
  | trace | debug | info | warn | error
deriving DecidableEq

namespace LogLevel

def all : List LogLevel := [error, warn, info, debug, trace]

def name : LogLevel → String
  | trace => "TRACE"
  | debug => "DEBUG"
  | info => "INFO"
  | warn => "WARN"
  | error => "ERROR"

/-- The more a level shows, the higher it ranks. -/
def rank : LogLevel → Nat
  | error => 1
  | warn => 2
  | info => 3
  | debug => 4
  | trace => 5

end LogLevel

structure LogRecord where
  level : LogLevel
  message : String
  details : List (String × String)
deriving DecidableEq

namespace LogRecord

def fields (r : LogRecord) : List (String × String) := ("message", r.message) :: r.details

/-- The record on one line. -/
def line (r : LogRecord) : String :=
  r.level.name ++ " " ++ r.message ++ String.join (r.details.map fun (k, v) => " " ++ k ++ "=" ++ v)

end LogRecord

/-- Which records are wanted: none, or those of some level and above. -/
abbrev LogFilter := Option LogLevel

namespace LogFilter

def text : LogFilter → String
  | none => "off"
  | some level => level.name.toLower

def admits (f : LogFilter) (level : LogLevel) : Bool :=
  match f with
  | none => false
  | some least => level.rank ≤ least.rank

/-- The lines of the records that are wanted. -/
def lines (f : LogFilter) (records : List LogRecord) : List String :=
  (records.filter (f.admits ·.level)).map LogRecord.line

/-- A level goes by its name, in letters of either case, or by its rank. -/
def ofName? (name : String) : Option LogFilter :=
  if name.toLower = "off" ∨ name = "0" then some none
  else
    (LogLevel.all.find? fun l => name.toLower = l.name.toLower ∨ name = toString l.rank).map some

/-- The filter of a tool: traces if they are asked for, debugging output if the tool is to be verbose,
and else what the environment says. Warnings are shown if it says nothing that makes sense, errors if it
says nothing at all. -/
def choose (verbose trace : Bool) (environment : Option String) : LogFilter :=
  if trace then some .trace
  else if verbose then some .debug
  else
    match environment with
    | none => some .warn
    | some "" => some .error
    | some name => (ofName? name).getD (some .warn)

end LogFilter

end BlockIR
