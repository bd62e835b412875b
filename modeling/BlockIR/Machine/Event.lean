import BlockIR.Log
import BlockIR.Machine.Basic
import BlockIR.Printer

/-!
# Events as log records

Frames are logged for debugging and code for tracing. Code appears in its canonical text.
-/

namespace BlockIR

namespace Event

def level : Event → LogLevel
  | starting _ => .info
  | failed _ _ => .warn
  | pushed _ _ _ | popped _ _ => .debug
  | executing _ _ => .trace

def message (m : Module) : Event → String
  | starting _ => "interpreting start point"
  | failed _ _ => "start point failed"
  | pushed _ _ _ => "pushed stack frame"
  | popped _ _ => "popped stack frame"
  | executing _ (.inl a) => a.text m
  | executing _ (.inr t) => t.text m

/-- What the record says beside its message. -/
def details : Event → List (String × String)
  | starting f => [("name", f)]
  | failed f fault => [("name", f), ("error", fault.message)]
  | pushed f depth offset => [("func", f), ("depth", toString depth), ("offset", toString offset)]
  | popped f depth => [("func", f), ("depth", toString depth)]
  | executing b _ => [("block", b.text)]

def toRecord (m : Module) (e : Event) : LogRecord := ⟨e.level, e.message m, e.details⟩

end Event

end BlockIR
