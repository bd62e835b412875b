import BlockIR.Body
import BlockIR.NameTable

/-!
# Modules

A module is a table of functions and a table of names. Only the name table answers a search by name, so
the two may disagree in a module that was not built by declaring its functions one by one.
-/

namespace BlockIR

/-- An attribute of a function: a name and named arguments. -/
structure Attribute where
  name : String
  args : List (String × String)
deriving DecidableEq

namespace Attribute

/-- The value of the first argument of a name. -/
def value? (a : Attribute) (key : String) : Option String := a.args.lookup key

/-- Marks the functions that a run begins at. -/
def startPoint : String := "miri_run"

/-- The argument that holds the text of the value a start point should return. -/
def expected : String := "expected"

end Attribute

structure Function where
  name : String
  attrs : List Attribute
  body : Body
deriving DecidableEq

namespace Function

/-- The first attribute of a name. -/
def findAttr? (f : Function) (name : String) : Option Attribute := f.attrs.find? (·.name = name)

def isStartPoint (f : Function) : Bool := (f.findAttr? Attribute.startPoint).isSome

end Function

structure Module where
  name : String
  functions : Arena FuncId Function
  names : NameTable
deriving DecidableEq

namespace Module

def empty (name : String) : Module := ⟨name, .empty, .empty⟩

def get? (m : Module) (f : FuncId) : Option Function := m.functions.get? f

def find? (m : Module) (name : String) : Option FuncId := m.names.find? name

/-- Adds a function without a body; its key is the next one. -/
def declare (m : Module) (name : String) (attrs : List Attribute) : Module :=
  { m with
    functions := m.functions.push ⟨name, attrs, .undefined⟩
    names := m.names.insert name m.functions.nextKey }

/-- Gives a function its body, in place of the one it had. -/
def define (m : Module) (f : FuncId) (body : Body) : Module :=
  { m with functions := m.functions.modify f ({ · with body }) }

/-- What a function is called in text: its name, or its key if there is no such function. -/
def funcName (m : Module) (f : FuncId) : String :=
  match m.get? f with
  | some function => function.name
  | none => f.text

end Module

end BlockIR
