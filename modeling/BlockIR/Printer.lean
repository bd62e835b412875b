import BlockIR.Module
import BlockIR.Binary64.Shortest
import BlockIR.Text.Quoted

/-!
# The canonical text of a module

Each function is printed with its attributes, its declarations and its blocks, which are called `bb0`,
`bb1` and so on. One empty line stands between functions and between blocks.
-/

namespace BlockIR

namespace Place

def text : Place → String
  | result => "return"
  | arg i => "arg" ++ toString i.toNat
  | var i => "var" ++ toString i.toNat
  | temp i => "tmp" ++ toString i.toNat

end Place

namespace Constant

def text : Constant → String
  | int n => toString n.toInt
  | uint n => toString n.toNat ++ "u"
  | float x => x.toText
  | str s => Quoted.quote s
  | bool b => if b then "true" else "false"

end Constant

def Operand.text (m : Module) : Operand → String
  | .read p => p.text
  | .const c => "const " ++ c.text
  | .func f => "const " ++ m.funcName f

/-- The items with commas between them. -/
def commaSeparated (items : List String) : String := String.intercalate ", " items

def Rvalue.text (m : Module) : Rvalue → String
  | .use x => x.text m
  | .binary op x y => op.name ++ "(" ++ x.text m ++ ", " ++ y.text m ++ ")"
  | .unary op x => op.name ++ "(" ++ x.text m ++ ")"

def Action.text (m : Module) : Action → String
  | .assign p r => p.text ++ " = " ++ r.text m
  | .drop .free p => "drop(" ++ p.text ++ ")"
  | .drop .deep p => "drop_deep(" ++ p.text ++ ")"

/-- A case of a switch for each target, and then the target for all other values if there is one. -/
def switchCases (cases : List Constant) (targets : List BlockId) : List String :=
  (cases.zip targets).map (fun (c, b) => c.text ++ ": " ++ b.text) ++
    (targets[cases.length]?.map fun b => "otherwise: " ++ b.text).toList

/-- The callee of a call, where a function goes by its bare name. -/
def Operand.calleeText (m : Module) : Operand → String
  | .func f => m.funcName f
  | x => x.text m

def Transfer.text (m : Module) : Transfer → String
  | .ret => "return"
  | .goto b => "goto -> " ++ b.text
  | .branch c t e => "if(" ++ c.text m ++ ") -> [true: " ++ t.text ++ ", false: " ++ e.text ++ "]"
  | .switch p cases targets =>
    "switchInt(" ++ p.text ++ ") -> [" ++ commaSeparated (switchCases cases targets) ++ "]"
  | .call p f xs b =>
    p.text ++ " = call " ++ f.calleeText m ++ "(" ++ commaSeparated (xs.map (Operand.text m)) ++ ") -> " ++
      b.text
  | .diverge => "diverge"
  | .panic b => "panic -> " ++ b.text

def Attribute.text (a : Attribute) : String :=
  let args := a.args.map fun (key, value) => key ++ " = " ++ Quoted.quote value
  "#[" ++ a.name ++ (if args.isEmpty then "" else "(" ++ commaSeparated args ++ ")") ++ "]\n"

/-- A block under its name. -/
def Block.text (m : Module) (name : BlockId) (b : Block) : String :=
  "    " ++ name.text ++ ": \x7b\n" ++
    String.join (b.statements.map fun s => "        " ++ s.action.text m ++ ";\n") ++
    "        " ++ b.terminator.transfer.text m ++ ";\n    \x7d\n"

/-- The declarations of the locals, with an empty line after them if there are any. -/
def Body.declarations (b : Body) : String :=
  String.join ((List.range b.vars.toNat).map fun i => "    let var" ++ toString i ++ ";\n") ++
    String.join ((List.range b.temps.toNat).map fun i => "    let tmp" ++ toString i ++ ";\n") ++
    (if b.vars = 0 ∧ b.temps = 0 then "" else "\n")

def Function.text (m : Module) (f : Function) : String :=
  let params := (List.range f.body.args.toNat).map fun i => "arg" ++ toString i
  String.join (f.attrs.map Attribute.text) ++
    "fn " ++ f.name ++ "(" ++ commaSeparated params ++ ") \x7b\n" ++ f.body.declarations ++
    String.intercalate "\n" (f.body.blocks.entries.map fun (name, b) => b.text m name) ++ "\x7d\n"

/-- A range of the bytes of a text. -/
structure ByteRange where
  start : String.Pos.Raw
  stop : String.Pos.Raw
deriving DecidableEq

namespace ByteRange

/-- The range begins and ends between characters of the text. -/
def Fits (text : String) (r : ByteRange) : Prop := r.start.IsValid text ∧ r.stop.IsValid text ∧ r.start ≤ r.stop

instance (text : String) (r : ByteRange) : Decidable (r.Fits text) := inferInstanceAs (Decidable (_ ∧ _ ∧ _))

/-- The text in a range. Of a range that does not fit nothing can be taken. -/
def slice? (text : String) (r : ByteRange) : Option String :=
  if h : r.Fits text then some (String.extract (text.pos r.start h.1) (text.pos r.stop h.2.1)) else none

end ByteRange

/-- The text of a module, and where in it each function stands. -/
structure Listing where
  text : String
  spans : Arena FuncId ByteRange

namespace Listing

def empty : Listing := ⟨"", .empty⟩

/-- Adds a function, an empty line after the one before it. -/
def add (m : Module) (l : Listing) (f : Function) : Listing :=
  let before := if l.spans.isEmpty then l.text else l.text ++ "\n"
  let text := before ++ f.text m
  ⟨text, l.spans.push ⟨before.rawEndPos, text.rawEndPos⟩⟩

/-- The text of one function. -/
def function? (l : Listing) (f : FuncId) : Option String :=
  (l.spans.get? f).bind (·.slice? l.text)

end Listing

namespace Module

def listing (m : Module) : Listing := m.functions.toList.foldl (Listing.add m) .empty

/-- The canonical text of a module. -/
def text (m : Module) : String := m.listing.text

end Module

end BlockIR
