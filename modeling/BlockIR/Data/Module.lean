import BlockIR.Data
import BlockIR.Module

/-!
# The interchange form of modules

A variant is its name, or a record of one field with that name; a structure is a record. Reading what
was written gives the module back, unless it holds an infinite constant.
-/

namespace BlockIR

instance : Coded FuncId where
  encode f := encode f.index
  decode? d := (decode? d).map FuncId.mk

instance : Coded BlockId where
  encode b := encode b.index
  decode? d := (decode? d).map BlockId.mk

instance {κ α : Type} [Coded α] : Coded (Arena κ α) where
  encode a := .record [("slots", encode a.toList), ("_unused", .null)]
  decode? d :=
    match d.fields? ["slots", "_unused"] with
    | some [slots, .null] => (decode? slots).map Arena.ofList
    | _ => none

instance : Coded Place where
  encode
    | .result => .str "ReturnPointer"
    | .arg i => .variant "Arg" (encode i)
    | .var i => .variant "Var" (encode i)
    | .temp i => .variant "Temp" (encode i)
  decode? d :=
    match d.variant? with
    | some ("ReturnPointer", payload) => if Data.isNoPayload payload then some .result else none
    | some ("Arg", some i) => (decode? i).map .arg
    | some ("Var", some i) => (decode? i).map .var
    | some ("Temp", some i) => (decode? i).map .temp
    | _ => none

instance : Coded Constant where
  encode
    | .int n => .variant "Int" (encode n)
    | .uint n => .variant "Uint" (encode n)
    | .float x => .variant "Float" (encode x)
    | .str s => .variant "Str" (encode s)
    | .bool b => .variant "Bool" (encode b)
  decode? d :=
    match d.variant? with
    | some ("Int", some n) => (decode? n).map .int
    | some ("Uint", some n) => (decode? n).map .uint
    | some ("Float", some x) => (decode? x).map .float
    | some ("Str", some s) => (decode? s).map .str
    | some ("Bool", some b) => (decode? b).map .bool
    | _ => none

instance : Coded Operand where
  encode
    | .read p => .variant "Consume" (encode p)
    | .const c => .variant "Constant" (.variant "Value" (encode c))
    | .func f => .variant "Constant" (.variant "Item" (encode f))
  decode? d :=
    match d.variant? with
    | some ("Consume", some p) => (decode? p).map .read
    | some ("Constant", some literal) =>
      match literal.variant? with
      | some ("Value", some c) => (decode? c).map .const
      | some ("Item", some f) => (decode? f).map .func
      | _ => none
    | _ => none

instance : Coded BinOp where
  encode op := .str op.name
  decode? d :=
    match d.variant? with
    | some (name, payload) =>
      if Data.isNoPayload payload then BinOp.all.find? (·.name = name) else none
    | none => none

instance : Coded UnOp where
  encode op := .str op.name
  decode? d :=
    match d.variant? with
    | some (name, payload) =>
      if Data.isNoPayload payload then UnOp.all.find? (·.name = name) else none
    | none => none

instance : Coded Rvalue where
  encode
    | .use x => .variant "Use" (encode x)
    | .binary op x y => .variant "BinaryOp" (.list [encode op, encode x, encode y])
    | .unary op x => .variant "UnaryOp" (.list [encode op, encode x])
  decode? d :=
    match d.variant? with
    | some ("Use", some x) => (decode? x).map .use
    | some ("BinaryOp", some items) =>
      match items.tuple? 3 with
      | some [op, x, y] => return .binary (← decode? op) (← decode? x) (← decode? y)
      | _ => none
    | some ("UnaryOp", some items) =>
      match items.tuple? 2 with
      | some [op, x] => return .unary (← decode? op) (← decode? x)
      | _ => none
    | _ => none

instance : Coded Pos where
  encode p := .record [("line", encode p.line), ("col", encode p.col)]
  decode? d :=
    match d.fields? ["line", "col"] with
    | some [line, col] => return ⟨← decode? line, ← decode? col⟩
    | _ => none

instance : Coded DropKind where
  encode
    | .free => .str "Free"
    | .deep => .str "Deep"
  decode? d :=
    match d.variant? with
    | some ("Free", payload) => if Data.isNoPayload payload then some .free else none
    | some ("Deep", payload) => if Data.isNoPayload payload then some .deep else none
    | _ => none

instance : Coded Action where
  encode
    | .assign p r => .variant "Assign" (.list [encode p, encode r])
    | .drop k p => .variant "Drop" (.list [encode k, encode p])
  decode? d :=
    match d.variant? with
    | some ("Assign", some items) =>
      match items.tuple? 2 with
      | some [p, r] => return .assign (← decode? p) (← decode? r)
      | _ => none
    | some ("Drop", some items) =>
      match items.tuple? 2 with
      | some [k, p] => return .drop (← decode? k) (← decode? p)
      | _ => none
    | _ => none

instance : Coded Statement where
  encode s := .record [("kind", encode s.action), ("debug", encode s.pos)]
  decode? d :=
    match d.fields? ["kind", "debug"] with
    | some [kind, debug] => return ⟨← decode? kind, ← decode? debug⟩
    | _ => none

instance : Coded Transfer where
  encode
    | .ret => .str "Return"
    | .goto b => .variant "Goto" (.record [("target", encode b)])
    | .branch c t e => .variant "If" (.record [("cond", encode c), ("targets", encode [t, e])])
    | .switch p vs ts =>
      .variant "SwitchInt" (.record [("discr", encode p), ("values", encode vs), ("targets", encode ts)])
    | .call p f xs b =>
      .variant "Call" (.record
        [("destination", encode p), ("func", encode f), ("args", encode xs), ("target", encode b)])
    | .diverge => .str "Diverge"
    | .panic b => .variant "Panic" (.record [("target", encode b)])
  decode? d :=
    match d.variant? with
    | some ("Return", payload) => if Data.isNoPayload payload then some .ret else none
    | some ("Diverge", payload) => if Data.isNoPayload payload then some .diverge else none
    | some ("Goto", some x) =>
      match x.named? ["target"] with
      | some [b] => (decode? b).map .goto
      | _ => none
    | some ("If", some x) =>
      match x.named? ["cond", "targets"] with
      | some [c, ts] =>
        match ts.tuple? 2 with
        | some [t, e] => return .branch (← decode? c) (← decode? t) (← decode? e)
        | _ => none
      | _ => none
    | some ("SwitchInt", some x) =>
      match x.named? ["discr", "values", "targets"] with
      | some [p, vs, ts] => return .switch (← decode? p) (← decode? vs) (← decode? ts)
      | _ => none
    | some ("Call", some x) =>
      match x.named? ["destination", "func", "args", "target"] with
      | some [p, f, xs, b] => return .call (← decode? p) (← decode? f) (← decode? xs) (← decode? b)
      | _ => none
    | some ("Panic", some x) =>
      match x.named? ["target"] with
      | some [b] => (decode? b).map .panic
      | _ => none
    | _ => none

instance : Coded Terminator where
  encode t := .record [("kind", encode t.transfer), ("debug", encode t.pos)]
  decode? d :=
    match d.fields? ["kind", "debug"] with
    | some [kind, debug] => return ⟨← decode? kind, ← decode? debug⟩
    | _ => none

instance : Coded Block where
  encode b := .record [("statements", encode b.statements), ("terminator", encode b.terminator)]
  decode? d :=
    match d.fields? ["statements", "terminator"] with
    | some [statements, terminator] => return ⟨← decode? statements, ← decode? terminator⟩
    | _ => none

instance : Coded Body where
  encode b := .record
    [("num_args", encode b.args), ("num_vars", encode b.vars), ("num_temps", encode b.temps),
      ("blocks", encode b.blocks)]
  decode? d :=
    match d.fields? ["num_args", "num_vars", "num_temps", "blocks"] with
    | some [args, vars, temps, blocks] =>
      return ⟨← decode? args, ← decode? vars, ← decode? temps, ← decode? blocks⟩
    | _ => none

instance : Coded Attribute where
  encode a := .record [("name", encode a.name), ("args", encode a.args)]
  decode? d :=
    match d.fields? ["name", "args"] with
    | some [name, args] => return ⟨← decode? name, ← decode? args⟩
    | _ => none

instance : Coded Function where
  encode f := .record [("name", encode f.name), ("attrs", encode f.attrs), ("body", encode f.body)]
  decode? d :=
    match d.fields? ["name", "attrs", "body"] with
    | some [name, attrs, body] => return ⟨← decode? name, ← decode? attrs, ← decode? body⟩
    | _ => none

instance : Coded NameTable where
  encode t := .record (t.entries.map fun e => (e.1, encode e.2))
  decode?
    | .record fields => (fields.mapM fun e => (decode? e.2).map (e.1, ·)).map NameTable.ofList
    | _ => none

instance : Coded Module where
  encode m := .record
    [("name", encode m.name), ("functions", encode m.functions), ("names", encode m.names)]
  decode? d :=
    match d.fields? ["name", "functions", "names"] with
    | some [name, functions, names] => return ⟨← decode? name, ← decode? functions, ← decode? names⟩
    | _ => none

/-- Whether the interchange form of a module reads back as the same module. -/
def Module.survivesEncoding (m : Module) : Bool := decode? (encode m) = some m

end BlockIR
