import BlockIR.Machine.Run
import Mathlib.Tactic.Common

/-!
# Activations

The meaning of a module without a machine. An activation of a function has a map of its own from the
places that the body declares to values. A call runs the whole activation of the callee, and only then
goes on with the map of the caller. There are no limits here; a result comes with the number of steps that
it takes and the number of activations that exist at once.
-/

namespace BlockIR

/-- A value for each place that a body declares. -/
def Locals (b : Body) : Type := {p : Place // b.declares p} → Value

namespace Locals

variable {b : Body}

/-- The arguments are bound; nothing else has been written to. -/
def initial (b : Body) (args : List Value) : Locals b := fun p =>
  match p.val with
  | .arg i => args.getD i.toNat .uninit
  | _ => .uninit

def require (_ : Locals b) (p : Place) : Except Fault Unit :=
  if b.declares p then .ok () else .error (.undeclaredLocal p)

def read (l : Locals b) (p : Place) : Except Fault Value :=
  if h : b.declares p then .ok (l ⟨p, h⟩) else .error (.undeclaredLocal p)

/-- The map after an assignment to a place. -/
def set (l : Locals b) (p : Place) (v : Value) : Locals b := fun q => if q.val = p then v else l q

def operand (l : Locals b) : Operand → Except Fault Value
  | .read p => l.read p
  | .const c => c.value
  | .func f => .ok (.func f)

def rvalue (l : Locals b) : Rvalue → Except Fault Value
  | .use x => l.operand x
  | .binary op x y => do op.eval (← l.operand x) (← l.operand y)
  | .unary op x => do op.eval (← l.operand x)

/-- The map after a statement. -/
def act (l : Locals b) : Action → Except Fault (Locals b)
  | .assign p r => do
    l.require p
    return l.set p (← l.rvalue r)
  | .drop _ p => do
    l.require p
    return l

def branch (l : Locals b) (c : Operand) (onTrue onFalse : BlockId) : Except Fault BlockId := do
  match ← l.operand c with
  | .bool true => return onTrue
  | .bool false => return onFalse
  | v => .error (.nonBooleanCondition v)

/-- The target in front, if there is one for this value. -/
def front (v : Value) : List BlockId → Except Fault BlockId
  | [] => .error (.noMatchingCase v)
  | target :: _ => .ok target

/-- The target of the first case that is equal to a value, or the target after those of all cases. The
cases after the first equal one are not evaluated. -/
def select (v : Value) : List Constant → List BlockId → Except Fault BlockId
  | [], targets => front v targets
  | c :: cases, targets => do
    if (← c.value) = v then front v targets else select v cases targets.tail

/-- The block at which a transfer goes on in the same activation, unless it returns or calls. -/
def goOn? (l : Locals b) : Transfer → Option (Except Fault BlockId)
  | .ret | .call _ _ _ _ => none
  | .goto target => some (.ok target)
  | .branch c t e => some (l.branch c t e)
  | .switch p cases targets => some (l.read p >>= fun v => select v cases targets)
  | .diverge => some (.error .diverged)
  | .panic _ => some (.error .panicked)

/-- The function and the arguments of a call, once its destination is known to exist. -/
def callee (l : Locals b) (dest : Place) (f : Operand) (args : List Operand) :
    Except Fault (FuncId × List Value) := do
  l.require dest
  match ← l.operand f with
  | .func g => return (g, ← args.mapM l.operand)
  | v => .error (.nonFunctionCall v)

end Locals

/-- The function that is called, if it exists and takes that many arguments. -/
def Module.admit (m : Module) (f : FuncId) (args : List Value) : Except Fault Function :=
  match m.get? f with
  | none => .error (.unknownFunction f.text)
  | some function =>
    if args.length = function.body.args.toNat then .ok function
    else .error (.argumentCount function.name function.body.args.toNat args.length)

/-- Where an activation is: at the start of a block, or before the rest of one. -/
inductive Point
  | start (block : BlockId)
  | within (rest : List Statement) (transfer : Transfer)

/-- From a point, and with these locals, an activation gives a value or fails. It takes `n` steps, and at
most `d` activations exist at once, this one included. A failing search for a block counts as a step. -/
inductive Locals.Yields (m : Module) :
    {b : Body} → Locals b → Point → Except Fault Value → Nat → Nat → Prop
  | missing {b : Body} {l : Locals b} {id : BlockId} :
    b.blocks.get? id = none → Yields m l (.start id) (.error (.unknownBlock id.text)) 1 1
  | block {b : Body} {l : Locals b} {id : BlockId} {k : Block} {r : Except Fault Value} {n d : Nat} :
    b.blocks.get? id = some k → Yields m l (.within k.statements k.terminator.transfer) r n d →
    Yields m l (.start id) r n d
  | statement {b : Body} {l l' : Locals b} {st : Statement} {rest : List Statement} {t : Transfer}
    {r : Except Fault Value} {n d : Nat} :
    l.act st.action = .ok l' → Yields m l' (.within rest t) r n d →
    Yields m l (.within (st :: rest) t) r (n + 1) d
  | badStatement {b : Body} {l : Locals b} {st : Statement} {rest : List Statement} {t : Transfer}
    {e : Fault} :
    l.act st.action = .error e → Yields m l (.within (st :: rest) t) (.error e) 1 1
  | ret {b : Body} {l : Locals b} {v : Value} :
    l.read .result = .ok v → Yields m l (.within [] .ret) (.ok v) 1 1
  | goOn {b : Body} {l : Locals b} {t : Transfer} {id : BlockId} {r : Except Fault Value} {n d : Nat} :
    l.goOn? t = some (.ok id) → Yields m l (.start id) r n d → Yields m l (.within [] t) r (n + 1) d
  | stuck {b : Body} {l : Locals b} {t : Transfer} {e : Fault} :
    l.goOn? t = some (.error e) → Yields m l (.within [] t) (.error e) 1 1
  | call {b : Body} {l : Locals b} {p : Place} {f : Operand} {args : List Operand} {target : BlockId}
    {g : FuncId} {vs : List Value} {function : Function} {v : Value} {r : Except Fault Value}
    {n d n' d' : Nat} :
    l.callee p f args = .ok (g, vs) → m.admit g vs = .ok function →
    Yields m (.initial function.body vs) (.start .entry) (.ok v) n d →
    Yields m (l.set p v) (.start target) r n' d' →
    Yields m l (.within [] (.call p f args target)) r (n + n' + 1) (max (d + 1) d')
  | failedCall {b : Body} {l : Locals b} {p : Place} {f : Operand} {args : List Operand}
    {target : BlockId} {g : FuncId} {vs : List Value} {function : Function} {e : Fault} {n d : Nat} :
    l.callee p f args = .ok (g, vs) → m.admit g vs = .ok function →
    Yields m (.initial function.body vs) (.start .entry) (.error e) n d →
    Yields m l (.within [] (.call p f args target)) (.error e) (n + 1) (d + 1)
  | refusedCall {b : Body} {l : Locals b} {p : Place} {f : Operand} {args : List Operand}
    {target : BlockId} {g : FuncId} {vs : List Value} {e : Fault} :
    l.callee p f args = .ok (g, vs) → m.admit g vs = .error e →
    Yields m l (.within [] (.call p f args target)) (.error e) 1 1
  | badCall {b : Body} {l : Locals b} {p : Place} {f : Operand} {args : List Operand}
    {target : BlockId} {e : Fault} :
    l.callee p f args = .error e → Yields m l (.within [] (.call p f args target)) (.error e) 1 1

/-- A call of a function with these arguments gives a value or fails, in `n` steps and with at most `d`
activations at once. -/
inductive Module.Yields (m : Module) (f : FuncId) (args : List Value) :
    Except Fault Value → Nat → Nat → Prop
  | refused {e : Fault} : m.admit f args = .error e → Yields m f args (.error e) 0 0
  | activation {function : Function} {r : Except Fault Value} {n d : Nat} :
    m.admit f args = .ok function →
    Locals.Yields m (.initial function.body args) (.start .entry) r n d → Yields m f args r n d

/-- A module with one function, which calls itself: the factorial of its argument. -/
def Module.factorial : Module :=
  let body : Body := ⟨1, 2, 0, .ofList [
    ⟨[⟨.assign (.var 0) (.binary .lt (.read (.arg 0)) (.int 2)), .none⟩],
      ⟨.branch (.read (.var 0)) ⟨1⟩ ⟨2⟩, .none⟩⟩,
    ⟨[⟨.assign .result (.use (.int 1)), .none⟩], ⟨.ret, .none⟩⟩,
    ⟨[⟨.assign (.var 1) (.binary .sub (.read (.arg 0)) (.int 1)), .none⟩],
      ⟨.call (.var 1) (.func ⟨0⟩) [.read (.var 1)] ⟨3⟩, .none⟩⟩,
    ⟨[⟨.assign .result (.binary .mul (.read (.arg 0)) (.read (.var 1))), .none⟩], ⟨.ret, .none⟩⟩]⟩
  ((Module.empty "numbers").declare "factorial" []).define ⟨0⟩ body

end BlockIR
