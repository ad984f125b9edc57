import MiniPascal.Ir.Basic

/-!
# Well-formed code

What every backend relies on: each block ends in its only terminator, branch targets and callees
exist, temporaries are assigned once, and a return fits its function.  `Program.problems` lists
every violation, in the order of the code.
-/

namespace MiniPascal.Ir

/-- A violation of the rules, within a function. -/
inductive Cause where
  | noBlocks
  | duplicateLabel (label : String)
  | redefined (key : String)
  | emptyBlock (label : String)
  | earlyTerminator (label : String) (op : Op)
  | unterminated (label : String)
  | missingOperand (label : String) (op : Op)
  | undefinedTemp (label : String) (op : Op) (key : String)
  | unknownTarget (label : String) (op : Op) (target : String)
  | unknownCallee (label callee : String)
  | badReturn (label : String)
  deriving DecidableEq

def Cause.message : Cause → String
  | noBlocks => "has no basic blocks"
  | duplicateLabel label => "duplicate block label @" ++ label
  | redefined key => "temporary %" ++ key ++ " is defined more than once"
  | emptyBlock label => "block @" ++ label ++ " is empty"
  | earlyTerminator label op => "block @" ++ label ++ " has " ++ op.name ++ " before its end"
  | unterminated label => "block @" ++ label ++ " does not end in a terminator"
  | missingOperand label op => "block @" ++ label ++ ": " ++ op.name ++ " has a missing operand"
  | undefinedTemp label op key =>
    "block @" ++ label ++ ": " ++ op.name ++ " uses undefined temporary %" ++ key
  | unknownTarget label op target =>
    "block @" ++ label ++ ": " ++ op.name ++ " targets unknown block @" ++ target
  | unknownCallee label callee => "block @" ++ label ++ ": call to unknown function $" ++ callee
  | badReturn label =>
    "block @" ++ label ++ ": return does not match the function's return type"

/-- A violation, and the function it is in. -/
structure Problem where
  func : String
  cause : Cause
  deriving DecidableEq

/-- The complaint about a violation, with its function. -/
def Problem.message (p : Problem) : String := "function $" ++ p.func ++ ": " ++ p.cause.message

/-- The names that have occurred before, in `seen` or in the list itself. -/
def repeats (seen : List String) : List String → List String
  | [] => []
  | x :: xs => if seen.contains x then x :: repeats (x :: seen) xs else repeats (x :: seen) xs

def Instr.defined? (i : Instr) : Option String :=
  match i.result with
  | .temp t => some t.key
  | _ => none

namespace Func

def labels (f : Func) : List String := f.blocks.map (·.label)

def instrs (f : Func) : List Instr := f.blocks.flatMap (·.instrs)

def paramKeys (f : Func) : List String := f.params.map (·.temp.key)

def definedKeys (f : Func) : List String := f.instrs.filterMap Instr.defined?

/-- The names that the code of a function may use: blocks to branch to, temporaries to read, and
functions to call. -/
structure Names where
  labels : List String
  temps : List String
  callees : List String

/-- The names that `f` may use as a function of `p`. -/
def names (p : Program) (f : Func) : Names :=
  { labels := f.labels
    temps := f.paramKeys ++ f.definedKeys
    callees := p.funcs.map (·.name) ++ p.externs.map (·.name) }

/-- What is wrong with one operand.  `callee` says that it is the first of a call. -/
def operandCauses (n : Names) (label : String) (op : Op) (callee : Bool) : Value → List Cause
  | .missing => if op = .ret then [] else [.missingOperand label op]
  | .const _ => []
  | .temp t => if n.temps.contains t.key then [] else [.undefinedTemp label op t.key]
  | .label target => if n.labels.contains target then [] else [.unknownTarget label op target]
  | .global name =>
    if callee && !n.callees.contains name then [.unknownCallee label name] else []

def operandsCauses (n : Names) (label : String) (i : Instr) : List Cause :=
  match i.args with
  | [] => []
  | x :: xs =>
    operandCauses n label i.op (i.op = .call) x ++ xs.flatMap (operandCauses n label i.op false)

/-- Whether an instruction carries a value as its first operand. -/
def carriesValue (i : Instr) : Bool :=
  match i.args with
  | [] => false
  | x :: _ => !x.isMissing

/-- What is wrong with an instruction of a function with result `result`; `last` says that it is the
last of its block. -/
def instrCauses (n : Names) (result : Ty) (label : String) (last : Bool) (i : Instr) : List Cause :=
  (if i.op.isTerminator && !last then [.earlyTerminator label i.op] else []) ++
  (if last && !i.op.isTerminator then [.unterminated label] else []) ++
  operandsCauses n label i ++
  (if i.op = .ret && carriesValue i != (result != .none) then [.badReturn label] else [])

def instrsCauses (n : Names) (result : Ty) (label : String) : List Instr → List Cause
  | [] => []
  | i :: is => instrCauses n result label is.isEmpty i ++ instrsCauses n result label is

def blockCauses (n : Names) (result : Ty) (b : Block) : List Cause :=
  if b.instrs.isEmpty then [.emptyBlock b.label] else instrsCauses n result b.label b.instrs

def causes (p : Program) (f : Func) : List Cause :=
  if f.blocks.isEmpty then [.noBlocks]
  else
    (repeats [] f.labels).map .duplicateLabel ++
    (repeats f.paramKeys f.definedKeys).map .redefined ++
    f.blocks.flatMap (blockCauses (f.names p) f.result)

end Func

/-- Every violation of the rules in a program. -/
def Program.problems (p : Program) : List Problem :=
  p.funcs.flatMap fun f => (f.causes p).map fun c => ⟨f.name, c⟩

end MiniPascal.Ir
