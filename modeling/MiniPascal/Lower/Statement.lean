import MiniPascal.Lower.Expression

/-!
# Lowering statements

A statement becomes code that ends in an open block, unless it always leaves by a `break` or an
`exit`; `lowerStmt` says which.  What follows such a statement in its block is skipped with a remark.
The feature of writing several values at once is the flag `multi`.
-/

namespace MiniPascal.Lower

open Ir (Value Ty)

/-! ## Built-in routines -/

/-- Prints a value, if there is one, by the C function for formatted output. -/
def print (format : String) (value : Option (Value × Ty)) : Lowering Unit := do
  let label ← internString format
  emit { op := .call
         args := .global "printf" :: label :: value.toList.map Prod.fst
         argTypes := .address :: value.toList.map Prod.snd }

/-- Whether a built-in may take `got` arguments: more than one only if `multi` is set. -/
def checkArity (multi : Bool) (tok : Token) (name : String) (got : Nat) : Lowering Bool := do
  if 1 < got && !multi then
    fault tok (.tooManyArguments name 1 got)
    return false
  else
    return true

/-- Prints each argument before the next one is computed: an integer in decimal, a string as it
is. -/
def lowerWrites : List Tree → Lowering Unit
  | [] => return ()
  | arg :: args => do
    let (value, type) ← lowerExpr arg
    if type = .address then print "%s" (some (value, .address))
    else print "%d" (some (value, .word))
    lowerWrites args

/-- Reads a decimal integer into each argument. -/
def lowerReads : List Tree → Lowering Unit
  | [] => return ()
  | arg :: args => do
    match ← lowerTarget arg with
    | none => pure ()
    | some address =>
      let label ← internString "%d"
      emit { op := .call, args := [.global "scanf", label, address], argTypes := [.address, .address] }
    lowerReads args

/-- Adds to or subtracts from a variable in place. -/
def step (op : Ir.Op) (target : Tree) (amount : Value) : Lowering Unit := do
  match ← lowerTarget target with
  | none => return ()
  | some address =>
    let old ← load address
    let new ← compute op .word old amount
    store address new

/-- Lowers a step of one, or of an amount that is computed before the target. -/
def lowerStep (tok : Token) (name : String) (op : Ir.Op) : List Tree → Lowering Unit
  | [target] => step op target (.const 1)
  | [target, amount] => do
    let n ← lowerWord amount
    step op target n
  | args => fault tok (.stepArguments name args.length)

def lowerBuiltin (multi : Bool) (tok : Token) (b : Builtin) (args : List Tree) : Lowering Unit :=
  match b with
  | .write => do
    if ← checkArity multi tok b.name args.length then lowerWrites args
  | .writeln => do
    if ← checkArity multi tok b.name args.length then
      lowerWrites args
      print "\n" none
  | .readln => do
    if ← checkArity multi tok b.name args.length then lowerReads args
  | .dec => lowerStep tok b.name .sub args
  | .inc => lowerStep tok b.name .add args

/-! ## Simple statements -/

/-- Lowers a call for its effect. -/
def lowerCall (multi : Bool) (tok : Token) (name : String) (args : List Tree) : Lowering Unit := do
  match Builtin.ofName? name with
  | some b => lowerBuiltin multi tok b args
  | none =>
    let _ ← callRoutine tok name args.length false fun r => lowerArguments name 1 r.params args

/-- Stores the value of an expression, which is computed before the address of the target. -/
def assignWord (target value : Tree) : Lowering Unit := do
  let v ← lowerWord value
  match ← lowerTarget target with
  | none => return ()
  | some address => store address v

/-- Lowers an assignment; a whole array is copied. -/
def lowerAssign (target value : Tree) : Lowering Unit := do
  match target with
  | .name _ name =>
    match ← resolve name with
    | .storage v =>
      if v.type.isArray then
        match ← arrayAddress value v.type .source with
        | none => return ()
        | some source => copy source v.address v.type.size
      else
        assignWord target value
    | _ => assignWord target value
  | _ => assignWord target value

/-- Lowers a name that stands as a statement: a call, or a value that is dropped. -/
def lowerBare (multi : Bool) (tok : Token) (name : String) : Lowering Unit := do
  let binding ← resolve name
  match binding, ← isCallable name with
  | .unbound, true => lowerCall multi tok name []
  | _, _ => let _ ← lowerName tok name

/-- The address of the control variable of a counting loop. -/
def controlAddress (tok : Token) (name : String) : Lowering (Option Value) := do
  match ← resolve name with
  | .constant _ =>
    fault tok (.constantControl name)
    return none
  | .unbound =>
    fault tok (.undeclaredControl name)
    return none
  | .storage v =>
    if v.type.isArray then
      fault tok (.arrayControl name)
      return none
    else
      return some v.address

/-! ## Control flow -/

/-- Runs a step with `exit` as the place to which a `break` jumps. -/
def insideLoop (exit : String) (body : Lowering Bool) : Lowering Bool := do
  modify fun s => { s with loopExits := exit :: s.loopExits }
  let ends ← body
  modify fun s => { s with loopExits := s.loopExits.tail }
  return ends

mutual

/-- Lowers a statement.  The result says whether it always leaves, so that nothing behind it is
reached. -/
def lowerStmt (multi : Bool) : Tree → Lowering Bool
  | .absent => return false
  | .block _ stmts => lowerStmts multi false stmts
  | .branch _ cond yes no => do
    let yesLabel ← newLabel "if_then"
    let noLabel ← newLabel "if_else"
    let joinLabel ← newLabel "if_join"
    branch (← lowerWord cond) yesLabel noLabel
    startBlock yesLabel
    let yesEnds ← lowerStmt multi yes
    if !yesEnds then jump joinLabel
    startBlock noLabel
    let noEnds ← lowerStmt multi no
    if !noEnds then jump joinLabel
    if yesEnds && noEnds then
      return true
    else
      startBlock joinLabel
      return false
  | .count tok var start stop down body => do
    match ← controlAddress tok var with
    | none => return false
    | some address =>
      let first ← lowerWord start
      let last ← lowerWord stop
      store address first
      let condLabel ← newLabel "for_cond"
      let bodyLabel ← newLabel "for_body"
      let afterLabel ← newLabel "for_after"
      jump condLabel
      startBlock condLabel
      let value ← load address
      let more ← compute (if down then .cge else .cle) .word value last
      branch more bodyLabel afterLabel
      startBlock bodyLabel
      let ends ← insideLoop afterLabel (lowerStmt multi body)
      if !ends then
        let old ← load address
        let new ← compute (if down then .sub else .add) .word old (.const 1)
        store address new
        jump condLabel
      startBlock afterLabel
      return false
  | .loop _ cond body => do
    let condLabel ← newLabel "while_cond"
    let bodyLabel ← newLabel "while_body"
    let afterLabel ← newLabel "while_after"
    jump condLabel
    startBlock condLabel
    branch (← lowerWord cond) bodyLabel afterLabel
    startBlock bodyLabel
    let ends ← insideLoop afterLabel (lowerStmt multi body)
    if !ends then jump condLabel
    startBlock afterLabel
    return false
  | .leave tok => do
    match (← get).loopExits with
    | [] =>
      fault tok .strayBreak
      return false
    | target :: _ =>
      jump target
      return true
  | .exit _ => do
    match (← get).returnTargets with
    | [] => return false
    | target :: _ =>
      jump target
      return true
  | .assign _ target value => do
    lowerAssign target value
    return false
  | .call tok name args => do
    lowerCall multi tok name args
    return false
  | .name tok name => do
    lowerBare multi tok name
    return false
  | t => do
    let _ ← lowerExpr t
    return false

/-- Lowers statements in order; `ends` says that one before them always leaves. -/
def lowerStmts (multi ends : Bool) : List Tree → Lowering Bool
  | [] => return ends
  | stmt :: stmts => do
    if ends then
      caution stmt.tok .unreachable
      return true
    else
      lowerStmts multi (← lowerStmt multi stmt) stmts

end

end MiniPascal.Lower
