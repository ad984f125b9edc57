import MiniPascal.Lower.State
import MiniPascal.Tree.Basic

/-!
# Lowering expressions

An expression becomes straight-line code and a value: a word, or the address of a string literal.
Operands and arguments are computed from left to right.  Where a value cannot be computed, the fault
is recorded and zero stands in for it.
-/

namespace MiniPascal.Lower

open Ir (Value Ty)

/-- The routines that every program can call without declaring them.  They take precedence over
declared ones. -/
inductive Builtin where
  | write
  | writeln
  | readln
  | dec
  | inc
  deriving DecidableEq

namespace Builtin

def name : Builtin → String
  | write => "write"
  | writeln => "writeln"
  | readln => "readln"
  | dec => "dec"
  | inc => "inc"

def ofName? (s : String) : Option Builtin :=
  [write, writeln, readln, dec, inc].find? fun b => b.name == s

end Builtin

def operation? : Kind → Option Ir.Op
  | .plus => some .add
  | .minus => some .sub
  | .star => some .mul
  | .kwDiv => some .div
  | .kwMod => some .rem
  | .kwAnd => some .and
  | .kwOr => some .or
  | .eq => some .ceq
  | .ne => some .cne
  | .lt => some .clt
  | .le => some .cle
  | .gt => some .cgt
  | .ge => some .cge
  | _ => none

/-- The word that an expression at `tok` came to; a string is none. -/
def asWord (tok : Token) : Value × Ty → Lowering Value
  | (value, .word) => return value
  | _ => do
    fault tok .strayString
    return zero

/-- The address of an element: base + (index - lower) * element size, in 64 bits once the 32-bit
difference has been extended.  `index` computes the index, which starts at `indexTok`. -/
def elementAddress (tok : Token) (array : String) (indexTok : Token) (index : Lowering Value) :
    Lowering (Option (Value × VarType)) := do
  match ← resolve array with
  | .constant _ =>
    fault tok (.constantIndexed array)
    return none
  | .unbound =>
    fault tok (.undeclaredArray array)
    return none
  | .storage v =>
    match v.type with
    | .array lower upper elem =>
      let i ← index
      match i with
      | .const n =>
        if n < lower ∨ upper < n then caution indexTok (.outOfBounds n array lower upper)
      | _ => pure ()
      let distance ← compute .sub .word i (.const lower)
      let wide ← newTemp ""
      emit { op := .extsw, type := .long, operandType := .word, result := .temp wide,
             args := [distance] }
      let offset ← compute .mul .long (.temp wide) (.const elem.size)
      let address ← compute .add .address v.address offset
      return some (address, elem)
    | _ =>
      fault tok (.notArray array)
      return none

def wordElement (tok : Token) (array : String) (indexTok : Token) (index : Lowering Value) :
    Lowering (Option Value) := do
  match ← elementAddress tok array indexTok index with
  | none => return none
  | some (address, elem) =>
    if elem.isArray then
      fault tok (.arrayElement array)
      return none
    else
      return some address

/-- The address of a whole array, which must have the size of `want`. -/
def arrayAddress (t : Tree) (want : VarType) (use : ArrayUse) : Lowering (Option Value) := do
  match t with
  | .name tok name =>
    match ← resolve name with
    | .storage v =>
      if !v.type.isArray then
        fault tok (.notArrayVariable use want)
        return none
      else if v.type.size ≠ want.size then
        fault tok (.arraySize name v.type.size want.size)
        return none
      else
        return some v.address
    | _ =>
      fault tok (.notArrayVariable use want)
      return none
  | _ =>
    fault t.tok (.notArrayVariable use want)
    return none

/-- A routine about to be called with `count` arguments, unless the call is wrong.  The first call
of a routine is remembered. -/
def callee (tok : Token) (name : String) (count : Nat) (wantValue : Bool) :
    Lowering (Option Routine) := do
  match (← get).routines.get? name with
  | none =>
    fault tok (.unknownRoutine name)
    return none
  | some r =>
    let r := { r with call? := r.call?.or (some tok) }
    modify fun s => { s with routines := s.routines.insert name r }
    if count ≠ r.params.length then
      fault tok (.argumentCount name r.params.length count)
      return none
    else if wantValue && r.result == .void then
      fault tok (.valuelessProcedure name)
      return none
    else
      return some r

/-- Calls a routine with arguments that have been computed; the value of a procedure is zero. -/
def finishCall (r : Routine) (args : List (Value × Ty)) : Lowering Value := do
  let call : Ir.Instr :=
    { op := .call, args := .global r.symbol :: args.map Prod.fst, argTypes := args.map Prod.snd }
  if r.result = .void then
    emit call
    return zero
  else
    let t ← newTemp ""
    emit { call with type := .word, result := .temp t }
    return .temp t

/-- Calls a declared routine.  `arguments` computes its arguments, or fails. -/
def callRoutine (tok : Token) (name : String) (count : Nat) (wantValue : Bool)
    (arguments : Routine → Lowering (Option (List (Value × Ty)))) : Lowering Value := do
  match ← callee tok name count wantValue with
  | none => return zero
  | some r =>
    match ← arguments r with
    | none => return zero
    | some args => finishCall r args

/-- Calls a routine for its value; a built-in has none. -/
def callFunction (tok : Token) (name : String) (count : Nat)
    (arguments : Routine → Lowering (Option (List (Value × Ty)))) : Lowering Value := do
  match Builtin.ofName? name with
  | some _ =>
    fault tok (.valuelessBuiltin name)
    return zero
  | none => callRoutine tok name count true arguments

/-- Whether a name is that of a routine. -/
def isCallable (name : String) : Lowering Bool := do
  return (Builtin.ofName? name).isSome || (← get).routines.contains name

/-- The value of a name: a constant, an integer variable, or a call without arguments. -/
def lowerName (tok : Token) (name : String) : Lowering Value := do
  match ← resolve name with
  | .constant value => return .const value
  | .storage v =>
    if v.type.isArray then
      fault tok (.arrayAsInteger name)
      return zero
    else
      load v.address
  | .unbound =>
    if ← isCallable name then
      callFunction tok name 0 fun _ => return some []
    else
      fault tok (.undeclaredVariable name)
      return zero

mutual

/-- Lowers an expression to a word or to the address of a string. -/
def lowerExpr : Tree → Lowering (Value × Ty)
  | .number _ value => return (.const value, .word)
  | .text _ value => return (← internString value, .address)
  | .name tok name => return (← lowerName tok name, .word)
  | .element tok array index => do
    match ← wordElement tok array index.tok (do asWord index.tok (← lowerExpr index)) with
    | none => return (zero, .word)
    | some address => return (← load address, .word)
  | .binary tok op left right => do
    match operation? op with
    | none =>
      fault tok (.unknownOperator op)
      return (zero, .word)
    | some operation =>
      let x ← asWord left.tok (← lowerExpr left)
      let y ← asWord right.tok (← lowerExpr right)
      return (← compute operation .word x y, .word)
  | .call tok name args =>
    return (← callFunction tok name args.length fun r => lowerArguments name 1 r.params args, .word)
  | t => do
    fault t.tok (.notExpression t.kindName)
    return (zero, .word)

/-- Lowers the arguments of a call, counted from `index`.  An array is passed by its address; one
that does not fit ends the call. -/
def lowerArguments (callee : String) (index : Nat) :
    List VarType → List Tree → Lowering (Option (List (Value × Ty)))
  | param :: params, arg :: args => do
    if param.isArray then
      match ← arrayAddress arg param (.argument index callee) with
      | none => return none
      | some address =>
        let rest ← lowerArguments callee (index + 1) params args
        return rest.map ((address, .address) :: ·)
    else
      let value ← asWord arg.tok (← lowerExpr arg)
      let rest ← lowerArguments callee (index + 1) params args
      return rest.map ((value, .word) :: ·)
  | _, _ => return some []

end

def lowerWord (t : Tree) : Lowering Value := do
  asWord t.tok (← lowerExpr t)

/-- The address of an integer variable or element. -/
def lowerTarget : Tree → Lowering (Option Value)
  | .name tok name => do
    match ← resolve name with
    | .constant _ =>
      fault tok (.constantAssigned name)
      return none
    | .unbound =>
      fault tok (.undeclaredVariable name)
      return none
    | .storage v =>
      if v.type.isArray then
        fault tok (.arrayAsInteger name)
        return none
      else
        return some v.address
  | .element tok array index => wordElement tok array index.tok (lowerWord index)
  | t => do
    fault t.tok .notAssignable
    return none

end MiniPascal.Lower
