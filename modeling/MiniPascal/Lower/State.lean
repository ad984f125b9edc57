import MiniPascal.Lower.Fault
import MiniPascal.Lower.Table

/-!
# The state of lowering

Lowering walks a tree once and builds code as it goes.  Its state holds the tables of names, the
stacks of places to jump to, the function under construction and what has been said so far.  Faults
do not stop the walk, so that every one of them is found.

The code under construction is a list of finished blocks and possibly an open one.  Between a
terminator and the next label no block is open.
-/

namespace MiniPascal.Lower

open Ir (Value Instr)

inductive Role where
  | global
  | parameter
  | localVar
  | result
  deriving DecidableEq

/-- A variable with storage: `address` is where it is kept, `tok` where it was declared. -/
structure Variable where
  role : Role
  type : VarType
  address : Value
  tok : Token
  used : Bool := false

structure Routine where
  /-- The name of its function in the code. -/
  symbol : String
  /-- Where it was first declared. -/
  tok : Token
  params : List VarType
  result : VarType
  defined : Bool := false
  /-- Where it was first called. -/
  call? : Option Token := none

structure State where
  constants : Table Int64 := {}
  globals : Table Variable := {}
  locals : Table Variable := {}
  /-- The local tables of the enclosing routines. -/
  scopes : List (Table Variable) := []
  routines : Table Routine := {}
  /-- The labels behind the enclosing loops, innermost first. -/
  loopExits : List String := []
  /-- The return labels of the enclosing routines, innermost first. -/
  returnTargets : List String := []
  data : List Ir.Data := []
  strings : List Ir.StringLit := []
  funcs : List Ir.Func := []
  /-- The finished blocks of the function under construction. -/
  blocks : List Ir.Block := []
  /-- The block that takes the next instruction. -/
  current? : Option Ir.Block := none
  temps : Nat := 0
  labels : Nat := 0
  faults : List Diagnostic := []
  /-- The warnings that are wanted. -/
  enabled : Switches Warning := Warning.standard
  remarks : List Remark := []

abbrev Lowering := StateM State

/-! ## What is said -/

def fault (tok : Token) (f : Fault) : Lowering Unit :=
  modify fun s => { s with faults := s.faults ++ [f.diagnostic tok] }

/-- Remarks on something, if the warning is switched on. -/
def caution (tok : Token) (c : Caution) : Lowering Unit :=
  modify fun s => { s with remarks := s.remarks ++ Remark.enabled s.enabled [c.remark tok] }

/-! ## Names -/

/-- What a name stands for. -/
inductive Binding where
  | constant (value : Int64)
  | storage (v : Variable)
  | unbound

/-- Looks a name up among the constants, the locals and the globals, in this order, and marks a
variable as used. -/
def resolve (name : String) : Lowering Binding := do
  let s ← get
  match s.constants.get? name, s.locals.get? name, s.globals.get? name with
  | some value, _, _ => return .constant value
  | none, some v, _ =>
    set { s with locals := s.locals.insert name { v with used := true } }
    return .storage v
  | none, none, some v =>
    set { s with globals := s.globals.insert name { v with used := true } }
    return .storage v
  | none, none, none => return .unbound

/-- Declares a local variable.  A name can be declared once; hiding or being hidden is remarked. -/
def declareLocal (tok : Token) (name : String) (role : Role) (type : VarType) (address : Value) :
    Lowering Unit := do
  let s ← get
  match s.locals.get? name with
  | some before => fault tok (.duplicateLocal name before.tok.line)
  | none =>
    if s.constants.contains name then caution tok (.localHidden name)
    else if s.globals.contains name then caution tok (.localShadows name)
    modify fun s => { s with locals := s.locals.insert name { role, type, address, tok } }

/-! ## Code -/

/-- A temporary that is not in use yet. -/
def newTemp (name : String) : Lowering Ir.Temp := do
  let s ← get
  set { s with temps := s.temps + 1 }
  return { name, id := s.temps }

/-- A label that is not in use yet. -/
def newLabel (hint : String) : Lowering String := do
  let s ← get
  set { s with labels := s.labels + 1 }
  return hint ++ "." ++ toString s.labels

def startBlock (label : String) : Lowering Unit :=
  modify fun s =>
    { s with blocks := s.blocks ++ s.current?.toList, current? := some ⟨label, []⟩ }

/-- Appends an instruction to the open block; if none is open, to a new one that nothing
reaches. -/
def emit (i : Instr) : Lowering Unit := do
  if (← get).current?.isNone then
    startBlock (← newLabel "dead")
  modify fun s =>
    { s with current? := s.current?.map fun b => { b with instrs := b.instrs ++ [i] } }

def closeBlock : Lowering Unit :=
  modify fun s => { s with blocks := s.blocks ++ s.current?.toList, current? := none }

def jump (target : String) : Lowering Unit := do
  emit { op := .jmp, args := [.label target] }
  closeBlock

/-- Ends the open block with a branch on whether a word is zero. -/
def branch (cond : Value) (yes no : String) : Lowering Unit := do
  emit { op := .jnz, args := [cond, .label yes, .label no] }
  closeBlock

/-- The label of a string literal; equal strings share one. -/
def internString (value : String) : Lowering Value := do
  let s ← get
  match s.strings.find? fun l => l.value == value with
  | some l => return .global l.label
  | none =>
    let fresh : Ir.StringLit := { label := "str" ++ toString s.strings.length, value }
    set { s with strings := s.strings ++ [fresh] }
    return .global fresh.label

def allocate (name : String) (type : VarType) : Lowering Value := do
  let slot ← newTemp name
  emit { op := .alloc, type := .address, result := .temp slot, args := [.const type.size], align := 4 }
  return .temp slot

def load (address : Value) : Lowering Value := do
  let t ← newTemp ""
  emit { op := .load, type := .word, result := .temp t, args := [address] }
  return .temp t

def store (address value : Value) : Lowering Unit :=
  emit { op := .store, type := .word, args := [value, address] }

def copy (source target : Value) (size : Int64) : Lowering Unit :=
  emit { op := .blit, args := [source, target, .const size] }

/-- Computes a binary operation on two operands of one type. -/
def compute (op : Ir.Op) (type : Ir.Ty) (left right : Value) : Lowering Value := do
  let t ← newTemp ""
  emit { op, type, operandType := type, result := .temp t, args := [left, right] }
  return .temp t

/-- The value that stands in for one that could not be computed. -/
def zero : Value := .const 0

end MiniPascal.Lower
