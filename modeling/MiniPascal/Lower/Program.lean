import MiniPascal.Lower.Statement
import MiniPascal.Settings.Basic

/-!
# Lowering programs

Global declarations come first, then the routines in order, then the main body.  A routine keeps
each parameter, local and result in a stack slot of its own, and every way out of it leads to one
return block.  Code is handed out only if there was no fault and it is well formed.
-/

namespace MiniPascal.Lower

open Ir (Value)

/-! ## Global declarations -/

def declareGlobal : Tree → Lowering Unit
  | .constDecl tok name value => do
    let s ← get
    if s.constants.contains name then caution tok (.constantRedefined name)
    else if s.globals.contains name then caution tok (.constantHidesGlobal name)
    modify fun s => { s with constants := s.constants.insert name value }
  | .varDecl tok name type _ => do
    let s ← get
    match s.globals.get? name with
    | some before => fault tok (.duplicateGlobal name before.tok.line)
    | none =>
      if s.constants.contains name then caution tok (.globalHidden name)
      let symbol := "pasg_" ++ name
      modify fun s =>
        { s with
          data := s.data ++ [⟨symbol, 4, type.size⟩]
          globals := s.globals.insert name { role := .global, type, address := .global symbol, tok } }
  | t => fault t.tok (.strayDeclaration t.kindName)

/-! ## Routines -/

def declaredType : Tree → VarType
  | .varDecl _ _ type _ => type
  | _ => .void

/-- Whether a routine was declared with these parameters and this kind of result. -/
def sameSignature (r : Routine) (params : List VarType) (result : VarType) : Bool :=
  r.params.map VarType.format == params.map VarType.format &&
    (r.result == .void) == (result == .void)

/-- Registers a routine, or checks it against its earlier declaration.  The result is the routine
whose body is to be lowered. -/
def register (tok : Token) (name : String) (params : List VarType) (result : VarType)
    (hasBody : Bool) : Lowering (Option Routine) := do
  match (← get).routines.get? name with
  | none =>
    let r : Routine := { symbol := "pas_" ++ name, tok, params, result, defined := hasBody }
    modify fun s => { s with routines := s.routines.insert name r }
    return if hasBody then some r else none
  | some r =>
    if !sameSignature r params result then
      fault tok (.conflict name r.tok.line)
      return none
    else if r.defined && hasBody then
      fault tok (.redefinition name)
      return none
    else if hasBody then
      let r := { r with defined := true }
      modify fun s => { s with routines := s.routines.insert name r }
      return some r
    else
      return none

/-- The temporary that holds the value passed for a parameter. -/
def parameterTemp (name : String) : Ir.Temp := { name := "arg_" ++ name, id := -1 }

/-- The parameter of a function for a declared parameter; an array is passed by its address. -/
def parameter : Tree → Ir.Param
  | .varDecl _ name type _ =>
    { name, type := if type.isArray then .address else .word, temp := parameterTemp name }
  | _ => { name := "", type := .word, temp := parameterTemp "" }

/-- Moves a parameter into a slot of its own. -/
def enterParameter : Tree → Lowering Unit
  | .varDecl tok name type _ => do
    let slot ← allocate name type
    if type.isArray then copy (.temp (parameterTemp name)) slot type.size
    else store slot (.temp (parameterTemp name))
    declareLocal tok name .parameter type slot
  | _ => return ()

def enterLocal : Tree → Lowering Unit
  | .varDecl tok name type _ => do
    let slot ← allocate name type
    declareLocal tok name .localVar type slot
  | _ => return ()

/-- Runs a step on each tree in order. -/
def forEach (f : Tree → Lowering Unit) : List Tree → Lowering Unit
  | [] => return ()
  | t :: ts => do
    f t
    forEach f ts

/-- Remarks on the locals that were never used, in alphabetical order. -/
def remarkUnused : List String → Lowering Unit
  | [] => return ()
  | name :: names => do
    match (← get).locals.get? name with
    | some v => caution v.tok (.unusedLocal name)
    | none => pure ()
    remarkUnused names

/-- Lowers a body between a `start` block and a return block.  `enter` prepares the slots and gives
that of the result; `leave` makes the return instruction from it. -/
def lowerFrame {α : Type} (multi : Bool) (enter : Lowering α) (body : Tree)
    (leave : α → Lowering Ir.Instr) : Lowering Unit := do
  modify fun s => { s with temps := 0, blocks := [], current? := none }
  let returnLabel ← newLabel "return"
  modify fun s => { s with returnTargets := returnLabel :: s.returnTargets }
  startBlock "start"
  let slot ← enter
  if !(← lowerStmt multi body) then jump returnLabel
  startBlock returnLabel
  emit (← leave slot)
  closeBlock
  modify fun s => { s with returnTargets := s.returnTargets.tail }

/-- Hands the function under construction over to the program. -/
def finishFunction (f : Ir.Func) : Lowering Unit :=
  modify fun s => { s with funcs := s.funcs ++ [{ f with blocks := s.blocks }], blocks := [] }

/-- Allocates the slots of a routine: parameters, locals, and a result that starts as zero. -/
def enterRoutine (tok : Token) (name : String) (params locals : List Tree) (result : VarType) :
    Lowering Value := do
  forEach enterParameter params
  forEach enterLocal locals
  if result = .void then
    return .missing
  else
    let slot ← allocate name .integer
    store slot zero
    declareLocal tok name .result .integer slot
    return slot

/-- The return instruction of a routine whose result is kept in `slot`. -/
def leaveRoutine (slot : Value) : Lowering Ir.Instr := do
  if slot.isMissing then
    return { op := .ret }
  else
    let value ← load slot
    return { op := .ret, args := [value] }

/-- Runs a step with a fresh table of locals and outside any loop. -/
def insideRoutine (body : Lowering Unit) : Lowering Unit := do
  let outer := (← get).loopExits
  modify fun s => { s with scopes := s.locals :: s.scopes, locals := {}, loopExits := [] }
  body
  modify fun s =>
    { s with locals := s.scopes.headD {}, scopes := s.scopes.tail, loopExits := outer }

def lowerBody (multi : Bool) (tok : Token) (name : String) (r : Routine) (params : List Tree)
    (result : VarType) (locals : List Tree) (body : Tree) : Lowering Unit := do
  insideRoutine do
    lowerFrame multi (enterRoutine tok name params locals result) body leaveRoutine
    let unused := (← get).locals.namesWhere fun v => v.role = .localVar && !v.used
    remarkUnused unused
  finishFunction
    { name := r.symbol, params := params.map parameter
      result := if result = .void then .none else .word }

def lowerRoutine (multi : Bool) : Tree → Lowering Unit
  | .routine tok name params result locals body => do
    if result.isArray then
      fault tok (.arrayResult name)
    else
      if (Builtin.ofName? name).isSome then caution tok (.routineHidden name)
      match ← register tok name (params.map declaredType) result (!body.isAbsent) with
      | none => return ()
      | some r => lowerBody multi tok name r params result locals body
  | _ => return ()

/-! ## Programs -/

def lowerMain (multi : Bool) (body : Tree) : Lowering Unit := do
  lowerFrame multi (return ()) body fun _ => return { op := .ret, args := [zero] }
  finishFunction { name := "main", result := .word, exported := true }

/-- Checks the forward declarations that were never given a body: calling one is a fault, for the
program could not be linked. -/
def checkForward : List String → Lowering Unit
  | [] => return ()
  | name :: names => do
    match (← get).routines.get? name with
    | none => pure ()
    | some r =>
      match r.call? with
      | some tok => fault tok (.undefinedForward name)
      | none => caution r.tok (.undefinedForward name)
    checkForward names

/-- The C functions that programs call. -/
def externs : List Ir.Extern :=
  [{ name := "printf", params := [.address], result := .word, variadic := true },
    { name := "scanf", params := [.address], result := .word, variadic := true }]

def lowerParts (multi : Bool) (decls routines : List Tree) (main : Tree) : Lowering Unit := do
  forEach declareGlobal decls
  forEach (lowerRoutine multi) routines
  lowerMain multi main
  checkForward ((← get).routines.namesWhere fun r => !r.defined)

/-- What came of lowering: the code or the faults, and the remarks made on the way. -/
structure Outcome where
  code : Except (List Diagnostic) Ir.Program
  remarks : List Remark := []

def State.program (s : State) (wordSize : Int) : Ir.Program :=
  { globals := s.data, strings := s.strings, externs, funcs := s.funcs, wordSize }

/-- The program of a finished state, if it had no fault and is well formed. -/
def State.outcome (s : State) (wordSize : Int) : Outcome :=
  let program := s.program wordSize
  let malformed := program.problems.map fun p => (Fault.malformed p).diagnostic .nowhere
  { remarks := s.remarks
    code :=
      if !s.faults.isEmpty then .error s.faults
      else if !malformed.isEmpty then .error malformed
      else .ok program }

/-- Lowers a program. -/
def lower (c : Settings) : Tree → Outcome
  | .program _ _ decls routines main =>
    ((lowerParts (c.features .multiWrite) decls routines main).run { enabled := c.warnings }).2.outcome c.wordSize
  | _ => { code := .error [Fault.notProgram.diagnostic .nowhere] }

end MiniPascal.Lower
