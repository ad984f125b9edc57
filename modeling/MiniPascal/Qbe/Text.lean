import MiniPascal.Ir.Basic
import MiniPascal.Qbe.Quoted

/-!
# Code as QBE text

The intermediate language of the QBE compiler is close to our own code, so a program is written
instruction by instruction.  An address is a long, or a word on a target with words of four bytes.
-/

namespace MiniPascal.Qbe

open Ir

def typeLetter (wordSize : Int) : Ty → String
  | .none => ""
  | .byte => "b"
  | .word => "w"
  | .long => "l"
  | .address => if wordSize = 4 then "w" else "l"

/-- A value with the mark of its sort. -/
def valueText : Value → String
  | .missing => ""
  | .const value => toString value
  | .global name => "$" ++ name
  | .temp t => "%" ++ t.key
  | .label name => "@" ++ name

/-- The name of an operation, with the letter of the type it works on where it has one. -/
def opText (wordSize : Int) (i : Instr) : String :=
  match i.op with
  | .alloc => if i.align ≤ 4 then "alloc4" else if i.align ≤ 8 then "alloc8" else "alloc16"
  | .load => "load" ++ typeLetter wordSize i.type
  | .store => "store" ++ typeLetter wordSize i.type
  | op =>
    if op.isComparison then
      op.name ++ typeLetter wordSize (if i.operandType = .none then i.type else i.operandType)
    else
      op.name

/-- What stands before an operation that has a result. -/
def resultText (wordSize : Int) (result : Value) (type : Ty) : String :=
  if result.isMissing then "" else valueText result ++ " =" ++ typeLetter wordSize type ++ " "

/-- The operands of an instruction.  A missing one leaves only its comma. -/
def operandsText : List Value → String
  | [] => ""
  | x :: xs => operand x ++ String.join (xs.map fun y => "," ++ operand y)
where
  /-- An operand behind a blank. -/
  operand (v : Value) : String := if v.isMissing then "" else " " ++ valueText v

/-- The arguments of a call, from number `n` on.  Before the argument of number `fixed` stands the
mark that divides the parameters of a variadic function from the rest. -/
def callArguments (wordSize : Int) (fixed : Option Nat) :
    Nat → List Ty → List Value → List String
  | _, _, [] => []
  | n, types, v :: vs =>
    let arg := typeLetter wordSize (types.headD .word) ++ " " ++ valueText v
    let rest := callArguments wordSize fixed (n + 1) types.tail vs
    if fixed = some n then "..." :: arg :: rest else arg :: rest

/-- The number of parameters of a variadic C function. -/
def fixedCount (p : Program) : Value → Option Nat
  | .global name =>
    match p.extern? name with
    | some e => if e.variadic then some e.params.length else none
    | none => none
  | _ => none

def instrText (p : Program) (i : Instr) : String :=
  if i.op = .call then
    let callee := i.args.headD .missing
    "\t" ++ resultText p.wordSize i.result i.type ++ "call " ++ valueText callee ++ "(" ++
      ", ".intercalate (callArguments p.wordSize (fixedCount p callee) 0 i.argTypes i.args.tail) ++
      ")\n"
  else
    let type := if i.op.isComparison then .word else i.type
    "\t" ++ resultText p.wordSize i.result type ++ opText p.wordSize i ++ operandsText i.args ++ "\n"

/-- A block: its label and its instructions. -/
def blockText (p : Program) (b : Block) : String :=
  "@" ++ b.label ++ "\n" ++ String.join (b.instrs.map (instrText p))

def paramText (p : Program) (x : Param) : String :=
  typeLetter p.wordSize x.type ++ " " ++ valueText (.temp x.temp)

/-- A function, behind an empty line. -/
def funcText (p : Program) (f : Func) : String :=
  "\n" ++ (if f.exported then "export " else "") ++ "function" ++
    (if f.result = .none then "" else " " ++ typeLetter p.wordSize f.result) ++
    " $" ++ f.name ++ "(" ++ ", ".intercalate (f.params.map (paramText p)) ++ ") \x7b\n" ++
    String.join (f.blocks.map (blockText p)) ++ "\x7d\n"

def dataText (d : Data) : String :=
  "data $" ++ d.name ++ " = align " ++ toString d.align ++ " \x7b z " ++ toString d.size ++ " \x7d\n"

/-- A string literal with its closing zero. -/
def stringText (l : StringLit) : String :=
  "data $" ++ l.label ++ " = \x7b b " ++ quote l.value ++ ", b 0 \x7d\n"

def render (p : Program) : String :=
  String.join (p.globals.map dataText) ++
    (if p.strings.isEmpty then "" else "\n" ++ String.join (p.strings.map stringText)) ++
    String.join (p.funcs.map (funcText p))

end MiniPascal.Qbe
