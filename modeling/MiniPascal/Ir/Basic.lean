/-!
# Intermediate code

A program is a list of functions, each a list of basic blocks, with zero-initialized data, string
literals and the C functions that it calls.  Temporaries are assigned once; branch targets are named
by label.  Operands may be missing in code made by hand, so `Value.missing` is a value.
-/

namespace MiniPascal.Ir

/-! ## Operations -/

inductive Op where
  | alloc
  | load
  | store
  | blit
  | add
  | sub
  | mul
  | div
  | rem
  | and
  | or
  | ceq
  | cne
  | clt
  | cgt
  | cle
  | cge
  | extsw
  | jmp
  | jnz
  | ret
  | call
  /-- A number that no operation has. -/
  | other (code : Int)
  deriving DecidableEq

namespace Op

/-- Every operation, in the order of their numbers. -/
def named : List Op :=
  [alloc, load, store, blit, add, sub, mul, div, rem, and, or, ceq, cne, clt, cgt, cle, cge, extsw,
    jmp, jnz, ret, call]

def name : Op → String
  | alloc => "alloc"
  | load => "load"
  | store => "store"
  | blit => "blit"
  | add => "add"
  | sub => "sub"
  | mul => "mul"
  | div => "div"
  | rem => "rem"
  | and => "and"
  | or => "or"
  | ceq => "ceq"
  | cne => "cne"
  | clt => "cslt"
  | cgt => "csgt"
  | cle => "csle"
  | cge => "csge"
  | extsw => "extsw"
  | jmp => "jmp"
  | jnz => "jnz"
  | ret => "ret"
  | call => "call"
  | other _ => "unknown_op"

def ofCode (code : Int) : Op :=
  if code < 0 then other code else (named[code.toNat]?).getD (other code)

def ofName? (s : String) : Option Op :=
  named.find? fun op => op.name == s

def isTerminator : Op → Bool
  | jmp | jnz | ret => true
  | _ => false

def isComparison : Op → Bool
  | ceq | cne | clt | cgt | cle | cge => true
  | _ => false

end Op

/-! ## Types and values -/

inductive Ty where
  | none
  | byte
  /-- A word of 32 bits, the integer of the language. -/
  | word
  | long
  | address
  deriving DecidableEq

namespace Ty

/-- The types in the order of their numbers. -/
def named : List Ty := [none, byte, word, long, address]

/-- The letter of a type; no letter means no value. -/
def letter : Ty → String
  | none => ""
  | byte => "b"
  | word => "w"
  | long => "l"
  | address => "p"

def ofLetter? (s : String) : Option Ty :=
  named.find? fun t => t.letter == s

/-- The type of a given number; a number that no type has means no value. -/
def ofCode (code : Int) : Ty :=
  if code < 0 then none else (named[code.toNat]?).getD none

/-- The size of a value in bytes, with addresses of `wordSize` bytes. -/
def size (wordSize : Int) : Ty → Int
  | none => 0
  | byte => 1
  | word => 4
  | long => 8
  | address => wordSize

end Ty

/-- A temporary.  The number -1 marks a parameter, which is known by its name alone. -/
structure Temp where
  name : String := ""
  id : Int
  deriving DecidableEq

/-- What tells a temporary apart within its function. -/
def Temp.key (t : Temp) : String :=
  if t.id = -1 then t.name
  else if t.name = "" then "t" ++ toString t.id
  else t.name ++ "." ++ toString t.id

inductive Value where
  | missing
  | const (value : Int64)
  | global (name : String)
  | temp (t : Temp)
  | label (name : String)
  deriving DecidableEq

namespace Value

instance : Inhabited Value := ⟨missing⟩

/-- A value without the mark of its sort. -/
def text : Value → String
  | missing => ""
  | const value => toString value
  | global name => name
  | temp t => t.key
  | label name => name

def isMissing : Value → Bool
  | missing => true
  | _ => false

end Value

/-! ## Code -/

/-- An instruction.  The first argument of a call is the callee, and `argTypes` are the types of
the others.  `operandType` is the type of the operands where it is not that of the result. -/
structure Instr where
  op : Op
  type : Ty := .none
  operandType : Ty := .none
  result : Value := .missing
  args : List Value := []
  argTypes : List Ty := []
  align : Int := 0
  deriving DecidableEq

structure Block where
  label : String
  instrs : List Instr := []

/-- The last instruction of a block, if it ends the block. -/
def Block.terminator? (b : Block) : Option Instr :=
  b.instrs.getLast?.filter fun i => i.op.isTerminator

/-- A parameter, and the temporary that holds its value. -/
structure Param where
  name : String
  type : Ty
  temp : Temp

structure Func where
  name : String
  params : List Param := []
  result : Ty := .none
  exported : Bool := false
  blocks : List Block := []

/-- Zero-initialized data. -/
structure Data where
  name : String
  align : Int
  size : Int64

structure StringLit where
  label : String
  value : String
  deriving DecidableEq

/-- A C function.  A variadic one takes any arguments behind its parameters. -/
structure Extern where
  name : String
  params : List Ty
  result : Ty
  variadic : Bool

structure Program where
  globals : List Data := []
  strings : List StringLit := []
  externs : List Extern := []
  funcs : List Func := []
  wordSize : Int := 8

namespace Program

def func? (p : Program) (name : String) : Option Func := p.funcs.find? fun f => f.name == name

def extern? (p : Program) (name : String) : Option Extern := p.externs.find? fun e => e.name == name

end Program

end MiniPascal.Ir
