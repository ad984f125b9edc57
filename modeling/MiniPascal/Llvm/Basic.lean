import MiniPascal.Llvm.Ident

/-!
# LLVM modules

The part of the LLVM language that compiled programs use.  Every operand carries its type, so that
whether an instruction is well typed can be read off the instruction alone.
-/

namespace MiniPascal.Llvm

/-! ## Types -/

inductive Ty where
  | void
  | int (width : Nat)
  | pointer (target : Ty)
  | array (length : UInt64) (elem : Ty)
  | func (result : Ty) (params : List Ty) (variadic : Bool)

namespace Ty

/-- Truth values. -/
abbrev i1 : Ty := int 1
abbrev i8 : Ty := int 8
/-- Words, the integers of the language. -/
abbrev i32 : Ty := int 32
/-- Long words, which also carry addresses. -/
abbrev i64 : Ty := int 64
/-- The addresses that C functions take. -/
abbrev bytes : Ty := pointer i8
/-- The addresses that words are loaded from and stored to. -/
abbrev words : Ty := pointer i32

def isVoid : Ty → Bool
  | void => true
  | _ => false

end Ty

/-- The types of the parameters and of the result of a function. -/
structure Signature where
  result : Ty
  params : List Ty
  variadic : Bool := false

def Signature.type (s : Signature) : Ty := .func s.result s.params s.variadic

/-! ## Operands and instructions -/

inductive Operand where
  | int (width : Nat) (value : Int64)
  /-- Data of a given type, known by its address. -/
  | data (ident : Ident) (type : Ty)
  /-- A function, known by its address. -/
  | func (ident : Ident) (signature : Signature)
  | param (ident : Ident) (type : Ty)
  /-- The result of the instruction of a given number. -/
  | result (number : Nat) (type : Ty)

def Operand.type : Operand → Ty
  | int width _ => .int width
  | data _ type => .pointer type
  | func _ signature => .pointer signature.type
  | param _ type => type
  | result _ type => type

inductive Arith where
  | add
  | sub
  | mul
  | sdiv
  | srem
  | and
  | or
  deriving DecidableEq

/-- A comparison of two signed integers. -/
inductive Relation where
  | eq
  | ne
  | slt
  | sgt
  | sle
  | sge
  deriving DecidableEq

/-- A change of type. -/
inductive Conversion where
  | ptrtoint
  | inttoptr
  | zext
  | sext
  deriving DecidableEq

/-- An instruction that does not end its block. -/
inductive Instr where
  /-- Storage for a number of words on the stack; an alignment of 0 is none. -/
  | alloca (words : UInt64) (align : UInt64)
  | load (type : Ty) (source : Operand)
  | store (value target : Operand)
  | arith (op : Arith) (x y : Operand)
  | icmp (relation : Relation) (x y : Operand)
  | convert (conversion : Conversion) (x : Operand) (result : Ty)
  | call (callee : Ident) (signature : Signature) (args : List Operand)

def Instr.type : Instr → Ty
  | alloca words _ => .pointer (.array words .i32)
  | load type _ => type
  | store _ _ => .void
  | arith _ x _ => x.type
  | icmp _ _ _ => .i1
  | convert _ _ result => result
  | call _ signature _ => signature.result

/-- The end of a block.  The blocks to go on with are given by their names. -/
inductive Terminator where
  | br (target : String)
  | condBr (condition : Operand) (yes no : String)
  | ret (value : Option Operand)

/-- An instruction and the number of its result, if it has one. -/
structure Step where
  number : Option Nat
  instr : Instr

structure Block where
  label : Ident
  steps : List Step := []
  terminator : Option Terminator := none

/-! ## Modules -/

/-- A function with its parameters.  Without blocks it is a declaration. -/
structure Func where
  ident : Ident
  params : List (Ident × Ty)
  result : Ty
  variadic : Bool := false
  /-- Not to be seen by the linker. -/
  isInternal : Bool := false
  blocks : List Block := []

def Func.signature (f : Func) : Signature :=
  { result := f.result, params := f.params.map (·.2), variadic := f.variadic }

/-- The block of a given name; only one without a name has to be looked for. -/
def Func.block (f : Func) (name : String) : Ident :=
  if name.isEmpty then ((f.blocks.map (·.label)).find? (·.name.isEmpty)).getD { name }
  else { name }

inductive Global where
  /-- A number of words, zero at the start; an alignment of 0 is none. -/
  | zeroed (ident : Ident) (words : UInt64) (align : UInt64)
  | literal (ident : Ident) (bytes : List UInt8)

/-- What data is known by. -/
def Global.ident : Global → Ident
  | zeroed ident _ _ => ident
  | literal ident _ => ident

def Global.type : Global → Ty
  | zeroed _ words _ => .array words .i32
  | literal _ bytes => .array (UInt64.ofNat bytes.length) .i8

structure Module where
  globals : List Global
  funcs : List Func

end MiniPascal.Llvm
