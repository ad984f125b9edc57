import MiniPascal.Llvm.Basic

/-!
# Modules as text
-/

namespace MiniPascal.Llvm

/-! ## Types -/

mutual

def Ty.text : Ty → String
  | .void => "void"
  | .int width => "i" ++ toString width
  | .pointer target => target.text ++ "*"
  | .array length elem => "[" ++ toString length ++ " x " ++ elem.text ++ "]"
  | .func result params variadic =>
    result.text ++ " (" ++
      ", ".intercalate (Ty.textAll params ++ if variadic then ["..."] else []) ++ ")"

def Ty.textAll : List Ty → List String
  | [] => []
  | t :: ts => t.text :: Ty.textAll ts

end

/-! ## Instructions -/

def Operand.ident : Operand → String
  | .int _ value => numeral value
  | .data ident _ => "@" ++ ident.text
  | .func ident _ => "@" ++ ident.text
  | .param ident _ => "%" ++ ident.text
  | .result number _ => "%" ++ toString number

/-- An operand behind its type. -/
def Operand.text (x : Operand) : String := x.type.text ++ " " ++ x.ident

def Arith.text : Arith → String
  | .add => "add"
  | .sub => "sub"
  | .mul => "mul"
  | .sdiv => "sdiv"
  | .srem => "srem"
  | .and => "and"
  | .or => "or"

def Relation.text : Relation → String
  | .eq => "eq"
  | .ne => "ne"
  | .slt => "slt"
  | .sgt => "sgt"
  | .sle => "sle"
  | .sge => "sge"

def Conversion.text : Conversion → String
  | .ptrtoint => "ptrtoint"
  | .inttoptr => "inttoptr"
  | .zext => "zext"
  | .sext => "sext"

/-- An alignment behind a comma. -/
def alignText (align : UInt64) : String :=
  if align = 0 then "" else ", align " ++ toString align

def Instr.text : Instr → String
  | .alloca words align => "alloca " ++ (Ty.array words .i32).text ++ alignText align
  | .load type source => "load " ++ type.text ++ ", " ++ source.text
  | .store value target => "store " ++ value.text ++ ", " ++ target.text
  | .arith op x y => op.text ++ " " ++ x.text ++ ", " ++ y.ident
  | .icmp relation x y => "icmp " ++ relation.text ++ " " ++ x.text ++ ", " ++ y.ident
  | .convert conversion x result => conversion.text ++ " " ++ x.text ++ " to " ++ result.text
  | .call callee signature args =>
    "call " ++ (if signature.variadic then signature.type.text else signature.result.text) ++
      " @" ++ callee.text ++ "(" ++ ", ".intercalate (args.map Operand.text) ++ ")"

def Terminator.text (f : Func) : Terminator → String
  | .br target => "br " ++ labelText target
  | .condBr condition yes no => "br " ++ condition.text ++ ", " ++ labelText yes ++ ", " ++ labelText no
  | .ret none => "ret void"
  | .ret (some value) => "ret " ++ value.text
where
  /-- A block to go on with. -/
  labelText (name : String) : String := "label %" ++ (f.block name).text

/-- An instruction behind the name of its result. -/
def Step.text (s : Step) : String :=
  (match s.number with
    | some n => "%" ++ toString n ++ " = "
    | none => "") ++ s.instr.text

/-- A block of a function: its label, and a line for each instruction. -/
def Block.text (f : Func) (b : Block) : String :=
  b.label.text ++ ":\n" ++ String.join (b.steps.map fun s => "\t" ++ s.text ++ "\n") ++
    (match b.terminator with
      | some t => "\t" ++ t.text f ++ "\n"
      | none => "")

/-! ## Modules -/

/-- A parameter; without a name it is only a type. -/
def paramText (ident : Ident) (type : Ty) : String :=
  if ident.name.isEmpty then type.text else type.text ++ " %" ++ ident.text

def Func.text (f : Func) : String :=
  let params := f.params.map fun (i, t) => paramText i t
  let head := (if f.isInternal then "internal " else "") ++ f.result.text ++ " @" ++ f.ident.text ++
    "(" ++ ", ".intercalate (params ++ if f.variadic then ["..."] else []) ++ ")"
  if f.blocks.isEmpty then "declare " ++ head
  else "define " ++ head ++ " \x7b\n" ++ "\n".intercalate (f.blocks.map (Block.text f)) ++ "\x7d"

def Global.text : Global → String
  | .zeroed ident words align =>
    "@" ++ ident.text ++ " = internal global " ++ (Ty.array words .i32).text ++
      " zeroinitializer" ++ alignText align
  | .literal ident bytes =>
    "@" ++ ident.text ++ " = private constant " ++ (Global.literal ident bytes).type.text ++
      " c\"" ++ escapeBytes bytes ++ "\""

/-- A module: data, and behind an empty line the functions, with empty lines between them. -/
def Module.text (m : Module) : String :=
  String.join (m.globals.map fun g => g.text ++ "\n") ++
    (if m.globals.isEmpty || m.funcs.isEmpty then "" else "\n") ++
    "\n".intercalate (m.funcs.map fun f => f.text ++ "\n")

end MiniPascal.Llvm
