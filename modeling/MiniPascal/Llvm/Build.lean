import MiniPascal.Ir.Basic
import MiniPascal.Llvm.Basic

/-!
# From code to LLVM

Addresses are carried as integers of 64 bits.  They become pointers only where memory is touched
and where a C function takes them.

Each instruction of our code becomes a few instructions of LLVM in the same block.  The builder keeps
the operand that stands for each temporary and numbers the results.
-/

namespace MiniPascal.Llvm

/-! ## What can go wrong -/

inductive Fault where
  | unknownGlobal (name : String)
  | undefinedTemp (key : String)
  | unsupportedOperand (value : Ir.Value)
  | indirectCall
  | unknownFunction (name : String)
  | unsupportedOp (op : Ir.Op)
  /-- The library stops, since the operands of an instruction do not fit. -/
  | illTyped

def Fault.message : Fault → String
  | unknownGlobal name => "unknown global $" ++ name
  | undefinedTemp key => "temporary %" ++ key ++ " used before its definition"
  | unsupportedOperand .missing => "unsupported operand <nil>"
  | unsupportedOperand value => "unsupported operand " ++ value.text
  | indirectCall => "indirect calls are not supported"
  | unknownFunction name => "call to unknown function $" ++ name
  | unsupportedOp op => "unsupported instruction " ++ op.name
  | illTyped => "ill-typed instruction"

/-! ## Types and declarations -/

def valueType : Ir.Ty → Ty
  | .none => .void
  | .byte => .i8
  | .word => .i32
  | .long | .address => .i64

def constWidth : Ir.Ty → Nat
  | .byte => 8
  | .word => 32
  | .none | .long | .address => 64

def externType : Ir.Ty → Ty
  | .address => .bytes
  | t => valueType t

/-- The number of words that hold a number of bytes. -/
def wordCount (size : Int64) : UInt64 := ((size + 3) / 4).toUInt64

/-- Zero-initialized data. -/
def buildData (ident : Ident) (d : Ir.Data) : Global :=
  .zeroed ident (wordCount d.size) (UInt64.ofInt d.align)

/-- A string literal with its closing zero. -/
def buildString (ident : Ident) (l : Ir.StringLit) : Global :=
  .literal ident (l.value.toUTF8.toList ++ [0])

def declareExtern (ident : Ident) (e : Ir.Extern) : Func :=
  { ident, result := valueType e.result, variadic := e.variadic
    params := e.params.zipIdx.map fun (t, i) => ({ name := "p" ++ toString i }, externType t) }

/-- The function that copies blocks of memory. -/
def memcpy : Func :=
  { ident := { name := "memcpy" }, result := .bytes
    params := [({ name := "dst" }, .bytes), ({ name := "src" }, .bytes), ({ name := "n" }, .i64)] }

/-- The head of a function of the program. -/
def declareFunc (ident : Ident) (f : Ir.Func) : Func :=
  { ident, result := valueType f.result, isInternal := !f.exported
    params := numbered (·.temp.key) (fun i p => (i, valueType p.type)) 0 f.params }

/-- What the functions of a program can refer to: data, C functions, and each other.  Of two things of one
name the later counts. -/
structure Scope where
  globals : List Global
  externs : List Func
  funcs : List Func

namespace Scope

/-- What the functions of a given program can refer to.  What has no name is numbered throughout. -/
def of (p : Ir.Program) : Scope :=
  let strings := unnamed (p.globals.map (·.name))
  let externs := strings + unnamed (p.strings.map (·.label))
  let funcs := externs + unnamed (p.externs.map (·.name))
  { globals := numbered (·.name) buildData 0 p.globals ++
      numbered (·.label) buildString strings p.strings
    externs := numbered (·.name) declareExtern externs p.externs
    funcs := numbered (·.name) declareFunc funcs p.funcs }

def global? (s : Scope) (name : String) : Option Global :=
  s.globals.reverse.find? (·.ident.name == name)

def func? (s : Scope) (name : String) : Option Func :=
  (s.externs ++ s.funcs).reverse.find? (·.ident.name == name)

def isExtern (s : Scope) (name : String) : Bool := s.externs.any (·.ident.name == name)

end Scope

/-! ## The builder -/

/-- A function under construction: the operands of its temporaries, the number of the next result,
and the block that is open. -/
structure Draft where
  temps : List (String × Operand)
  next : Nat := 0
  steps : List Step := []
  terminator : Option Terminator := none

abbrev Build := StateT Draft (Except Fault)

/-- Whether the library takes an instruction: what is stored has the type that is pointed to, and
what is compared is an integer or a pointer. -/
def Instr.isTaken : Instr → Bool
  | .store value target =>
    match value.type, target.type with
    | .int width, .pointer (.int width') => width == width'
    | _, _ => false
  | .icmp _ x _ =>
    match x.type with
    | .int _ | .pointer _ => true
    | _ => false
  | _ => true

/-- Adds an instruction to the open block; gives the operand that stands for its result. -/
def append (i : Instr) : Build Operand := fun d =>
  if !i.isTaken then
    .error .illTyped
  else if i.type.isVoid then
    .ok (.result 0 .void, { d with steps := d.steps ++ [⟨none, i⟩] })
  else
    .ok (.result d.next i.type, { d with steps := d.steps ++ [⟨some d.next, i⟩], next := d.next + 1 })

/-- Ends the open block.  Of two ends the later counts. -/
def finish (t : Terminator) : Build Unit := modify fun d => { d with terminator := some t }

/-- Lets an operand stand for a temporary. -/
def define (result : Ir.Value) (x : Operand) : Build Unit :=
  match result with
  | .temp t => modify fun d => { d with temps := (t.key, x) :: d.temps }
  | _ => pure ()

/-- The operand for a value that is used at a given type. -/
def operand (s : Scope) (v : Ir.Value) (type : Ir.Ty) : Build Operand :=
  match v with
  | .const value => pure (.int (constWidth type) value)
  | .global name =>
    match s.global? name, s.func? name with
    | some g, _ => append (.convert .ptrtoint (.data g.ident g.type) .i64)
    | none, some f => pure (.func f.ident f.signature)
    | none, none => throw (.unknownGlobal name)
  | .temp t => do
    match (← get).temps.lookup t.key with
    | some x => pure x
    | none => throw (.undefinedTemp t.key)
  | .missing | .label _ => throw (.unsupportedOperand v)

/-- The operands of an instruction, all used at one type. -/
def operands (s : Scope) (i : Ir.Instr) (type : Ir.Ty) : Build (List Operand) :=
  i.args.mapM fun v => operand s v type

/-- An address as a pointer to words. -/
def wordPointer (x : Operand) : Build Operand := append (.convert .inttoptr x .words)

/-- The operation on integers that an operation of our code is. -/
def arith? : Ir.Op → Option Arith
  | .add => some .add
  | .sub => some .sub
  | .mul => some .mul
  | .div => some .sdiv
  | .rem => some .srem
  | .and => some .and
  | .or => some .or
  | _ => none

/-- The comparison that an operation of our code is. -/
def relation? : Ir.Op → Option Relation
  | .ceq => some .eq
  | .cne => some .ne
  | .clt => some .slt
  | .cgt => some .sgt
  | .cle => some .sle
  | .cge => some .sge
  | _ => none

/-- The arguments of a call.  A C function takes an address as a pointer. -/
def callArguments (s : Scope) (toExtern : Bool) : List Ir.Ty → List Ir.Value → Build (List Operand)
  | _, [] => pure []
  | types, v :: vs => do
    let type := types.headD .word
    let x ← operand s v type
    let x ← if toExtern && type == .address then append (.convert .inttoptr x .bytes) else pure x
    return x :: (← callArguments s toExtern types.tail vs)

def buildCall (s : Scope) (i : Ir.Instr) : Build Unit := do
  match i.args.headD .missing with
  | .global name =>
    match s.func? name with
    | none => throw (.unknownFunction name)
    | some f =>
      let args ← callArguments s (s.isExtern name) i.argTypes i.args.tail
      define i.result (← append (.call f.ident f.signature args))
  | _ => throw .indirectCall

/-- An instruction of a function with results of a given type. -/
def buildInstr (s : Scope) (result : Ir.Ty) (i : Ir.Instr) : Build Unit := do
  let arg (n : Nat) : Ir.Value := i.args.getD n .missing
  match i.op with
  | .alloc =>
    match arg 0 with
    | .const size =>
      let slot ← append (.alloca (wordCount size) (UInt64.ofInt i.align))
      define i.result (← append (.convert .ptrtoint slot .i64))
    | v => throw (.unsupportedOperand v)
  | .load =>
    let source ← wordPointer (← operand s (arg 0) .address)
    define i.result (← append (.load .i32 source))
  | .store =>
    let value ← operand s (arg 0) i.type
    let target ← wordPointer (← operand s (arg 1) .address)
    discard (append (.store value target))
  | .blit =>
    match ← operands s i .address with
    | source :: target :: size :: _ =>
      let source ← append (.convert .inttoptr source .bytes)
      let target ← append (.convert .inttoptr target .bytes)
      discard (append (.call memcpy.ident memcpy.signature [target, source, size]))
    | _ => throw (.unsupportedOperand .missing)
  | .extsw =>
    let x ← operand s (arg 0) .word
    define i.result (← append (.convert .sext x .i64))
  | .jmp => finish (.br (arg 0).text)
  | .jnz =>
    let x ← operand s (arg 0) .word
    let nonZero ← append (.icmp .ne x (.int 32 0))
    finish (.condBr nonZero (arg 1).text (arg 2).text)
  | .ret =>
    if (arg 0).isMissing then finish (.ret none)
    else finish (.ret (some (← operand s (arg 0) result)))
  | .call => buildCall s i
  | op =>
    match arith? op, relation? op with
    | some a, _ =>
      match ← operands s i i.type with
      | x :: y :: _ => define i.result (← append (.arith a x y))
      | _ => throw (.unsupportedOperand .missing)
    | none, some r =>
      let type := if i.operandType = .none then i.type else i.operandType
      match ← operands s i type with
      | x :: y :: _ =>
        let truth ← append (.icmp r x y)
        define i.result (← append (.convert .zext truth .i32))
      | _ => throw (.unsupportedOperand .missing)
    | none, none => throw (.unsupportedOp op)

/-- A block; the block that is open before it is taken to be closed.  Without a name it takes the next
number. -/
def buildBlock (s : Scope) (result : Ir.Ty) (b : Ir.Block) : Build Block := do
  let label : Ident := { name := b.label, number := (← get).next }
  modify fun d =>
    { d with steps := [], terminator := none, next := d.next + unnamed [b.label] }
  b.instrs.forM (buildInstr s result)
  let d ← get
  return { label, steps := d.steps, terminator := d.terminator }

/-- A function, from its head on.  Parameters without names are numbered before anything else. -/
def buildFunc (s : Scope) (head : Func) (f : Ir.Func) : Except Fault Func := do
  let temps := (head.params.map fun (i, t) => (i.name, Operand.param i t)).reverse
  let next := unnamed (head.params.map (·.1.name))
  let (blocks, _) ← (f.blocks.mapM (buildBlock s f.result)).run { temps, next }
  return { head with blocks }

/-- The functions of a program, or the first fault with the name of its function. -/
def buildFuncs (s : Scope) : List (Func × Ir.Func) → Except (String × Fault) (List Func)
  | [] => .ok []
  | (head, f) :: fs =>
    match buildFunc s head f with
    | .error e => .error (f.name, e)
    | .ok g => return g :: (← buildFuncs s fs)

/-- The module of a program, or the first fault with the name of its function. -/
def build (p : Ir.Program) : Except (String × Fault) Module := do
  let s := Scope.of p
  let funcs ← buildFuncs s (s.funcs.zip p.funcs)
  return { globals := s.globals, funcs := s.externs ++ memcpy :: funcs }

end MiniPascal.Llvm
