import MiniPascal.Llvm.Build

/-!
# Well-typed modules

An operand says its own type. It is known where what it stands for is there with that type: data,
functions and parameters are declared, and a result belongs to an instruction further up.
`Module.Typed` says that all operands are known and that all instructions have operands of the types
they ask for.
-/

namespace MiniPascal.Llvm

/-- What the body of a function can refer to, and the type of its results. -/
structure Context where
  globals : List (Ident × Ty)
  funcs : List (Ident × Signature)
  params : List (Ident × Ty)
  result : Ty
  labels : List String

/-! ## Instructions -/

section Instr

variable (Γ : Context) (past : List Step)

/-- What an operand stands for is there, with the type that the operand says. -/
inductive Operand.Known : Operand → Prop
  | int : Known (.int width value)
  | data : (x, t) ∈ Γ.globals → Known (.data x t)
  | func : (x, signature) ∈ Γ.funcs → Known (.func x signature)
  | param : (x, t) ∈ Γ.params → Known (.param x t)
  | result : s ∈ past → s.number = some number → Known (.result number s.instr.type)

/-- A function takes arguments of the given types. -/
def Signature.Takes (s : Signature) (types : List Ty) : Prop :=
  if s.variadic = true then s.params <+: types else types = s.params

/-- An instruction is well typed behind other ones. Memory is read and written in words. -/
inductive Instr.Typed : Instr → Prop
  | alloca : Typed (.alloca words align)
  | load : x.Known Γ past → x.type = .words → Typed (.load .i32 x)
  | store :
    x.Known Γ past → target.Known Γ past → x.type = .i32 → target.type = .words → Typed (.store x target)
  | arith :
    x.Known Γ past → y.Known Γ past → x.type = .int width → y.type = .int width → Typed (.arith op x y)
  | icmp :
    x.Known Γ past → y.Known Γ past → x.type = .int width → y.type = .int width → Typed (.icmp relation x y)
  | ptrtoint : x.Known Γ past → x.type = .pointer target → Typed (.convert .ptrtoint x (.int width))
  | inttoptr : x.Known Γ past → x.type = .int width → Typed (.convert .inttoptr x (.pointer target))
  | zext :
    x.Known Γ past → x.type = .int narrow → narrow < wide → Typed (.convert .zext x (.int wide))
  | sext :
    x.Known Γ past → x.type = .int narrow → narrow < wide → Typed (.convert .sext x (.int wide))
  | call :
    (callee, signature) ∈ Γ.funcs → (∀ x ∈ args, x.Known Γ past) →
    signature.Takes (args.map (·.type)) → Typed (.call callee signature args)

/-- A step is well typed, and numbered with a new number if it has a result. -/
structure Step.Typed (s : Step) : Prop where
  instr : s.instr.Typed Γ past
  numbered : s.number = none ↔ s.instr.type.isVoid = true
  fresh : ∀ n, s.number = some n → ∀ s' ∈ past, s'.number ≠ some n

/-- The end of a block is well typed. -/
inductive Terminator.Typed : Terminator → Prop
  | br : target ∈ Γ.labels → Typed (.br target)
  | condBr :
    condition.Known Γ past → condition.type = .i1 → yes ∈ Γ.labels → no ∈ Γ.labels → Typed (.condBr condition yes no)
  | ret : Γ.result = .void → Typed (.ret none)
  | retValue : x.Known Γ past → x.type = Γ.result → Γ.result ≠ .void → Typed (.ret (some x))

end Instr

/-! ## Functions and modules -/

/-- Steps are well typed one after the other. -/
def StepsTyped (Γ : Context) : List Step → List Step → Prop
  | _, [] => True
  | past, s :: later => s.Typed Γ past ∧ StepsTyped Γ (past ++ [s]) later

/-- Blocks are well typed one after the other. -/
def BlocksTyped (Γ : Context) : List Step → List Block → Prop
  | _, [] => True
  | past, b :: later =>
    StepsTyped Γ past b.steps ∧ (∃ t, b.terminator = some t ∧ t.Typed Γ (past ++ b.steps)) ∧
      BlocksTyped Γ (past ++ b.steps) later

/-- What the body of a function of a module can refer to. -/
def Module.context (m : Module) (f : Func) : Context where
  globals := m.globals.map fun g => (g.ident, g.type)
  funcs := m.funcs.map fun g => (g.ident, g.signature)
  params := f.params
  result := f.result
  labels := f.blocks.map (·.label.name)

/-- A module is well typed: no name is declared twice, and all functions are well typed. -/
structure Module.Typed (m : Module) : Prop where
  names : (m.globals.map (·.ident.name) ++ m.funcs.map (·.ident.name)).Nodup
  funcs : ∀ f ∈ m.funcs, BlocksTyped (m.context f) [] f.blocks

/-- A module has the functions of a program, with a block for each of theirs, and declares its C
functions. Addresses are integers, but pointers to bytes for C functions. -/
structure Module.Declares (m : Module) (p : Ir.Program) : Prop where
  funcs : ∀ f ∈ p.funcs, ∃ g ∈ m.funcs, g.ident.name = f.name ∧ g.signature =
      { result := valueType f.result, params := f.params.map fun q => valueType q.type } ∧
    g.blocks.map (·.label.name) = f.blocks.map (·.label)
  externs : ∀ e ∈ p.externs, ∃ g ∈ m.funcs, g.ident.name = e.name ∧ g.signature =
      { result := valueType e.result, params := e.params.map externType,
        variadic := e.variadic }

end MiniPascal.Llvm
