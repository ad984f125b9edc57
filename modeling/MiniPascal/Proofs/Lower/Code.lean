import MiniPascal.Proofs.Ir.Flow
import MiniPascal.Proofs.Lower.Frame
import MiniPascal.Proofs.Names
import MiniPascal.Proofs.Static.Rules

/-!
# The code of a correct program

The relations of this module say, without any state, which code a correct piece of a program has.
`Emits` is for expressions and arguments, `Aims` for targets, `Straight` for statements without control
flow and `Lowers` for all statements. Code is a list of `Line`s, as it is listed, so that the code of a
sequence is the code of its parts one after the other. `Compiled` puts the code of the bodies together
to that of a program.

Temporaries and labels are numbered in the order in which they are made, so every relation has the
first free number before and after: `n` and `n'` for temporaries, `k` and `k'` for labels. Each rule
has the static conditions of its construct among its premises.
-/

open List

namespace MiniPascal.Lower

open Ir (Value Instr Ty Line plain listing)
open Static (Scope Signature Header Outline)

/-! ## Instructions -/

namespace Code

/-- The temporary of a given number. -/
def temp (n : Nat) : Value := .temp { name := "", id := n }

def load (n : Nat) (address : Value) : Instr :=
  { op := .load, type := .word, result := temp n, args := [address] }

def store (address value : Value) : Instr := { op := .store, type := .word, args := [value, address] }

def copy (source target : Value) (size : Int64) : Instr :=
  { op := .blit, args := [source, target, .const size] }

def compute (op : Ir.Op) (type : Ty) (n : Nat) (left right : Value) : Instr :=
  { op, type, operandType := type, result := temp n, args := [left, right] }

def extend (n : Nat) (word : Value) : Instr :=
  { op := .extsw, type := .long, operandType := .word, result := temp n, args := [word] }

/-- A call; the result of a function goes to the temporary of a given number. -/
def call (f : String) (result? : Option Nat) (args : List (Value × Ty)) : Instr :=
  { op := .call, type := if result?.isSome then .word else .none
    result := (result?.map temp).getD .missing
    args := .global ("pas_" ++ f) :: args.map Prod.fst, argTypes := args.map Prod.snd }

def print (format : Value) (value : Option (Value × Ty)) : Instr :=
  { op := .call, args := .global "printf" :: format :: value.toList.map Prod.fst
    argTypes := .address :: value.toList.map Prod.snd }

def scan (format address : Value) : Instr :=
  { op := .call, args := [.global "scanf", format, address], argTypes := [.address, .address] }

def jump (target : String) : Instr := { op := .jmp, args := [.label target] }

def branch (cond : Value) (yes no : String) : Instr :=
  { op := .jnz, args := [cond, .label yes, .label no] }

/-- The address of the element at index `i` of an array of integers. -/
def addressing (n : Nat) (base i : Value) (lower : Int64) : List Instr :=
  [compute .sub .word n i (.const lower), extend (n + 1) (temp n), compute .mul .long (n + 2) (temp (n + 1)) (.const 4),
    compute .add .address (n + 3) base (temp (n + 2))]

/-- A step of a variable by an amount. -/
def bump (op : Ir.Op) (n : Nat) (address amount : Value) : List Instr :=
  [load n address, compute op .word (n + 1) (temp n) amount, store address (temp (n + 1))]

end Code

/-! ## Expressions -/

/-- A scope, and where the variables are kept. -/
structure Layout extends Scope where
  address : String → Value

/-- What straight-line code computes: the word of an expression, or the arguments of a call. -/
inductive Phrase where
  | word (t : Tree) (value : Value)
  | args (params : List VarType) (ts : List Tree) (values : List (Value × Ty))

/-- The code of an expression or of arguments. -/
inductive Emits (L : Layout) : Phrase → Nat → List Instr → Nat → Prop
  | number : Emits L (.word (.number tok value) (.const value)) n [] n
  | constant : L.constant? x = some value → Emits L (.word (.name tok x) (.const value)) n [] n
  | var :
    L.Holds x .integer → Emits L (.word (.name tok x) (Code.temp n)) n [Code.load n (L.address x)] (n + 1)
  | bareCall :
    L.Free x → L.Callable x sig → sig.params = [] → sig.result ≠ .void →
    Emits L (.word (.name tok x) (Code.temp n)) n [Code.call x (some n) []] (n + 1)
  | element {lower : Int64} :
    L.Holds a (.array lower upper .integer) → Emits L (.word index i) n is m →
    Emits L (.word (.element tok a index) (Code.temp (m + 4))) n
      (is ++ Code.addressing m (L.address a) i lower ++ [Code.load (m + 4) (Code.temp (m + 3))]) (m + 5)
  | binary :
    operation? op = some operation → Emits L (.word left x) n is m → Emits L (.word right y) m js k →
    Emits L (.word (.binary tok op left right) (Code.temp k)) n
      (is ++ js ++ [Code.compute operation .word k x y]) (k + 1)
  | call :
    L.Callable f sig → sig.result ≠ .void → Emits L (.args sig.params args vs) n is m →
    Emits L (.word (.call tok f args) (Code.temp m)) n (is ++ [Code.call f (some m) vs]) (m + 1)
  | noArgs : Emits L (.args [] [] []) n [] n
  | wordArg :
    param.isArray = false → Emits L (.word t v) n is m → Emits L (.args params ts vs) m js k →
    Emits L (.args (param :: params) (t :: ts) ((v, .word) :: vs)) n (is ++ js) k
  | arrayArg :
    param.isArray = true → L.Holds x type → type.isArray = true → type.size = param.size →
    Emits L (.args params ts vs) n js k →
    Emits L (.args (param :: params) (.name tok x :: ts) ((L.address x, .address) :: vs)) n js k

/-- The code that comes to the address of a target. -/
inductive Aims (L : Layout) : Tree → Value → Nat → List Instr → Nat → Prop
  | var : L.Holds x .integer → Aims L (.name tok x) (L.address x) n [] n
  | element {lower : Int64} :
    L.Holds a (.array lower upper .integer) → Emits L (.word index i) n is m →
    Aims L (.element tok a index) (Code.temp (m + 3)) n (is ++ Code.addressing m (L.address a) i lower) (m + 4)

/-! ## Simple statements -/

/-- A value is the address of a string literal. -/
def Literal (strings : List Ir.StringLit) (text : String) (v : Value) : Prop :=
  ∃ label, ⟨label, text⟩ ∈ strings ∧ v = .global label

section Simple

variable (L : Layout) (strings : List Ir.StringLit)

/-- The code that writes values one after the other. -/
inductive Writes : List Tree → Nat → List Instr → Nat → Prop
  | nil : Writes [] n [] n
  | text {format : Value} :
    Literal strings text v → Literal strings "%s" format → Writes ts n js k →
    Writes (.text tok text :: ts) n (Code.print format (some (v, .address)) :: js) k
  | word {format : Value} :
    Emits L (.word t v) n is m → Literal strings "%d" format → Writes ts m js k →
    Writes (t :: ts) n (is ++ Code.print format (some (v, .word)) :: js) k

/-- The code that reads into targets one after the other. -/
inductive Scans : List Tree → Nat → List Instr → Nat → Prop
  | nil : Scans [] n [] n
  | cons {format : Value} :
    Aims L t a n is m → Literal strings "%d" format → Scans ts m js k →
    Scans (t :: ts) n (is ++ Code.scan format a :: js) k

/-- The operation of a built-in routine that steps a variable. -/
def stepOp? : Builtin → Option Ir.Op
  | .dec => some .sub
  | .inc => some .add
  | _ => none

/-- The code of a call for its effect. -/
inductive Invokes (f : String) : List Tree → Nat → List Instr → Nat → Prop
  | procedure :
    L.Callable f sig → sig.result = .void → Emits L (.args sig.params args vs) n is m →
    Invokes f args n (is ++ [Code.call f none vs]) m
  | function :
    L.Callable f sig → sig.result ≠ .void → Emits L (.args sig.params args vs) n is m →
    Invokes f args n (is ++ [Code.call f (some m) vs]) (m + 1)
  | write : Builtin.ofName? f = some .write → Writes L strings args n is m → Invokes f args n is m
  | writeln :
    Builtin.ofName? f = some .writeln → Writes L strings args n is m → Literal strings "\n" newline →
    Invokes f args n (is ++ [Code.print newline none]) m
  | readln : Builtin.ofName? f = some .readln → Scans L strings args n is m → Invokes f args n is m
  | step :
    Builtin.ofName? f = some b → stepOp? b = some op → Aims L target a n is m →
    Invokes f [target] n (is ++ Code.bump op m a (.const 1)) (m + 2)
  | stepBy :
    Builtin.ofName? f = some b → stepOp? b = some op → Emits L (.word amount v) n is m →
    Aims L target a m js k → Invokes f [target, amount] n (is ++ js ++ Code.bump op k a v) (k + 2)

/-- The code of a statement without control flow. -/
inductive Straight : Tree → Nat → List Instr → Nat → Prop
  | value : Emits L (.word (.name tok x) v) n is m → Straight (.name tok x) n is m
  | bareCall : L.Free x → Invokes L strings x [] n is m → Straight (.name tok x) n is m
  | element :
    Emits L (.word (.element tok a index) v) n is m → Straight (.element tok a index) n is m
  | call : Invokes L strings f args n is m → Straight (.call tok f args) n is m
  | assign :
    Emits L (.word value v) n is m → Aims L target a m js k →
    Straight (.assign tok target value) n (is ++ js ++ [Code.store a v]) k
  | assignArray :
    L.Holds x type → type.isArray = true → L.Holds y type' → type'.isArray = true → type'.size = type.size →
    Straight (.assign tok (.name tok₁ x) (.name tok₂ y)) n [Code.copy (L.address y) (L.address x) type.size] n

end Simple

/-! ## Statements -/

/-- A statement, or the statements of a block. -/
inductive Piece where
  | stmt (t : Tree)
  | stmts (ts : List Tree)

/-! The labels of a statement are numbered from `k` on, and `retLabel` is the one at the end of a body. -/

abbrev ifThen (k : Nat) : String := numbered "if_then" k

abbrev ifElse (k : Nat) : String := numbered "if_else" (k + 1)

abbrev ifJoin (k : Nat) : String := numbered "if_join" (k + 2)

abbrev forCond (k : Nat) : String := numbered "for_cond" k

abbrev forBody (k : Nat) : String := numbered "for_body" (k + 1)

abbrev forAfter (k : Nat) : String := numbered "for_after" (k + 2)

abbrev whileCond (k : Nat) : String := numbered "while_cond" k

abbrev whileBody (k : Nat) : String := numbered "while_body" (k + 1)

abbrev whileAfter (k : Nat) : String := numbered "while_after" (k + 2)

abbrev retLabel (r : Nat) : String := numbered "return" r

/-- A jump that is left out behind code which always leaves. -/
def rejoin (ends : Bool) (target : String) : List Line :=
  if ends then [] else [.instr (Code.jump target)]

namespace Code

/-- The lines of a branch between those of its alternatives. -/
def branchLines (k : Nat) (cond : List Instr) (v : Value) (yes : List Line) (yesEnds : Bool)
    (no : List Line) (noEnds : Bool) : List Line :=
  plain cond ++ .instr (branch v (ifThen k) (ifElse k)) ::
    .label (ifThen k) :: (yes ++ rejoin yesEnds (ifJoin k) ++
    .label (ifElse k) :: (no ++ rejoin noEnds (ifJoin k) ++
    if yesEnds && noEnds then [] else [.label (ifJoin k)]))

/-- The end of the body of a counting loop. -/
def again (down ends : Bool) (n : Nat) (address : Value) (cond : String) : List Line :=
  if ends then []
  else plain (bump (if down then .sub else .add) n address (.const 1) ++ [jump cond])

/-- The lines of a counting loop; `n` is the first temporary of its condition, `m` the first behind
its body. -/
def countLines (k n m : Nat) (bounds : List Instr) (address first last : Value) (down : Bool)
    (body : List Line) (ends : Bool) : List Line :=
  plain (bounds ++ [store address first, jump (forCond k)]) ++ .label (forCond k) ::
    (plain [load n address, compute (if down then .cge else .cle) .word (n + 1) (temp n) last,
      branch (temp (n + 1)) (forBody k) (forAfter k)] ++
    .label (forBody k) :: (body ++ again down ends m address (forCond k) ++
    [.label (forAfter k)]))

/-- The lines of a loop. -/
def loopLines (k : Nat) (cond : List Instr) (v : Value) (body : List Line) (ends : Bool) : List Line :=
  .instr (jump (whileCond k)) :: .label (whileCond k) ::
    (plain (cond ++ [branch v (whileBody k) (whileAfter k)]) ++
    .label (whileBody k) :: (body ++ rejoin ends (whileCond k) ++
    [.label (whileAfter k)]))

/-- The lines of any loop, from the code in front of it to the label behind it. -/
def roundLines (cond body after : String) (front test : List Instr) (v : Value) (ls back : List Line) : List Line :=
  plain front ++ .instr (jump cond) :: .label cond :: (plain test ++ .instr (branch v body after) ::
    .label body :: (ls ++ back ++ [.label after]))

theorem countLines_eq : countLines k n m bounds address first last down body ends =
      roundLines (forCond k) (forBody k) (forAfter k)
        (bounds ++ [store address first])
        [load n address, compute (if down then .cge else .cle) .word (n + 1) (temp n) last] (temp (n + 1)) body
        (again down ends m address (forCond k)) := by
  simp [countLines, roundLines, plain]

theorem loopLines_eq {cond : List Instr} :
    loopLines k cond v body ends =
      roundLines (whileCond k) (whileBody k) (whileAfter k) []
        cond v body (rejoin ends (whileCond k)) := by
  simp [loopLines, roundLines, plain]

end Code

/-- The code of a statement, or of the statements of a block. A `break` jumps to `brk`, an `exit` to
`ret`. The flag says that the code always leaves. -/
inductive Lowers (L : Layout) (strings : List Ir.StringLit) (ret : String) :
    Option String → Piece → Nat → Nat → List Line → Bool → Nat → Nat → Prop
  | straight :
    Straight L strings t n is n' → Lowers L strings ret brk (.stmt t) n k (plain is) false n' k
  | absent : Lowers L strings ret brk (.stmt .absent) n k [] false n k
  | leave :
    Lowers L strings ret (some target) (.stmt (.leave tok)) n k [.instr (Code.jump target)] true n k
  | exit : Lowers L strings ret brk (.stmt (.exit tok)) n k [.instr (Code.jump ret)] true n k
  | branch {cond : Tree} :
    Emits L (.word cond v) n is n₁ → Lowers L strings ret brk (.stmt yes) n₁ (k + 3) ls yesEnds n₂ k₁ →
    Lowers L strings ret brk (.stmt no) n₂ k₁ ms noEnds n₃ k₂ →
    Lowers L strings ret brk (.stmt (.branch tok cond yes no)) n k
      (Code.branchLines k is v ls yesEnds ms noEnds) (yesEnds && noEnds) n₃ k₂
  | count :
    L.Holds x .integer → Emits L (.word start v) n is n₁ → Emits L (.word stop w) n₁ js n₂ →
    Lowers L strings ret (some (forAfter k)) (.stmt body) (n₂ + 2) (k + 3) ls ends n₃ k₁ →
    Lowers L strings ret brk (.stmt (.count tok x start stop down body)) n k
      (Code.countLines k n₂ n₃ (is ++ js) (L.address x) v w down ls ends) false
      (if ends then n₃ else n₃ + 2) k₁
  | loop {cond : Tree} :
    Emits L (.word cond v) n is n₁ →
    Lowers L strings ret (some (whileAfter k)) (.stmt body) n₁ (k + 3) ls ends n₂ k₁ →
    Lowers L strings ret brk (.stmt (.loop tok cond body)) n k (Code.loopLines k is v ls ends) false n₂ k₁
  | block :
    Lowers L strings ret brk (.stmts ts) n k ls ends n' k' →
    Lowers L strings ret brk (.stmt (.block tok ts)) n k ls ends n' k'
  | nil : Lowers L strings ret brk (.stmts []) n k [] false n k
  | last :
    Lowers L strings ret brk (.stmt t) n k ls true n' k' →
    Lowers L strings ret brk (.stmts (t :: ts)) n k ls true n' k'
  | cons :
    Lowers L strings ret brk (.stmt t) n k ls false n₁ k₁ → Lowers L strings ret brk (.stmts ts) n₁ k₁ ms ends n₂ k₂ →
    Lowers L strings ret brk (.stmts (t :: ts)) n k (ls ++ ms) ends n₂ k₂

/-! ## Functions -/

namespace Code

/-- The slot of the `i`-th variable of a routine. -/
def slot (x : String) (i : Nat) : Value := .temp { name := x, id := i }

def alloc (x : String) (i : Nat) (type : VarType) : Instr :=
  { op := .alloc, type := .address, result := slot x i, args := [.const type.size], align := 4 }

/-- Moves a parameter into its slot. -/
def enterParam (i : Nat) (p : String × VarType) : List Instr :=
  [alloc p.1 i p.2,
    if p.2.isArray then copy (.temp (parameterTemp p.1)) (slot p.1 i) p.2.size
    else store (slot p.1 i) (.temp (parameterTemp p.1))]

/-- Makes the slot of a local variable. -/
def enterLocal (i : Nat) (l : String × VarType) : List Instr := [alloc l.1 i l.2]

/-- Makes the slot of a result, which starts as zero. -/
def enterOwn (i : Nat) (r : String × VarType) : List Instr :=
  [alloc r.1 i r.2, store (slot r.1 i) (.const 0)]

/-- The code for variables that are numbered from `i` on. -/
def each (f : Nat → String × VarType → List Instr) : Nat → Vars → List Instr
  | _, [] => []
  | i, v :: vs => f i v ++ each f (i + 1) vs

/-- The number of the slot of a function's result. -/
def ownIndex (h : Header) : Nat := h.params.length + h.locals.length

/-- The code on the way into a routine. -/
def enter (h : Header) : List Instr :=
  each enterParam 0 h.params ++ each enterLocal h.params.length h.locals ++ each enterOwn (ownIndex h) h.own

/-- The code on the way out of a routine. -/
def leave (h : Header) (n : Nat) : List Instr :=
  if h.result = .void then [{ op := .ret }]
  else [load n (slot h.name (ownIndex h)), { op := .ret, args := [temp n] }]

/-- The lines of a function around those of its body. -/
def framed (enter : List Instr) (body : List Line) (ends : Bool) (ret : String) (leave : List Instr) : List Line :=
  .label "start" :: (plain enter ++ (body ++ (rejoin ends ret ++ .label ret :: plain leave)))

end Code

/-- The layout of a body with slots of its own. -/
def layout (o : Outline) (seen : List Header) (slots : Vars) : Layout where
  toScope := o.scope seen slots
  address x :=
    if x ∈ slots.map Prod.fst then Code.slot x ((slots.map Prod.fst).idxOf x)
    else .global ("pasg_" ++ x)

theorem mem_names_of_lookup {α : Type} {vs : List (String × α)} {a : α} (h : vs.lookup x = some a) :
    x ∈ vs.map Prod.fst := by
  by_contra missing
  rw [lookup_eq_none_iff.mpr missing] at h
  cases h

theorem getElem?_idxOf_of_lookup {α : Type} {vs : List (String × α)} {a : α}
    (h : vs.lookup x = some a) : vs[(vs.map Prod.fst).idxOf x]? = some (x, a) := by
  induction vs with
  | nil => cases h
  | cons v vs ih =>
    obtain ⟨y, b⟩ := v
    rw [lookup_cons] at h
    by_cases same : x = y
    · subst same
      simp only [beq_self_eq_true, Option.some.injEq] at h
      simp [h]
    · rw [beq_eq_false_iff_ne.mpr same] at h
      rw [map_cons, idxOf_cons_ne _ (Ne.symm same), Nat.succ_eq_add_one, getElem?_cons_succ]
      exact ih h

/-- Blocks hold the code of a body, with code around it; `n` is the first free temporary. -/
def BodyCode (L : Layout) (strings : List Ir.StringLit) (n : Nat) (enter : List Instr)
    (leave : Nat → List Instr) (body : Tree) (blocks : List Ir.Block) : Prop :=
  ∃ r ls ends n' k', Lowers L strings (retLabel r) none (.stmt body) n (r + 1) ls ends n' k' ∧
    listing blocks = Code.framed enter ls ends (retLabel r) (leave n')

/-! ## Programs -/

/-- A routine with a body, and the headers that its body can see. -/
structure Definition where
  seen : List Header
  header : Header
  body : Tree

/-- The definitions among headers that stand behind others. -/
def definitions : List Header → List Header → List Definition
  | _, [] => []
  | before, h :: hs =>
    (h.body?.map fun body => ⟨before ++ [h], h, body⟩).toList ++ definitions (before ++ [h]) hs

theorem definitions_snoc (before hs : List Header) (h : Header) :
    definitions before (hs ++ [h]) = definitions before hs ++
      (h.body?.map fun body => ⟨before ++ hs ++ [h], h, body⟩).toList := by
  induction hs generalizing before with
  | nil => simp [definitions]
  | cons h' hs ih => simp [definitions, ih, append_assoc]

/-- The parameter of a function for a declared one. -/
def paramOf (p : String × VarType) : Ir.Param :=
  { name := p.1, type := if p.2.isArray then .address else .word, temp := parameterTemp p.1 }

section Functions

variable (o : Outline) (strings : List Ir.StringLit)

/-- A function is the code of a definition. -/
structure RoutineCode (d : Definition) (f : Ir.Func) : Prop where
  name : f.name = "pas_" ++ d.header.name
  params : f.params = d.header.params.map paramOf
  result : f.result = if d.header.result = .void then .none else .word
  exported : f.exported = false
  blocks : BodyCode (layout o d.seen d.header.slots) strings d.header.slots.length
    (Code.enter d.header) (Code.leave d.header) d.body f.blocks

/-- A function is the code of the main body. -/
structure MainCode (f : Ir.Func) : Prop where
  name : f.name = "main"
  params : f.params = []
  result : f.result = .word
  exported : f.exported = true
  blocks : BodyCode (layout o o.headers []) strings 0 [] (fun _ => [{ op := .ret, args := [.const 0] }]) o.main f.blocks

end Functions

/-- The data of a global variable. -/
def dataOf (g : String × VarType) : Ir.Data := ⟨"pasg_" ++ g.1, 4, g.2.size⟩

/-- A program is the code of an outline. -/
structure Compiled (o : Outline) (p : Ir.Program) : Prop where
  globals : p.globals = o.globals.map dataOf
  strings : Interned p.strings
  externs : p.externs = externs
  funcs : ∃ fs main, p.funcs = fs ++ [main] ∧
    Forall₂ (RoutineCode o p.strings) (definitions [] o.headers) fs ∧ MainCode o p.strings main

end MiniPascal.Lower
