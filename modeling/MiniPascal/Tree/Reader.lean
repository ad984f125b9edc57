import MiniPascal.Token.Scan
import MiniPascal.Tree.Basic
import MiniPascal.Tree.Fault

/-!
# Reading programs

Every reader returns the stream behind what it read together with the fact that it is shorter, which
is why the readers end.

Expressions are read by precedence climbing over three levels of left-associative operators.  A body
is a compound statement, or a single statement that is wrapped in a block of its own.  A compound
statement tolerates empty statements: any number of semicolons may stand between, before and behind
its statements.

`Tree.read` reads a whole program and stops at the first fault.  Declarations keep their order;
variables and constants are listed apart from routines.
-/

namespace MiniPascal

/-! ## Readers -/

/-- What was read off a stream: a value, and the stream behind it, which has fewer than `n`
tokens. -/
structure Parsed (α : Type) (n : Nat) where
  value : α
  rest : Stream
  size_lt : rest.size < n

abbrev Parse (α : Type) (n : Nat) := Except SyntaxFault (Parsed α n)

namespace Stream

/-- Reads a token of kind `k`. -/
def expect (s : Stream) (k : Kind) (hk : k ≠ .eof := by decide) : Parse Token s.size :=
  if h : s.head.kind = k then .ok ⟨s.head, s.tail, size_tail_lt (h ▸ hk)⟩
  else .error (.at_ s k.spelling)

end Stream

/-- How tightly an operator binds; 0 for what is no binary operator. -/
def Kind.precedence : Kind → Nat
  | .star | .kwDiv | .kwMod | .kwAnd => 40
  | .plus | .minus | .kwOr => 20
  | .lt | .le | .gt | .ge | .eq | .ne => 10
  | _ => 0

namespace Tree

/-! ## Expressions -/

mutual

/-- Reads an expression.  `neg` allows a minus sign before any operand; without it, only before a
number. -/
def readExpression (neg : Bool) (s : Stream) : Parse Tree s.size := do
  let ⟨first, s₁, h₁⟩ ← readPrimary neg s
  let ⟨whole, s₂, h₂⟩ ← readOperators neg 0 first s₁
  return ⟨whole, s₂, by omega⟩
termination_by 4 * s.size + 2

/-- Folds onto `left` the operators that bind tighter than `level`, each with its right operand,
which takes the operators that bind tighter still. -/
def readOperators (neg : Bool) (level : Nat) (left : Tree) (s : Stream) :
    Parse Tree (s.size + 1) :=
  let op := s.head
  if h : op.kind.precedence ≤ level then
    return ⟨left, s, by omega⟩
  else do
    have h₀ : s.tail.size < s.size := Stream.size_tail_lt fun eof => h (by simp [op, eof, Kind.precedence])
    let ⟨operand, s₁, h₁⟩ ← readPrimary neg s.tail
    let ⟨right, s₂, h₂⟩ ← readOperators neg op.kind.precedence operand s₁
    let ⟨whole, s₃, h₃⟩ ← readOperators neg level (.binary op op.kind left right) s₂
    return ⟨whole, s₃, by omega⟩
termination_by 4 * s.size + 3

/-- Reads an operand: a number, a string, a name with its index or arguments, a signed operand, or
an expression in parentheses. -/
def readPrimary (neg : Bool) (s : Stream) : Parse Tree s.size :=
  let t := s.head
  match h : t.kind with
  | .number => .ok ⟨.number t t.number, s.tail, Stream.size_tail_lt (by simp [t, h])⟩
  | .string => .ok ⟨.text t t.value, s.tail, Stream.size_tail_lt (by simp [t, h])⟩
  | .identifier => readReference neg s
  | .minus => do
    have h₀ : s.tail.size < s.size := Stream.size_tail_lt (by simp [t, h])
    if hn : s.tail.head.kind = .number then
      have h₁ : s.tail.tail.size < s.tail.size := Stream.size_tail_lt (by simp [hn])
      return ⟨.number t (-s.tail.head.number), s.tail.tail, by omega⟩
    else if neg then
      let ⟨operand, s₁, h₁⟩ ← readPrimary neg s.tail
      return ⟨.binary t .minus (.number t 0) operand, s₁, by omega⟩
    else
      throw (.at_ s.tail Kind.number.spelling)
  | .lparen => do
    have h₀ : s.tail.size < s.size := Stream.size_tail_lt (by simp [t, h])
    let ⟨inner, s₁, h₁⟩ ← readExpression neg s.tail
    let ⟨_, s₂, h₂⟩ ← s₁.expect .rparen
    return ⟨inner, s₂, by omega⟩
  | _ => throw (.at_ s "expression")
termination_by 4 * s.size + 1

/-- Reads a name, followed by arguments (a call), an index (an element) or nothing (a variable). -/
def readReference (neg : Bool) (s : Stream) : Parse Tree s.size := do
  let ⟨t, s₁, h₁⟩ ← s.expect .identifier
  if hp : s₁.head.kind = .lparen then
    have h₂ : s₁.tail.size < s₁.size := Stream.size_tail_lt (by simp [hp])
    if s₁.tail.head.kind = .rparen then
      let ⟨_, s₃, h₃⟩ ← s₁.tail.expect .rparen
      return ⟨.call t t.value [], s₃, by omega⟩
    else
      let ⟨args, s₃, h₃⟩ ← readArguments neg s₁.tail
      let ⟨_, s₄, h₄⟩ ← s₃.expect .rparen
      return ⟨.call t t.value args, s₄, by omega⟩
  else if hb : s₁.head.kind = .lbracket then
    have h₂ : s₁.tail.size < s₁.size := Stream.size_tail_lt (by simp [hb])
    let ⟨index, s₃, h₃⟩ ← readExpression neg s₁.tail
    let ⟨_, s₄, h₄⟩ ← s₃.expect .rbracket
    return ⟨.element t t.value index, s₄, by omega⟩
  else
    return ⟨.name t t.value, s₁, h₁⟩
termination_by 4 * s.size

/-- Reads one or more expressions with commas between them. -/
def readArguments (neg : Bool) (s : Stream) : Parse (List Tree) s.size := do
  let ⟨arg, s₁, h₁⟩ ← readExpression neg s
  if hc : s₁.head.kind = .comma then
    have h₂ : s₁.tail.size < s₁.size := Stream.size_tail_lt (by simp [hc])
    let ⟨args, s₃, h₃⟩ ← readArguments neg s₁.tail
    return ⟨arg :: args, s₃, by omega⟩
  else
    return ⟨[arg], s₁, h₁⟩
termination_by 4 * s.size + 3

end

/-! ## Statements -/

/-- Reads a statement that starts with a name: a call, an assignment, or a bare reference. -/
def readNamed (neg : Bool) (s : Stream) : Parse Tree s.size := do
  let ⟨target, s₁, h₁⟩ ← readReference neg s
  match target with
  | .call .. => return ⟨target, s₁, h₁⟩
  | _ =>
    if ha : s₁.head.kind = .assign then
      have h₂ : s₁.tail.size < s₁.size := Stream.size_tail_lt (by simp [ha])
      let ⟨value, s₃, h₃⟩ ← readExpression neg s₁.tail
      return ⟨.assign s₁.head target value, s₃, by omega⟩
    else
      return ⟨target, s₁, h₁⟩

/-- Reads the direction of a counting loop; `true` is downward. -/
def readDirection (s : Stream) : Parse Bool s.size :=
  if hu : s.head.kind = .kwTo then
    .ok ⟨false, s.tail, Stream.size_tail_lt (by simp [hu])⟩
  else if hd : s.head.kind = .kwDownto then
    .ok ⟨true, s.tail, Stream.size_tail_lt (by simp [hd])⟩
  else
    .error (.at_ s "to' or 'downto")

mutual

def readStatement (neg : Bool) (s : Stream) : Parse Tree s.size :=
  let t := s.head
  match h : t.kind with
  | .identifier => readNamed neg s
  | .kwIf => do
    have h₀ : s.tail.size < s.size := Stream.size_tail_lt (by simp [t, h])
    let ⟨cond, s₁, h₁⟩ ← readExpression neg s.tail
    let ⟨_, s₂, h₂⟩ ← s₁.expect .kwThen
    let ⟨yes, s₃, h₃⟩ ← readBody neg s₂
    if he : s₃.head.kind = .kwElse then
      have h₄ : s₃.tail.size < s₃.size := Stream.size_tail_lt (by simp [he])
      let ⟨no, s₅, h₅⟩ ← readBody neg s₃.tail
      return ⟨.branch t cond yes no, s₅, by omega⟩
    else
      return ⟨.branch t cond yes .absent, s₃, by omega⟩
  | .kwFor => do
    have h₀ : s.tail.size < s.size := Stream.size_tail_lt (by simp [t, h])
    let ⟨var, s₁, h₁⟩ ← s.tail.expect .identifier
    let ⟨_, s₂, h₂⟩ ← s₁.expect .assign
    let ⟨start, s₃, h₃⟩ ← readExpression neg s₂
    let ⟨down, s₄, h₄⟩ ← readDirection s₃
    let ⟨stop, s₅, h₅⟩ ← readExpression neg s₄
    let ⟨_, s₆, h₆⟩ ← s₅.expect .kwDo
    let ⟨body, s₇, h₇⟩ ← readBody neg s₆
    return ⟨.count t var.value start stop down body, s₇, by omega⟩
  | .kwWhile => do
    have h₀ : s.tail.size < s.size := Stream.size_tail_lt (by simp [t, h])
    let ⟨cond, s₁, h₁⟩ ← readExpression neg s.tail
    let ⟨_, s₂, h₂⟩ ← s₁.expect .kwDo
    let ⟨body, s₃, h₃⟩ ← readBody neg s₂
    return ⟨.loop t cond body, s₃, by omega⟩
  | .kwBegin => readCompound neg s
  | .kwBreak => return ⟨.leave t, s.tail, Stream.size_tail_lt (by simp [t, h])⟩
  | .kwExit => return ⟨.exit t, s.tail, Stream.size_tail_lt (by simp [t, h])⟩
  | _ => throw (.at_ s "statement")
termination_by 4 * s.size + 1

/-- Reads a body: a compound statement, or one statement in a block that starts where it starts. -/
def readBody (neg : Bool) (s : Stream) : Parse Tree s.size :=
  if s.head.kind = .kwBegin then readCompound neg s
  else do
    let ⟨stmt, s₁, h₁⟩ ← readStatement neg s
    return ⟨.block s.head [stmt], s₁, h₁⟩
termination_by 4 * s.size + 2

/-- Reads a compound statement, from its `begin` to its `end`. -/
def readCompound (neg : Bool) (s : Stream) : Parse Tree s.size := do
  let ⟨t, s₁, h₁⟩ ← s.expect .kwBegin
  let ⟨stmts, s₂, h₂⟩ ← readStatements neg s₁
  let ⟨_, s₃, h₃⟩ ← s₂.expect .kwEnd
  return ⟨.block t stmts, s₃, by omega⟩
termination_by 4 * s.size

/-- Reads statements up to an `end`, or up to one that no semicolon follows. -/
def readStatements (neg : Bool) (s : Stream) : Parse (List Tree) (s.size + 1) :=
  if s.head.kind = .kwEnd then
    return ⟨[], s, by omega⟩
  else if hs : s.head.kind = .semi then do
    have h₀ : s.tail.size < s.size := Stream.size_tail_lt (by simp [hs])
    let ⟨stmts, s₁, h₁⟩ ← readStatements neg s.tail
    return ⟨stmts, s₁, by omega⟩
  else do
    let ⟨stmt, s₁, h₁⟩ ← readStatement neg s
    if hs : s₁.head.kind = .semi then
      have h₂ : s₁.tail.size < s₁.size := Stream.size_tail_lt (by simp [hs])
      let ⟨stmts, s₃, h₃⟩ ← readStatements neg s₁.tail
      return ⟨stmt :: stmts, s₃, by omega⟩
    else
      return ⟨[stmt], s₁, by omega⟩
termination_by 4 * s.size + 3

end

/-! ## Types and names -/

/-- Reads a number with an optional minus sign. -/
def readSigned (s : Stream) : Parse Int64 s.size :=
  if hm : s.head.kind = .minus then do
    have h₀ : s.tail.size < s.size := Stream.size_tail_lt (by simp [hm])
    let ⟨t, s₁, h₁⟩ ← s.tail.expect .number
    return ⟨-t.number, s₁, by omega⟩
  else do
    let ⟨t, s₁, h₁⟩ ← s.expect .number
    return ⟨t.number, s₁, h₁⟩

/-- Reads a type.  The bounds of an array are compared once its element type has been read. -/
def readType (s : Stream) : Parse VarType s.size :=
  if hi : s.head.kind = .kwInteger then
    .ok ⟨.integer, s.tail, Stream.size_tail_lt (by simp [hi])⟩
  else if ha : s.head.kind = .kwArray then do
    have h₀ : s.tail.size < s.size := Stream.size_tail_lt (by simp [ha])
    let ⟨_, s₁, h₁⟩ ← s.tail.expect .lbracket
    let ⟨lower, s₂, h₂⟩ ← readSigned s₁
    let ⟨_, s₃, h₃⟩ ← s₂.expect .dotDot
    let ⟨upper, s₄, h₄⟩ ← readSigned s₃
    let ⟨_, s₅, h₅⟩ ← s₄.expect .rbracket
    let ⟨_, s₆, h₆⟩ ← s₅.expect .kwOf
    let ⟨elem, s₇, h₇⟩ ← readType s₆
    if upper < lower then throw (.emptyArray s.head lower upper)
    return ⟨.array lower upper elem, s₇, by omega⟩
  else
    .error (.at_ s Kind.kwInteger.spelling)
termination_by s.size

/-- Reads one or more names with commas between them. -/
def readNames (s : Stream) : Parse (List Token) s.size := do
  let ⟨t, s₁, h₁⟩ ← s.expect .identifier
  if hc : s₁.head.kind = .comma then
    have h₂ : s₁.tail.size < s₁.size := Stream.size_tail_lt (by simp [hc])
    let ⟨ts, s₃, h₃⟩ ← readNames s₁.tail
    return ⟨t :: ts, s₃, by omega⟩
  else
    return ⟨[t], s₁, h₁⟩
termination_by s.size

/-- Reads names, a colon and their common type: one declaration for each name. -/
def readGroup (s : Stream) : Parse (List Tree) s.size := do
  let ⟨names, s₁, h₁⟩ ← readNames s
  let ⟨_, s₂, h₂⟩ ← s₁.expect .colon
  let ⟨type, s₃, h₃⟩ ← readType s₂
  return ⟨names.map fun t => .varDecl t t.value type s₂.head, s₃, by omega⟩

/-! ## Declarations -/

/-- Reads a `var` declaration. -/
def readVariables (s : Stream) : Parse (List Tree) s.size := do
  let ⟨_, s₁, h₁⟩ ← s.expect .kwVar
  let ⟨decls, s₂, h₂⟩ ← readGroup s₁
  let ⟨_, s₃, h₃⟩ ← s₂.expect .semi
  return ⟨decls, s₃, by omega⟩

/-- Reads definitions of constants for as long as a name follows. -/
def readDefinitions (s : Stream) : Parse (List Tree) s.size := do
  let ⟨t, s₁, h₁⟩ ← s.expect .identifier
  let ⟨_, s₂, h₂⟩ ← s₁.expect .eq
  let ⟨value, s₃, h₃⟩ ← readSigned s₂
  let ⟨_, s₄, h₄⟩ ← s₃.expect .semi
  let decl := .constDecl t t.value value
  if s₄.head.kind = .identifier then
    let ⟨decls, s₅, h₅⟩ ← readDefinitions s₄
    return ⟨decl :: decls, s₅, by omega⟩
  else
    return ⟨[decl], s₄, by omega⟩
termination_by s.size

/-- Reads a `const` section. -/
def readConstants (s : Stream) : Parse (List Tree) s.size := do
  let ⟨_, s₁, h₁⟩ ← s.expect .kwConst
  let ⟨decls, s₂, h₂⟩ ← readDefinitions s₁
  return ⟨decls, s₂, by omega⟩

/-- Reads groups of parameters for as long as a name follows; semicolons part the groups, and one
may stand behind the last. -/
def readParameters (s : Stream) : Parse (List Tree) (s.size + 1) :=
  if s.head.kind = .identifier then do
    let ⟨group, s₁, h₁⟩ ← readGroup s
    if hs : s₁.head.kind = .semi then
      have h₂ : s₁.tail.size < s₁.size := Stream.size_tail_lt (by simp [hs])
      let ⟨groups, s₃, h₃⟩ ← readParameters s₁.tail
      return ⟨group ++ groups, s₃, by omega⟩
    else
      return ⟨group, s₁, by omega⟩
  else
    return ⟨[], s, by omega⟩
termination_by s.size

/-- Reads parameters in parentheses, or nothing. -/
def readParameterList (s : Stream) : Parse (List Tree) (s.size + 1) :=
  if hp : s.head.kind = .lparen then do
    have h₀ : s.tail.size < s.size := Stream.size_tail_lt (by simp [hp])
    let ⟨params, s₁, h₁⟩ ← readParameters s.tail
    let ⟨_, s₂, h₂⟩ ← s₁.expect .rparen
    return ⟨params, s₂, by omega⟩
  else
    return ⟨[], s, by omega⟩

/-- Reads the result type of a function; a procedure has none. -/
def readResult (isFunction : Bool) (s : Stream) : Parse VarType (s.size + 1) :=
  if isFunction then do
    let ⟨_, s₁, h₁⟩ ← s.expect .colon
    let ⟨type, s₂, h₂⟩ ← readType s₁
    return ⟨type, s₂, by omega⟩
  else
    return ⟨.void, s, by omega⟩

/-- Reads the `var` declarations of a routine. -/
def readLocals (s : Stream) : Parse (List Tree) (s.size + 1) :=
  if s.head.kind = .kwVar then do
    let ⟨decls, s₁, h₁⟩ ← readVariables s
    let ⟨more, s₂, h₂⟩ ← readLocals s₁
    return ⟨decls ++ more, s₂, by omega⟩
  else
    return ⟨[], s, by omega⟩
termination_by s.size

/-- Reads a routine behind its first word: name, parameters, result, and either `forward` or locals
and a compound statement. -/
def readRoutine (neg isFunction : Bool) (t : Token) (s : Stream) : Parse Tree s.size := do
  let ⟨id, s₁, h₁⟩ ← s.expect .identifier
  let ⟨params, s₂, h₂⟩ ← readParameterList s₁
  let ⟨result, s₃, h₃⟩ ← readResult isFunction s₂
  let ⟨_, s₄, h₄⟩ ← s₃.expect .semi
  if hf : s₄.head.kind = .kwForward then
    have h₅ : s₄.tail.size < s₄.size := Stream.size_tail_lt (by simp [hf])
    let ⟨_, s₆, h₆⟩ ← s₄.tail.expect .semi
    return ⟨.routine t id.value params result [] .absent, s₆, by omega⟩
  else
    let ⟨locals, s₅, h₅⟩ ← readLocals s₄
    let ⟨body, s₆, h₆⟩ ← readCompound neg s₅
    let ⟨_, s₇, h₇⟩ ← s₆.expect .semi
    return ⟨.routine t id.value params result locals body, s₇, by omega⟩

/-! ## Programs -/

/-- The declarations of a program: variables and constants, and routines. -/
structure Declarations where
  decls : List Tree := []
  routines : List Tree := []

/-- Reads declarations for as long as one follows. -/
def readDeclarations (neg : Bool) (s : Stream) : Parse Declarations (s.size + 1) :=
  match h : s.head.kind with
  | .kwVar => do
    let ⟨decls, s₁, h₁⟩ ← readVariables s
    let ⟨later, s₂, h₂⟩ ← readDeclarations neg s₁
    return ⟨{ later with decls := decls ++ later.decls }, s₂, by omega⟩
  | .kwConst => do
    let ⟨decls, s₁, h₁⟩ ← readConstants s
    let ⟨later, s₂, h₂⟩ ← readDeclarations neg s₁
    return ⟨{ later with decls := decls ++ later.decls }, s₂, by omega⟩
  | .kwFunction => do
    have h₀ : s.tail.size < s.size := Stream.size_tail_lt (by simp [h])
    let ⟨decl, s₁, h₁⟩ ← readRoutine neg true s.head s.tail
    let ⟨later, s₂, h₂⟩ ← readDeclarations neg s₁
    return ⟨{ later with routines := decl :: later.routines }, s₂, by omega⟩
  | .kwProcedure => do
    have h₀ : s.tail.size < s.size := Stream.size_tail_lt (by simp [h])
    let ⟨decl, s₁, h₁⟩ ← readRoutine neg false s.head s.tail
    let ⟨later, s₂, h₂⟩ ← readDeclarations neg s₁
    return ⟨{ later with routines := decl :: later.routines }, s₂, by omega⟩
  | _ => return ⟨{}, s, by omega⟩
termination_by s.size

/-- Reads a program, and the end of input behind it.  The stream returned stands behind the
end-of-input token. -/
def read (neg : Bool) (s : Stream) : Except SyntaxFault (Tree × Stream) := do
  let ⟨t, s₁, _⟩ ← s.expect .kwProgram
  let ⟨id, s₂, _⟩ ← s₁.expect .identifier
  let ⟨_, s₃, _⟩ ← s₂.expect .semi
  let ⟨ds, s₄, _⟩ ← readDeclarations neg s₃
  let ⟨main, s₅, _⟩ ← readBody neg s₄
  let ⟨_, s₆, _⟩ ← s₅.expect .dot
  if s₆.head.kind ≠ .eof then throw (.at_ s₆ Kind.eof.spelling)
  return (.program t id.value ds.decls ds.routines main, s₆.tail)

/-- The program that a stream of tokens spells. -/
def ofTokens (neg : Bool) (s : Stream) : Except SyntaxFault Tree :=
  (read neg s).map Prod.fst

/-- The program that a text spells. -/
def ofSource (on : Switches Feature) (source : String) : Except SyntaxFault Tree :=
  ofTokens (on .negExpr) (tokenize on 0 source)

end Tree

end MiniPascal
