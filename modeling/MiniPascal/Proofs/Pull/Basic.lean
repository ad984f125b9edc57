import MiniPascal.Tree.Reader

/-!
# Reading tokens one at a time

The readers of `Tree.Reader` are functions of a whole stream. A `Pull` is a reader that is handed its
tokens one at a time: it can look at the token at which it stands, and only by passing that token does
it come to see the next one. How many tokens it has seen is then a matter of how far it has come, and
what it does cannot depend on any token behind.

`Pull.program` reads programs in this way. Its recursion is bounded by a depth, and a reader that has
come to the end of its depth is stuck. `Proofs.Pull.Follow` shows that it does what `Tree.read` does, and
how much depth is enough for a list of tokens.
-/

namespace MiniPascal

namespace Stream

variable (s : Stream)

/-- The token with a given index. Behind the last one there are only end-of-input tokens. -/
def token (i : Nat) : Token := s.tokens.getD i s.ending

/-- The stream behind a number of its tokens. -/
def drop (n : Nat) : Stream := { s with tokens := s.tokens.drop n }

theorem token_zero : s.token 0 = s.head := by
  rw [token, head, List.getD_eq_getElem?_getD, List.headD_eq_head?_getD, List.head?_eq_getElem?]

theorem token_tail (i : Nat) : s.tail.token i = s.token (i + 1) := by
  simp only [token, tail, List.getD_eq_getElem?_getD, List.getElem?_tail]
  rfl

theorem drop_tail (n : Nat) : s.tail.drop n = s.drop (n + 1) := by
  simp only [drop, tail, List.drop_tail]

theorem size_drop (n : Nat) : (s.drop n).size = s.size - n := List.length_drop

end Stream

/-- A reader that is handed tokens one at a time. -/
inductive Pull (α : Type) where
  | ret (value : α)
  /-- Something else is expected in place of the token at which the reader stands. -/
  | fail (expected : String)
  /-- The bounds of an array that has been read are out of order. -/
  | refuse (array : Token) (lower upper : Int64)
  /-- The depth of the reader is used up. -/
  | stuck
  /-- What the reader does next depends on the token at which it stands. -/
  | look (next : Token → Pull α)
  /-- The reader goes on to the next token. -/
  | pass (next : Pull α)

namespace Pull

variable {α β : Type}

/-! ## Running a reader -/

/-- One reader after the other. -/
def andThen : Pull α → (α → Pull β) → Pull β
  | ret a, f => f a
  | fail expected, _ => fail expected
  | refuse array lower upper, _ => refuse array lower upper
  | stuck, _ => stuck
  | look next, f => look fun t => (next t).andThen f
  | pass next, f => pass (next.andThen f)

instance : Monad Pull where
  pure := ret
  bind := andThen

/-- What a reader returns on a stream and where it then stands, or its fault; nothing if it is
stuck. -/
def run : Pull α → Stream → Option (Except SyntaxFault (α × Stream))
  | ret a, s => some (.ok (a, s))
  | fail expected, s => some (.error (.at_ s expected))
  | refuse array lower upper, _ => some (.error (.emptyArray array lower upper))
  | stuck, _ => none
  | look next, s => (next s.head).run s
  | pass next, s => next.run s.tail

/-- How many tokens of a stream a reader passes. In the end it stands at the token with this index. -/
def passed : Pull α → Stream → Nat
  | ret _, _ | fail _, _ | refuse .., _ | stuck, _ => 0
  | look next, s => (next s.head).passed s
  | pass next, s => next.passed s.tail + 1

/-- How many tokens a reader has been handed in the end: those it passed, and the one at which it
stands. -/
def handed (p : Pull α) (s : Stream) : Nat := p.passed s + 1

theorem run_look (next : Token → Pull α) (s : Stream) : (look next).run s = (next s.head).run s := rfl

theorem passed_look (next : Token → Pull α) (s : Stream) : (look next).passed s = (next s.head).passed s := rfl

section Running

variable {p : Pull α} {f : α → Pull β} {s s' : Stream} {a : α} {e : SyntaxFault}

theorem run_bind_ok (run : p.run s = some (.ok (a, s'))) : (p >>= f).run s = (f a).run s' := by
  induction p generalizing s with
  | ret b =>
    cases run
    rfl
  | look next ih => exact ih s.head run
  | pass next ih => exact ih run
  | _ => cases run

theorem run_bind_error (run : p.run s = some (.error e)) : (p >>= f).run s = some (.error e) := by
  induction p generalizing s with
  | ret b | stuck => cases run
  | look next ih => exact ih s.head run
  | pass next ih => exact ih run
  | fail | refuse =>
    cases run
    rfl

/-- Of two readers one after the other, the first fails or the second has the last word. -/
theorem of_run_bind (run : (p >>= f).run s = some r) :
    (∃ e, p.run s = some (.error e) ∧ r = .error e) ∨
    ∃ a s', p.run s = some (.ok (a, s')) ∧ (f a).run s' = some r := by
  induction p generalizing s with
  | ret a => exact .inr ⟨a, s, rfl, run⟩
  | look next ih => exact ih s.head run
  | pass next ih => exact ih run
  | fail | refuse => exact .inl ⟨_, rfl, (Option.some.inj run).symm⟩
  | stuck => cases run

/-- If two readers one after the other return, then both do. -/
theorem of_run_bind_ok (run : (p >>= f).run s = some (.ok (b, rest))) :
    ∃ a s', p.run s = some (.ok (a, s')) ∧ (f a).run s' = some (.ok (b, rest)) := by
  rcases of_run_bind run with ⟨e, -, fault⟩ | returns
  · cases fault
  · exact returns

theorem passed_bind_ok (run : p.run s = some (.ok (a, s'))) : (p >>= f).passed s = p.passed s + (f a).passed s' := by
  induction p generalizing s with
  | ret b =>
    cases run
    exact (Nat.zero_add _).symm
  | look next ih => exact ih s.head run
  | pass next ih =>
    have later := ih run
    change (next >>= f).passed s.tail + 1 = next.passed s.tail + 1 + _
    omega
  | _ => cases run

theorem passed_bind_error (run : p.run s = some (.error e)) : (p >>= f).passed s = p.passed s := by
  induction p generalizing s with
  | ret b | stuck => cases run
  | look next ih => exact ih s.head run
  | pass next ih => exact congrArg Nat.succ (ih run)
  | fail | refuse => rfl

/-- A reader leaves the tokens that it has not passed. -/
theorem rest_eq_drop (run : p.run s = some (.ok (a, s'))) : s' = s.drop (p.passed s) := by
  induction p generalizing s with
  | ret b =>
    cases run
    rfl
  | look next ih => exact ih s.head run
  | pass next ih =>
    rw [ih run, s.drop_tail]
    rfl
  | _ => cases run

/-- A fault other than that of an array is found at the token at which the reader stands. -/
theorem token_of_fault (run : p.run s = some (.error e)) (noArray : ∀ t l u, e ≠ .emptyArray t l u) :
    e.token = s.token (p.passed s) := by
  induction p generalizing s with
  | fail expected =>
    cases run
    rw [passed, s.token_zero, SyntaxFault.at_]
    split <;> rfl
  | refuse array lower upper =>
    cases run
    exact absurd rfl (noArray array lower upper)
  | look next ih => exact ih s.head run
  | pass next ih => exact (ih run).trans (s.token_tail _)
  | ret | stuck => cases run

/-- A reader that sees the same tokens finds the same fault. -/
theorem run_of_agree (run : p.run s = some (.error e))
    (agree : ∀ i ≤ p.passed s, s'.token i = s.token i) : p.run s' = some (.error e) := by
  induction p generalizing s s' with
  | fail expected =>
    cases run
    have same : s'.head = s.head := by
      rw [← s'.token_zero, ← s.token_zero]
      exact agree 0 (Nat.zero_le _)
    rw [Pull.run, SyntaxFault.at_, SyntaxFault.at_, same]
  | refuse array lower upper => exact run
  | look next ih =>
    have same : s'.head = s.head := by
      rw [← s'.token_zero, ← s.token_zero]
      exact agree 0 (Nat.zero_le _)
    rw [Pull.run, same]
    exact ih s.head run agree
  | pass next ih =>
    refine ih run fun i le => ?_
    rw [s'.token_tail, s.token_tail]
    exact agree (i + 1) (Nat.succ_le_succ le)
  | ret | stuck => cases run

end Running

/-! ## Single tokens -/

/-- Looks at the token at which the reader stands. -/
def peek : Pull Token := look ret

/-- Passes a token. -/
def advance : Pull Unit := pass (ret ())

/-- Passes a token if it is of a given kind, and says whether it was. -/
def accept (k : Kind) : Pull Bool := look fun t => if t.kind = k then pass (ret true) else ret false

/-- Passes a token that has to be of a given kind. -/
def expect (k : Kind) : Pull Token := look fun t => if t.kind = k then pass (ret t) else fail k.spelling

section Tokens

variable {k : Kind} {s : Stream}

theorem accept_of (kind : s.head.kind = k) :
    (accept k).run s = some (.ok (true, s.tail)) ∧ (accept k).passed s = 1 := by
  rw [accept, run_look, passed_look, if_pos kind]
  exact ⟨rfl, rfl⟩

theorem accept_of_ne (kind : s.head.kind ≠ k) : (accept k).run s = some (.ok (false, s)) ∧ (accept k).passed s = 0 := by
  rw [accept, run_look, passed_look, if_neg kind]
  exact ⟨rfl, rfl⟩

theorem expect_of (kind : s.head.kind = k) :
    (expect k).run s = some (.ok (s.head, s.tail)) ∧ (expect k).passed s = 1 := by
  rw [expect, run_look, passed_look, if_pos kind]
  exact ⟨rfl, rfl⟩

theorem expect_of_ne (kind : s.head.kind ≠ k) :
    (expect k).run s = some (.error (.at_ s k.spelling)) ∧ (expect k).passed s = 0 := by
  rw [expect, run_look, passed_look, if_neg kind]
  exact ⟨rfl, rfl⟩

end Tokens

/-! ## Expressions -/

/-- Reads an operand behind the minus sign `t`: a number, or any operand if `neg` allows it. -/
def negative (neg : Bool) (t : Token) (operand : Pull Tree) : Pull Tree := do
  let digits ← peek
  if digits.kind = .number then
    advance
    return .number t (-digits.number)
  else if neg then
    let right ← operand
    return .binary t .minus (.number t 0) right
  else
    fail Kind.number.spelling

mutual

/-- Reads an expression. -/
def expression (neg : Bool) : Nat → Pull Tree
  | 0 => stuck
  | n + 1 => do
    let first ← primary neg n
    operators neg n 0 first

/-- Folds the operators that bind tighter than `level` onto `left`. -/
def operators (neg : Bool) : Nat → Nat → Tree → Pull Tree
  | 0, _, _ => stuck
  | n + 1, level, left => do
    let op ← peek
    if op.kind.precedence ≤ level then
      return left
    else
      advance
      let operand ← primary neg n
      let right ← operators neg n op.kind.precedence operand
      operators neg n level (.binary op op.kind left right)

/-- Reads an operand. -/
def primary (neg : Bool) : Nat → Pull Tree
  | 0 => stuck
  | n + 1 => do
    let t ← peek
    match t.kind with
    | .number =>
      advance
      return .number t t.number
    | .string =>
      advance
      return .text t t.value
    | .identifier => reference neg n
    | .minus =>
      advance
      negative neg t (primary neg n)
    | .lparen =>
      advance
      let inner ← expression neg n
      let _ ← expect .rparen
      return inner
    | _ => fail "expression"

/-- Reads a name with its arguments or its index. -/
def reference (neg : Bool) : Nat → Pull Tree
  | 0 => stuck
  | n + 1 => do
    let t ← expect .identifier
    if ← accept .lparen then
      if ← accept .rparen then
        return .call t t.value []
      else
        let args ← arguments neg n
        let _ ← expect .rparen
        return .call t t.value args
    else
      if ← accept .lbracket then
        let index ← expression neg n
        let _ ← expect .rbracket
        return .element t t.value index
      else
        return .name t t.value

/-- Reads one or more expressions with commas between them. -/
def arguments (neg : Bool) : Nat → Pull (List Tree)
  | 0 => stuck
  | n + 1 => do
    let arg ← expression neg n
    if ← accept .comma then
      let args ← arguments neg n
      return arg :: args
    else
      return [arg]

end

/-! ## Statements -/

/-- Reads a statement that starts with a name. -/
def named (neg : Bool) (n : Nat) : Pull Tree := do
  let target ← reference neg n
  match target with
  | .call .. => return target
  | _ =>
    let t ← peek
    if t.kind = .assign then
      advance
      let value ← expression neg n
      return .assign t target value
    else
      return target

/-- Reads the direction of a counting loop. -/
def direction : Pull Bool := do
  if ← accept .kwTo then
    return false
  else
    if ← accept .kwDownto then
      return true
    else
      fail "to' or 'downto"

mutual

/-- Reads a statement. -/
def statement (neg : Bool) : Nat → Pull Tree
  | 0 => stuck
  | n + 1 => do
    let t ← peek
    match t.kind with
    | .identifier => named neg n
    | .kwIf =>
      advance
      let cond ← expression neg n
      let _ ← expect .kwThen
      let yes ← body neg n
      if ← accept .kwElse then
        let no ← body neg n
        return .branch t cond yes no
      else
        return .branch t cond yes .absent
    | .kwFor =>
      advance
      let var ← expect .identifier
      let _ ← expect .assign
      let start ← expression neg n
      let down ← direction
      let stop ← expression neg n
      let _ ← expect .kwDo
      let body ← body neg n
      return .count t var.value start stop down body
    | .kwWhile =>
      advance
      let cond ← expression neg n
      let _ ← expect .kwDo
      let body ← body neg n
      return .loop t cond body
    | .kwBegin => compound neg n
    | .kwBreak =>
      advance
      return .leave t
    | .kwExit =>
      advance
      return .exit t
    | _ => fail "statement"

/-- Reads a body. -/
def body (neg : Bool) : Nat → Pull Tree
  | 0 => stuck
  | n + 1 => do
    let t ← peek
    if t.kind = .kwBegin then
      compound neg n
    else
      let stmt ← statement neg n
      return .block t [stmt]

/-- Reads a compound statement. -/
def compound (neg : Bool) : Nat → Pull Tree
  | 0 => stuck
  | n + 1 => do
    let t ← expect .kwBegin
    let stmts ← statements neg n
    let _ ← expect .kwEnd
    return .block t stmts

/-- Reads statements up to an `end`, or up to one that no semicolon follows. -/
def statements (neg : Bool) : Nat → Pull (List Tree)
  | 0 => stuck
  | n + 1 => do
    let t ← peek
    if t.kind = .kwEnd then
      return []
    else
      if ← accept .semi then
        statements neg n
      else
        let stmt ← statement neg n
        if ← accept .semi then
          let stmts ← statements neg n
          return stmt :: stmts
        else
          return [stmt]

end

/-! ## Declarations -/

/-- Reads a number with an optional minus sign. -/
def signed : Pull Int64 := do
  if ← accept .minus then
    let t ← expect .number
    return -t.number
  else
    let t ← expect .number
    return t.number

/-- Reads a type. -/
def type : Nat → Pull VarType
  | 0 => stuck
  | n + 1 => do
    let t ← peek
    if ← accept .kwInteger then
      return .integer
    else
      if ← accept .kwArray then
        let _ ← expect .lbracket
        let lower ← signed
        let _ ← expect .dotDot
        let upper ← signed
        let _ ← expect .rbracket
        let _ ← expect .kwOf
        let elem ← type n
        if upper < lower then
          refuse t lower upper
        else
          return .array lower upper elem
      else
        fail Kind.kwInteger.spelling

/-- Reads one or more names with commas between them. -/
def names : Nat → Pull (List Token)
  | 0 => stuck
  | n + 1 => do
    let t ← expect .identifier
    if ← accept .comma then
      let ts ← names n
      return t :: ts
    else
      return [t]

/-- Reads names, a colon and their common type. -/
def group (n : Nat) : Pull (List Tree) := do
  let names ← names n
  let _ ← expect .colon
  let first ← peek
  let type ← type n
  return names.map fun t => .varDecl t t.value type first

/-- Reads a `var` declaration. -/
def vars (n : Nat) : Pull (List Tree) := do
  let _ ← expect .kwVar
  let decls ← group n
  let _ ← expect .semi
  return decls

/-- Reads definitions of constants for as long as a name follows. -/
def definitions : Nat → Pull (List Tree)
  | 0 => stuck
  | n + 1 => do
    let t ← expect .identifier
    let _ ← expect .eq
    let value ← signed
    let _ ← expect .semi
    let next ← peek
    if next.kind = .identifier then
      let decls ← definitions n
      return .constDecl t t.value value :: decls
    else
      return [.constDecl t t.value value]

/-- Reads a `const` section. -/
def constants (n : Nat) : Pull (List Tree) := do
  let _ ← expect .kwConst
  definitions n

/-- Reads groups of parameters for as long as a name follows. -/
def parameters : Nat → Pull (List Tree)
  | 0 => stuck
  | n + 1 => do
    let t ← peek
    if t.kind = .identifier then
      let first ← group n
      if ← accept .semi then
        let groups ← parameters n
        return first ++ groups
      else
        return first
    else
      return []

/-- Reads parameters in parentheses, or nothing. -/
def parameterList (n : Nat) : Pull (List Tree) := do
  if ← accept .lparen then
    let params ← parameters n
    let _ ← expect .rparen
    return params
  else
    return []

/-- Reads the result type of a function. -/
def result (isFunction : Bool) (n : Nat) : Pull VarType :=
  if isFunction then do
    let _ ← expect .colon
    type n
  else
    return .void

/-- Reads the `var` declarations of a routine. -/
def locals : Nat → Pull (List Tree)
  | 0 => stuck
  | n + 1 => do
    let t ← peek
    if t.kind = .kwVar then
      let decls ← vars n
      let more ← locals n
      return decls ++ more
    else
      return []

/-- Reads a routine behind its first word. -/
def routine (neg isFunction : Bool) (t : Token) (n : Nat) : Pull Tree := do
  let id ← expect .identifier
  let params ← parameterList n
  let result ← result isFunction n
  let _ ← expect .semi
  if ← accept .kwForward then
    let _ ← expect .semi
    return .routine t id.value params result [] .absent
  else
    let locals ← locals n
    let body ← compound neg n
    let _ ← expect .semi
    return .routine t id.value params result locals body

/-! ## Programs -/

/-- Reads declarations for as long as one follows. -/
def declarations (neg : Bool) : Nat → Pull Tree.Declarations
  | 0 => stuck
  | n + 1 => do
    let t ← peek
    match t.kind with
    | .kwVar =>
      let decls ← vars n
      let later ← declarations neg n
      return { later with decls := decls ++ later.decls }
    | .kwConst =>
      let decls ← constants n
      let later ← declarations neg n
      return { later with decls := decls ++ later.decls }
    | .kwFunction =>
      advance
      let decl ← routine neg true t n
      let later ← declarations neg n
      return { later with routines := decl :: later.routines }
    | .kwProcedure =>
      advance
      let decl ← routine neg false t n
      let later ← declarations neg n
      return { later with routines := decl :: later.routines }
    | _ => return {}

/-- Reads a program up to its full stop. -/
def sentence (neg : Bool) (n : Nat) : Pull Tree := do
  let t ← expect .kwProgram
  let id ← expect .identifier
  let _ ← expect .semi
  let ds ← declarations neg n
  let main ← body neg n
  let _ ← expect .dot
  return .program t id.value ds.decls ds.routines main

/-- Reads a program, and the end of input behind it. -/
def program (neg : Bool) (n : Nat) : Pull Tree := do
  let tree ← sentence neg n
  let _ ← expect .eof
  return tree

end Pull

end MiniPascal
