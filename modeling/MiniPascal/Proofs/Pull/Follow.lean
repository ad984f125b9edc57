import MiniPascal.Proofs.Pull.Basic

/-!
# Reading token by token is reading

`Follows p s r` says that the reader `p`, which is handed the tokens of `s` one at a time, comes to what
`r` comes to, and passes only tokens that are listed. The readers of `Pull` have the text of those of
`Tree`, so there is one lemma for each. A reader needs as much depth as the measure by which its
counterpart ends.
-/

namespace MiniPascal

namespace Tree

/-- What a reader returned and what it left, or its fault. -/
def outcome {α : Type} {n : Nat} (r : Parse α n) : Except SyntaxFault (α × Stream) :=
  r.map fun x => (x.value, x.rest)

/-- A last part that only widens the bound on what is left. -/
theorem outcome_last {α : Type} {r : Parse α n} {f : Parsed α n → Parse α m}
    (same : ∀ v rest lt, outcome (f ⟨v, rest, lt⟩) = .ok (v, rest)) : outcome (r >>= f) = outcome r := by
  cases r with
  | error e => rfl
  | ok x => exact same x.value x.rest x.size_lt

theorem exists_of_bind_ok {α β : Type} {r : Except SyntaxFault α}
    {f : α → Except SyntaxFault β} {b : β} (run : r >>= f = .ok b) : ∃ a, r = .ok a ∧ f a = .ok b := by
  cases r with
  | error e => cases run
  | ok a => exact ⟨a, rfl, run⟩

theorem ne_eof_of_beq {k : Kind} (other : (k == .eof) = false) : k ≠ .eof := by simpa using other

theorem kwProgram_ne_eof : Kind.kwProgram ≠ .eof := by decide

theorem identifier_ne_eof : Kind.identifier ≠ .eof := by decide

theorem semi_ne_eof : Kind.semi ≠ .eof := by decide

theorem dot_ne_eof : Kind.dot ≠ .eof := by decide

/-- Reads a program up to its full stop. -/
def readSentence (neg : Bool) (s : Stream) : Parse Tree s.size := do
  let t ← s.expect .kwProgram kwProgram_ne_eof
  let id ← t.rest.expect .identifier identifier_ne_eof
  let semi ← id.rest.expect .semi semi_ne_eof
  let ds ← readDeclarations neg semi.rest
  let main ← readBody neg ds.rest
  let dot ← main.rest.expect .dot dot_ne_eof
  return ⟨.program t.value id.value.value ds.value.decls ds.value.routines main.value, dot.rest, by
    have := t.size_lt
    have := id.size_lt
    have := semi.size_lt
    have := ds.size_lt
    have := main.size_lt
    have := dot.size_lt
    omega⟩

/-- A program is read up to its full stop, and then comes the end of input. -/
theorem read_eq_sentence (neg : Bool) (s : Stream) : Tree.read neg s = readSentence neg s >>= fun x =>
      if x.rest.head.kind = .eof then .ok (x.value, x.rest.tail)
      else .error (.at_ x.rest Kind.eof.spelling) := by
  unfold Tree.read readSentence
  simp only [bind_assoc, pure_bind]
  refine bind_congr fun t => bind_congr fun id => bind_congr fun semi => bind_congr fun ds =>
    bind_congr fun main => bind_congr fun dot => ?_
  split
  · next more =>
    rfl
  · next ends =>
    rw [if_pos (Decidable.not_not.mp ends)]
    rfl

end Tree

namespace Pull

open Tree

/-- A reader that is handed tokens one at a time comes to a given outcome, and does not pass the end of
input. -/
structure Follows {α : Type} {m : Nat} (p : Pull α) (s : Stream) (r : Parse α m) : Prop where
  run : p.run s = some (outcome r)
  passed_le : p.passed s ≤ s.size

namespace Follows

variable {α β : Type} {m l : Nat} {s : Stream} {r : Parse α m} {p q : Pull α}

theorem ret : Follows (.ret a) s (.ok ⟨a, s, lt⟩ : Parse α m) :=
  ⟨rfl, Nat.zero_le _⟩

theorem fail : Follows (.fail expected) s (.error (.at_ s expected) : Parse α m) :=
  ⟨rfl, Nat.zero_le _⟩

/-- The next token is passed. -/
theorem pass (known : s.head.kind ≠ .eof) (later : Follows p s.tail r) : Follows (.pass p) s r := by
  refine ⟨later.run, ?_⟩
  have le := later.passed_le
  have shorter := Stream.size_tail_lt known
  change p.passed s.tail + 1 ≤ s.size
  omega

theorem advance {f : Unit → Pull α} (known : s.head.kind ≠ .eof)
    (later : s.tail.size < s.size → Follows (f ()) s.tail r) : Follows (Pull.advance >>= f) s r :=
  pass known (later (Stream.size_tail_lt known))

theorem peek {f : Token → Pull α} (next : Follows (f s.head) s r) : Follows (Pull.peek >>= f) s r :=
  ⟨next.run, next.passed_le⟩

/-- One reader after the other. -/
theorem bind {f : α → Pull β} {g : Parsed α m → Parse β l} (first : Follows p s r)
    (next : ∀ a rest lt, Follows (f a) rest (g ⟨a, rest, lt⟩)) : Follows (p >>= f) s (r >>= g) := by
  obtain ⟨run, le⟩ := first
  cases r with
  | error e =>
    refine ⟨run_bind_error run, ?_⟩
    rw [passed_bind_error run]
    exact le
  | ok x =>
    have later := next x.value x.rest x.size_lt
    refine ⟨(run_bind_ok run).trans later.run, ?_⟩
    have left : x.rest.size = s.size - p.passed s := by
      rw [rest_eq_drop run, Stream.size_drop]
    have le' := later.passed_le
    rw [passed_bind_ok run]
    omega

variable {k : Kind}

/-- A token of the kind asked for is passed. -/
theorem accepted (hk : (k == .eof) = false) (kind : s.head.kind = k)
    (later : s.tail.size < s.size → Follows p s.tail r) :
    Follows (Pull.accept k >>= fun b => if b = true then p else q) s r := by
  have later := later (Stream.size_tail_lt (kind ▸ ne_eof_of_beq hk))
  refine ⟨(run_bind_ok (accept_of kind).1).trans later.run, ?_⟩
  rw [passed_bind_ok (accept_of kind).1, (accept_of kind).2, Nat.add_comm]
  exact (pass (kind ▸ ne_eof_of_beq hk) later).passed_le

/-- A token of another kind is left. -/
theorem declined (kind : ¬ s.head.kind = k) (later : Follows q s r) :
    Follows (Pull.accept k >>= fun b => if b = true then p else q) s r := by
  refine ⟨(run_bind_ok (accept_of_ne kind).1).trans later.run, ?_⟩
  rw [passed_bind_ok (accept_of_ne kind).1, (accept_of_ne kind).2, Nat.zero_add]
  exact later.passed_le

theorem expect : Follows (Pull.expect k) s (s.expect k hk) := by
  unfold Stream.expect
  split
  · next kind =>
    have shorter := Stream.size_tail_lt (kind ▸ hk)
    refine ⟨(expect_of kind).1, ?_⟩
    rw [(expect_of kind).2]
    omega
  · next kind =>
    refine ⟨(expect_of_ne kind).1, ?_⟩
    rw [(expect_of_ne kind).2]
    exact Nat.zero_le _

/-- A last part that returns what it was given. -/
theorem last {g : Parsed α m → Parse α l} (first : Follows p s r)
    (next : ∀ a rest lt, ∃ lt', g ⟨a, rest, lt⟩ = .ok ⟨a, rest, lt'⟩) : Follows p s (r >>= g) := by
  refine ⟨?_, first.passed_le⟩
  rw [first.run, outcome_last]
  intro a rest lt
  obtain ⟨lt', same⟩ := next a rest lt
  rw [same]
  rfl

end Follows

/-! ## Expressions -/

/-- The readers of expressions with depth `n` follow their counterparts on streams that are short
enough. -/
structure ExpressionFollows (neg : Bool) (n : Nat) : Prop where
  expression : ∀ s : Stream, 4 * s.size + 2 < n → Follows (expression neg n) s (readExpression neg s)
  operators : ∀ (s : Stream) (level : Nat) (left : Tree), 4 * s.size + 3 < n →
    Follows (operators neg n level left) s (readOperators neg level left s)
  primary : ∀ s : Stream, 4 * s.size + 1 < n → Follows (primary neg n) s (readPrimary neg s)
  reference : ∀ s : Stream, 4 * s.size < n → Follows (reference neg n) s (readReference neg s)
  arguments : ∀ s : Stream, 4 * s.size + 3 < n → Follows (arguments neg n) s (readArguments neg s)

section Expressions

variable {neg : Bool} {n : Nat} (ih : ExpressionFollows neg n)

include ih

theorem follows_expression_step (s : Stream) (enough : 4 * s.size + 2 < n + 1) :
    Follows (expression neg (n + 1)) s (readExpression neg s) := by
  unfold readExpression
  refine .bind (ih.primary s (by omega)) fun first s₁ h₁ => ?_
  exact .last (ih.operators s₁ 0 first (by omega)) fun _ _ _ => ⟨_, rfl⟩

theorem follows_operators_step (s : Stream) (level : Nat) (left : Tree) (enough : 4 * s.size + 3 < n + 1) :
    Follows (operators neg (n + 1) level left) s (readOperators neg level left s) := by
  unfold readOperators
  refine .peek ?_
  dsimp only
  split
  · exact .ret
  · next above =>
    have known : s.head.kind ≠ .eof := fun eof => above (by simp [eof, Kind.precedence])
    refine .advance known fun _ => ?_
    refine .bind (ih.primary _ (by omega)) fun operand s₁ h₁ => ?_
    refine .bind (ih.operators _ _ _ (by omega)) fun right s₂ h₂ => ?_
    dsimp only at h₂
    exact .last (ih.operators _ _ _ (by omega)) fun _ _ _ => ⟨_, rfl⟩

theorem follows_primary_step (s : Stream) (enough : 4 * s.size + 1 < n + 1) :
    Follows (primary neg (n + 1)) s (readPrimary neg s) := by
  unfold readPrimary
  dsimp only
  split
  · next number =>
    refine .peek ?_
    simp only [number]
    exact .advance (by simp [number]) fun _ => .ret
  · next text =>
    refine .peek ?_
    simp only [text]
    exact .advance (by simp [text]) fun _ => .ret
  · next name =>
    refine .peek ?_
    simp only [name]
    exact ih.reference s (by omega)
  · next minus =>
    refine .peek ?_
    simp only [minus]
    refine .advance (by simp [minus]) fun h₀ => ?_
    refine .peek ?_
    split
    · next number => exact .advance (by simp [number]) fun _ => .ret
    · split
      · exact .bind (ih.primary _ (by omega)) fun operand s₁ h₁ => .ret
      · exact .fail
  · next paren =>
    refine .peek ?_
    simp only [paren]
    refine .advance (by simp [paren]) fun h₀ => ?_
    refine .bind (ih.expression _ (by omega)) fun inner s₁ h₁ => ?_
    exact .bind .expect fun _ s₂ h₂ => .ret
  · refine .peek ?_
    split
    case h_6 => exact .fail
    all_goals contradiction

theorem follows_reference_step (s : Stream) (enough : 4 * s.size < n + 1) :
    Follows (reference neg (n + 1)) s (readReference neg s) := by
  unfold readReference
  refine .bind .expect fun t s₁ h₁ => ?_
  dsimp only
  split
  · next paren =>
    refine .accepted rfl paren fun h₂ => ?_
    split
    · next closed =>
      refine .accepted rfl closed fun _ => ?_
      rw [Stream.expect, dif_pos closed]
      exact .ret
    · next more =>
      refine .declined more ?_
      refine .bind (ih.arguments _ (by omega)) fun args s₃ h₃ => ?_
      exact .bind .expect fun _ s₄ h₄ => .ret
  · next noCall =>
    refine .declined noCall ?_
    split
    · next bracket =>
      refine .accepted rfl bracket fun h₂ => ?_
      refine .bind (ih.expression _ (by omega)) fun index s₃ h₃ => ?_
      exact .bind .expect fun _ s₄ h₄ => .ret
    · next bare => exact .declined bare .ret

theorem follows_arguments_step (s : Stream) (enough : 4 * s.size + 3 < n + 1) :
    Follows (arguments neg (n + 1)) s (readArguments neg s) := by
  unfold readArguments
  refine .bind (ih.expression s (by omega)) fun arg s₁ h₁ => ?_
  dsimp only
  split
  · next comma =>
    refine .accepted rfl comma fun h₂ => ?_
    exact .bind (ih.arguments _ (by omega)) fun args s₃ h₃ => .ret
  · next only => exact .declined only .ret

end Expressions

theorem expressionFollows (neg : Bool) (n : Nat) : ExpressionFollows neg n := by
  induction n with
  | zero =>
    constructor <;> intros <;> omega
  | succ n ih =>
    exact {
      expression := follows_expression_step ih
      operators := follows_operators_step ih
      primary := follows_primary_step ih
      reference := follows_reference_step ih
      arguments := follows_arguments_step ih }

variable {neg : Bool} {n : Nat} {s : Stream}

theorem follows_expression (enough : 4 * s.size + 2 < n) :
    Follows (expression neg n) s (readExpression neg s) := (expressionFollows neg n).expression s enough

/-! ## Statements -/

theorem follows_named (enough : 4 * s.size < n) : Follows (named neg n) s (readNamed neg s) := by
  refine .bind ((expressionFollows neg n).reference s enough) fun target s₁ h₁ => ?_
  cases target
  case call => exact .ret
  all_goals
    dsimp only
    refine .peek ?_
    split
    · next assign =>
      refine .advance (by simp [assign]) fun h₂ => ?_
      exact .bind (follows_expression (by omega)) fun value s₃ h₃ => .ret
    · exact .ret

theorem follows_direction (s : Stream) : Follows direction s (readDirection s) := by
  unfold direction readDirection
  split
  · next up => exact .accepted rfl up fun _ => .ret
  · next other =>
    refine .declined other ?_
    split
    · next down => exact .accepted rfl down fun _ => .ret
    · next neither => exact .declined neither .fail

/-- The readers of statements with depth `n` follow their counterparts on streams that are short
enough. -/
structure StatementFollows (neg : Bool) (n : Nat) : Prop where
  statement : ∀ s : Stream, 4 * s.size + 1 < n → Follows (statement neg n) s (readStatement neg s)
  body : ∀ s : Stream, 4 * s.size + 2 < n → Follows (body neg n) s (readBody neg s)
  compound : ∀ s : Stream, 4 * s.size < n → Follows (compound neg n) s (readCompound neg s)
  statements : ∀ s : Stream, 4 * s.size + 3 < n → Follows (statements neg n) s (readStatements neg s)

section Statements

variable {neg : Bool} {n : Nat} (ih : StatementFollows neg n)

include ih

theorem follows_statement_step (s : Stream) (enough : 4 * s.size + 1 < n + 1) :
    Follows (statement neg (n + 1)) s (readStatement neg s) := by
  unfold readStatement
  dsimp only
  split
  · next name =>
    refine .peek ?_
    simp only [name]
    exact follows_named (by omega)
  · next opens =>
    refine .peek ?_
    simp only [opens]
    refine .advance (by simp [opens]) fun h₀ => ?_
    refine .bind (follows_expression (by omega)) fun cond s₁ h₁ => ?_
    dsimp only
    refine .bind .expect fun _ s₂ h₂ => ?_
    dsimp only
    refine .bind (ih.body _ (by omega)) fun yes s₃ h₃ => ?_
    split
    · next otherwise =>
      refine .accepted rfl otherwise fun h₄ => ?_
      exact .bind (ih.body _ (by omega)) fun no s₅ h₅ => .ret
    · next done => exact .declined done .ret
  · next opens =>
    refine .peek ?_
    simp only [opens]
    refine .advance (by simp [opens]) fun h₀ => ?_
    refine .bind .expect fun var s₁ h₁ => ?_
    dsimp only
    refine .bind .expect fun _ s₂ h₂ => ?_
    dsimp only
    refine .bind (follows_expression (by omega)) fun start s₃ h₃ => ?_
    dsimp only
    refine .bind (follows_direction _) fun down s₄ h₄ => ?_
    dsimp only
    refine .bind (follows_expression (by omega)) fun stop s₅ h₅ => ?_
    dsimp only
    refine .bind .expect fun _ s₆ h₆ => ?_
    exact .bind (ih.body _ (by omega)) fun body s₇ h₇ => .ret
  · next opens =>
    refine .peek ?_
    simp only [opens]
    refine .advance (by simp [opens]) fun h₀ => ?_
    refine .bind (follows_expression (by omega)) fun cond s₁ h₁ => ?_
    dsimp only
    refine .bind .expect fun _ s₂ h₂ => ?_
    exact .bind (ih.body _ (by omega)) fun body s₃ h₃ => .ret
  · next opens =>
    refine .peek ?_
    simp only [opens]
    exact ih.compound s (by omega)
  · next leave =>
    refine .peek ?_
    simp only [leave]
    exact .advance (by simp [leave]) fun _ => .ret
  · next exit =>
    refine .peek ?_
    simp only [exit]
    exact .advance (by simp [exit]) fun _ => .ret
  · refine .peek ?_
    split
    case h_8 => exact .fail
    all_goals contradiction

theorem follows_body_step (s : Stream) (enough : 4 * s.size + 2 < n + 1) :
    Follows (body neg (n + 1)) s (readBody neg s) := by
  unfold readBody
  refine .peek ?_
  split
  · exact ih.compound s (by omega)
  · exact .bind (ih.statement s (by omega)) fun stmt s₁ h₁ => .ret

theorem follows_compound_step (s : Stream) (enough : 4 * s.size < n + 1) :
    Follows (compound neg (n + 1)) s (readCompound neg s) := by
  unfold readCompound
  refine .bind .expect fun t s₁ h₁ => ?_
  refine .bind (ih.statements _ (by omega)) fun stmts s₂ h₂ => ?_
  exact .bind .expect fun _ s₃ h₃ => .ret

theorem follows_statements_step (s : Stream) (enough : 4 * s.size + 3 < n + 1) :
    Follows (statements neg (n + 1)) s (readStatements neg s) := by
  unfold readStatements
  refine .peek ?_
  split
  · exact .ret
  · split
    · next semi =>
      refine .accepted rfl semi fun h₀ => ?_
      exact .last (ih.statements _ (by omega)) fun _ _ _ => ⟨_, rfl⟩
    · next stmt =>
      refine .declined stmt ?_
      refine .bind (ih.statement s (by omega)) fun stmt s₁ h₁ => ?_
      dsimp only
      split
      · next semi =>
        refine .accepted rfl semi fun h₂ => ?_
        exact .bind (ih.statements _ (by omega)) fun stmts s₃ h₃ => .ret
      · next last => exact .declined last .ret

end Statements

theorem statementFollows (neg : Bool) (n : Nat) : StatementFollows neg n := by
  induction n with
  | zero =>
    constructor <;> intros <;> omega
  | succ n ih =>
    exact {
      statement := follows_statement_step ih
      body := follows_body_step ih
      compound := follows_compound_step ih
      statements := follows_statements_step ih }

/-! ## Declarations -/

theorem follows_signed {s : Stream} : Follows signed s (readSigned s) := by
  unfold signed readSigned
  split
  · next minus => exact .accepted rfl minus fun _ => .bind .expect fun t s₁ h₁ => .ret
  · next plain => exact .declined plain (.bind .expect fun t s₁ h₁ => .ret)

theorem follows_type (enough : s.size < n) : Follows (type n) s (readType s) := by
  induction n generalizing s with
  | zero => exact absurd enough (Nat.not_lt_zero _)
  | succ n ih =>
    unfold readType
    refine .peek ?_
    split
    · next integer => exact .accepted rfl integer fun _ => .ret
    · next other =>
      refine .declined other ?_
      split
      · next array =>
        refine .accepted rfl array fun h₀ => ?_
        refine .bind .expect fun _ s₁ h₁ => ?_
        refine .bind follows_signed fun lower s₂ h₂ => ?_
        refine .bind .expect fun _ s₃ h₃ => ?_
        refine .bind follows_signed fun upper s₄ h₄ => ?_
        dsimp only
        refine .bind .expect fun _ s₅ h₅ => ?_
        dsimp only
        refine .bind .expect fun _ s₆ h₆ => ?_
        refine .bind (ih (by omega)) fun elem s₇ h₇ => ?_
        split
        · exact ⟨rfl, Nat.zero_le _⟩
        · exact .ret
      · next neither => exact .declined neither .fail

theorem follows_names (enough : s.size < n) : Follows (names n) s (readNames s) := by
  induction n generalizing s with
  | zero => exact absurd enough (Nat.not_lt_zero _)
  | succ n ih =>
    unfold readNames
    refine .bind .expect fun t s₁ h₁ => ?_
    dsimp only
    split
    · next comma =>
      exact .accepted rfl comma fun h₂ => .bind (ih (by omega)) fun ts s₃ h₃ => .ret
    · next only => exact .declined only .ret

theorem follows_group (enough : s.size < n) : Follows (group n) s (readGroup s) := by
  refine .bind (follows_names enough) fun names s₁ h₁ => ?_
  refine .bind .expect fun _ s₂ h₂ => .peek ?_
  exact .bind (follows_type (by omega)) fun type s₃ h₃ => .ret

theorem follows_vars (enough : s.size < n) : Follows (vars n) s (readVariables s) := by
  refine .bind .expect fun _ s₁ h₁ => ?_
  refine .bind (follows_group (by omega)) fun decls s₂ h₂ => ?_
  exact .bind .expect fun _ s₃ h₃ => .ret

theorem follows_definitions (enough : s.size < n) : Follows (definitions n) s (readDefinitions s) := by
  induction n generalizing s with
  | zero => exact absurd enough (Nat.not_lt_zero _)
  | succ n ih =>
    unfold readDefinitions
    refine .bind .expect fun t s₁ h₁ => ?_
    refine .bind .expect fun _ s₂ h₂ => ?_
    refine .bind follows_signed fun value s₃ h₃ => ?_
    dsimp only
    refine .bind .expect fun _ s₄ h₄ => .peek ?_
    split
    · exact .bind (ih (by omega)) fun decls s₅ h₅ => .ret
    · exact .ret

theorem follows_constants (enough : s.size < n) : Follows (constants n) s (readConstants s) := by
  refine .bind .expect fun _ s₁ h₁ => ?_
  exact .last (follows_definitions (by omega)) fun _ _ _ => ⟨_, rfl⟩

theorem follows_parameters (enough : s.size + 1 < n) : Follows (parameters n) s (readParameters s) := by
  induction n generalizing s with
  | zero => exact absurd enough (Nat.not_lt_zero _)
  | succ n ih =>
    unfold readParameters
    refine .peek ?_
    split
    · refine .bind (follows_group (by omega)) fun first s₁ h₁ => ?_
      dsimp only
      split
      · next semi =>
        exact .accepted rfl semi fun h₂ => .bind (ih (by omega)) fun groups s₃ h₃ => .ret
      · next last => exact .declined last .ret
    · exact .ret

theorem follows_parameterList (enough : s.size < n) : Follows (parameterList n) s (readParameterList s) := by
  unfold parameterList readParameterList
  split
  · next opens =>
    refine .accepted rfl opens fun h₀ => ?_
    refine .bind (follows_parameters (by omega)) fun params s₁ h₁ => ?_
    exact .bind .expect fun _ s₂ h₂ => .ret
  · next none => exact .declined none .ret

theorem follows_result (isFunction : Bool) (enough : s.size < n) :
    Follows (result isFunction n) s (readResult isFunction s) := by
  unfold result readResult
  split
  · refine .bind .expect fun _ s₁ h₁ => ?_
    exact .last (follows_type (by omega)) fun _ _ _ => ⟨_, rfl⟩
  · exact .ret

theorem follows_locals (enough : s.size + 1 < n) : Follows (locals n) s (readLocals s) := by
  induction n generalizing s with
  | zero => exact absurd enough (Nat.not_lt_zero _)
  | succ n ih =>
    unfold readLocals
    refine .peek ?_
    split
    · refine .bind (follows_vars (by omega)) fun decls s₁ h₁ => ?_
      exact .bind (ih (by omega)) fun more s₂ h₂ => .ret
    · exact .ret

theorem follows_routine (enough : 4 * s.size + 2 < n) :
    Follows (routine neg isFunction t n) s (readRoutine neg isFunction t s) := by
  refine .bind .expect fun id s₁ h₁ => ?_
  refine .bind (follows_parameterList (by omega)) fun params s₂ h₂ => ?_
  refine .bind (follows_result _ (by omega)) fun result s₃ h₃ => ?_
  refine .bind .expect fun _ s₄ h₄ => ?_
  dsimp only
  split
  · next forward => exact .accepted rfl forward fun _ => .bind .expect fun _ s₆ h₆ => .ret
  · next here =>
    refine .declined here ?_
    refine .bind (follows_locals (by omega)) fun locals s₅ h₅ => ?_
    refine .bind ((statementFollows neg n).compound s₅ (by omega)) fun body s₆ h₆ => ?_
    exact .bind .expect fun _ s₇ h₇ => .ret

/-! ## Programs -/

theorem follows_declarations (enough : 4 * s.size + 3 < n) :
    Follows (declarations neg n) s (readDeclarations neg s) := by
  induction n generalizing s with
  | zero => exact absurd enough (Nat.not_lt_zero _)
  | succ n ih =>
    unfold readDeclarations
    split
    · next var =>
      refine .peek ?_
      simp only [var]
      refine .bind (follows_vars (by omega)) fun decls s₁ h₁ => ?_
      exact .bind (ih (by omega)) fun later s₂ h₂ => .ret
    · next const =>
      refine .peek ?_
      simp only [const]
      refine .bind (follows_constants (by omega)) fun decls s₁ h₁ => ?_
      exact .bind (ih (by omega)) fun later s₂ h₂ => .ret
    · next function =>
      refine .peek ?_
      simp only [function]
      refine .advance (by simp [function]) fun h₀ => ?_
      refine .bind (follows_routine (by omega)) fun decl s₁ h₁ => ?_
      exact .bind (ih (by omega)) fun later s₂ h₂ => .ret
    · next procedure =>
      refine .peek ?_
      simp only [procedure]
      refine .advance (by simp [procedure]) fun h₀ => ?_
      refine .bind (follows_routine (by omega)) fun decl s₁ h₁ => ?_
      exact .bind (ih (by omega)) fun later s₂ h₂ => .ret
    · refine .peek ?_
      split
      case h_5 => exact .ret
      all_goals contradiction

theorem follows_sentence (neg : Bool) (enough : 4 * s.size + 3 < n) :
    Follows (sentence neg n) s (readSentence neg s) := by
  refine .bind .expect fun t s₁ h₁ => ?_
  dsimp only
  refine .bind .expect fun id s₂ h₂ => ?_
  dsimp only
  refine .bind .expect fun _ s₃ h₃ => ?_
  dsimp only
  refine .bind (follows_declarations (by omega)) fun ds s₄ h₄ => ?_
  refine .bind ((statementFollows neg n).body s₄ (by omega)) fun main s₅ h₅ => ?_
  exact .bind .expect fun _ s₆ h₆ => .ret

/-- The depth that is enough to read the tokens of a stream. -/
def depth (s : Stream) : Nat := 4 * s.size + 4

/-- Reading a program token by token is reading it. -/
theorem run_program (enough : depth s ≤ n) : (program neg n).run s = some (Tree.read neg s) := by
  have follows := (follows_sentence neg enough).run
  rw [read_eq_sentence, program]
  cases whole : readSentence neg s with
  | error e =>
    rw [whole] at follows
    exact run_bind_error follows
  | ok x =>
    rw [whole] at follows
    rw [run_bind_ok follows]
    change _ = some (if x.rest.head.kind = .eof then _ else _)
    by_cases ends : x.rest.head.kind = .eof
    · rw [run_bind_ok (expect_of ends).1, if_pos ends]
      rfl
    · rw [run_bind_error (expect_of_ne ends).1, if_neg ends]

/-- A program that is faulty is read only as far as there are tokens. -/
theorem passed_program_le (enough : depth s ≤ n) (fault : Tree.read neg s = .error e) :
    (program neg n).passed s ≤ s.size := by
  obtain ⟨follows, le⟩ := follows_sentence neg enough
  rw [read_eq_sentence] at fault
  rw [program]
  cases whole : readSentence neg s with
  | error e' =>
    rw [whole] at follows
    rw [passed_bind_error follows]
    exact le
  | ok x =>
    rw [whole] at follows fault
    have more : x.rest.head.kind ≠ .eof := by
      intro ends
      change (if x.rest.head.kind = .eof then _ else _) = _ at fault
      rw [if_pos ends] at fault
      cases fault
    rw [passed_bind_ok follows, passed_bind_error (expect_of_ne more).1, (expect_of_ne more).2]
    exact le

end Pull

end MiniPascal
