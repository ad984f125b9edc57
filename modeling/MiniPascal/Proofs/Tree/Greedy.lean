import Mathlib.Data.List.Infix
import MiniPascal.Proofs.Tree.Spelling

/-!
# Everything that the grammar spells is read

Readers decide by the next token alone. Each part of a program is read to its end if the token
behind it cannot go on with it, and what it is read as does not depend on that token (`Reads`). The
grammar puts no other token there, with one exception: an `else` is taken by the last `if` that can
have one, whatever the derivation says. `Balanced` is the grammar of statements with this choice
built in, and an `else` behind a statement can always be moved to where the reader expects it
(`Balanced.otherwise`).
-/

open List MiniPascal.Stream

namespace MiniPascal

open Kind

/-! ## Streams -/

namespace Stream

/-- The stream with one more token in front. -/
def push (s : Stream) (t : Token) : Stream := { s with tokens := t :: s.tokens }

variable {s : Stream}

@[simp] theorem head_push (t : Token) : (s.push t).head = t := rfl

@[simp] theorem tail_push (t : Token) : (s.push t).tail = s := rfl

theorem prepend_cons (t : Token) (w : List Token) : s.prepend (t :: w) = (s.prepend w).push t := rfl

end Stream

/-! ## Readers -/

/-- A reader returns the given value, and leaves the given stream. -/
def Takes {α : Type} {n : Nat} (r : Parse α n) (a : α) (rest : Stream) : Prop :=
  ∃ lt : rest.size < n, r = .ok ⟨a, rest, lt⟩

namespace Takes

variable {α β : Type} {n m : Nat} {a : α} {b : β} {s rest mid : Stream}

theorem ok {lt : rest.size < n} : Takes (.ok ⟨a, rest, lt⟩ : Parse α n) a rest := ⟨lt, rfl⟩

theorem of_eq {lt : mid.size < n} (same : mid = rest) : Takes (.ok ⟨a, mid, lt⟩ : Parse α n) a rest := by
  subst same
  exact ok

theorem bind {f : Parsed α n → Parse β m} (first : Takes r a mid)
    (next : ∀ lt : mid.size < n, Takes (f ⟨a, mid, lt⟩) b rest) : Takes (r >>= f) b rest := by
  obtain ⟨lt, rfl⟩ := first
  exact next lt

/-- A reader is run on the way to an answer. -/
theorem run {r : Parse α n} {f : Parsed α n → Except SyntaxFault β} {answer : Except SyntaxFault β}
    (first : Takes r a mid) (next : ∀ lt : mid.size < n, f ⟨a, mid, lt⟩ = answer) :
    r >>= f = answer := by
  obtain ⟨lt, rfl⟩ := first
  exact next lt

variable {k : Kind}

theorem token (kind : t.kind = k) : Takes ((s.push t).expect k hk) t s := by
  unfold Stream.expect
  rw [dif_pos (show (s.push t).head.kind = k from kind)]
  exact ok

theorem expect {t : Token} {f : Parsed Token (s.push t).size → Parse β m} (kind : t.kind = k)
    (next : ∀ lt : s.size < (s.push t).size, Takes (f ⟨t, s, lt⟩) b rest) :
    Takes ((s.push t).expect k hk >>= f) b rest :=
  (token kind).bind next

theorem unique {r : Parse α n} {a' : α} {rest' : Stream} (h : Takes r a rest)
    (h' : Takes r a' rest') : a = a' ∧ rest = rest' := by
  obtain ⟨lt, rfl⟩ := h
  obtain ⟨lt', run⟩ := h'
  cases run
  exact ⟨rfl, rfl⟩

/-- If a sequence of readers returns, its first one does. -/
theorem of_bind {r : Parse α n} {f : Parsed α n → Parse β m} (h : Takes (r >>= f) b rest) : ∃ a mid, Takes r a mid := by
  obtain ⟨lt, run⟩ := h
  obtain ⟨⟨a, mid, lt'⟩, first, -⟩ := Tree.exists_of_bind_ok run
  exact ⟨a, mid, lt', first⟩

/-- A reader that returns has found the token that it expects first. -/
theorem starts {f : Parsed Token s.size → Parse β m} (h : Takes (s.expect k hk >>= f) b rest) :
    s.head.kind = k := by
  obtain ⟨t, mid, lt, first⟩ := h.of_bind
  obtain ⟨split, kind⟩ := Tree.expect_ok first
  rw [split]
  exact kind

/-- What is read is at least one token. -/
theorem exists_cons {r : Parse α (rest.prepend w).size} (h : Takes r a rest) : ∃ t v, w = t :: v := by
  obtain ⟨lt, -⟩ := h
  cases w with
  | nil => exact absurd lt (Nat.lt_irrefl _)
  | cons t v => exact ⟨t, v, rfl⟩

end Takes

/-- The tokens of `w` are read as `a`, whatever stands behind them, if its kind is one of those
given. -/
def Reads {α : Type} {n : Stream → Nat} (r : (s : Stream) → Parse α (n s)) (follows : Kind → Bool)
    (a : α) (w : List Token) : Prop :=
  ∀ rest : Stream, follows rest.head.kind = true → Takes (r (rest.prepend w)) a rest

/-! ## What can follow -/

namespace Kind

/-- Every token can follow. -/
def any : Kind → Bool := fun _ => true

/-- Whether a token behind a name cannot go on with it. -/
def endsOperand : Kind → Bool
  | .lparen | .lbracket => false
  | _ => true

/-- Whether a token behind an expression cannot go on with it. -/
def endsExpression (k : Kind) : Bool := k.endsOperand && k.precedence == 0

/-- Whether a token behind a statement cannot go on with it, unless it is an `else`. -/
def endsStatement (k : Kind) : Bool := k.endsExpression && k != .assign

variable {k : Kind}

theorem endsOperand_of_endsExpression (h : k.endsExpression = true) : k.endsOperand = true :=
  (Bool.and_eq_true_iff.mp h).1

theorem precedence_of_endsExpression (h : k.endsExpression = true) : k.precedence = 0 :=
  beq_iff_eq.mp (Bool.and_eq_true_iff.mp h).2

theorem endsExpression_of_endsStatement (h : k.endsStatement = true) : k.endsExpression = true :=
  (Bool.and_eq_true_iff.mp h).1

theorem ne_assign_of_endsStatement (h : k.endsStatement = true) : k ≠ .assign :=
  bne_iff_ne.mp (Bool.and_eq_true_iff.mp h).2

theorem precedence_pos_of_mem (h : k ∈ Grammar.operators) : 0 < k.precedence := by
  have all : ∀ k ∈ Grammar.operators, 0 < k.precedence := by decide
  exact all k h

theorem endsOperand_of_mem (h : k ∈ Grammar.operators) : k.endsOperand = true := by
  have all : ∀ k ∈ Grammar.operators, k.endsOperand = true := by decide
  exact all k h

end Kind

namespace Tree

open Grammar

/-! ## Expressions -/

section Expressions

variable (neg : Bool)

/-- The tokens of an operand. -/
abbrev ReadsOperand : Tree → List Token → Prop := Reads (readPrimary neg) endsOperand

/-- The tokens of an expression. -/
abbrev ReadsExpression : Tree → List Token → Prop := Reads (readExpression neg) endsExpression

/-- The tokens of arguments. -/
abbrev ReadsArguments : List Tree → List Token → Prop := Reads (readArguments neg) (· == .rparen)

/-- The tokens of a name with an index or arguments, if any. -/
abbrev ReadsReference : Tree → List Token → Prop := Reads (readReference neg) endsOperand

/-- The tokens of a call. -/
abbrev ReadsCall : Tree → List Token → Prop := Reads (readReference neg) Kind.any

/-- Operators with the operands behind them. -/
structure ReadsOperations (cs : List (Token × List Token)) : Prop where
  operators : ∀ c ∈ cs, c.1.kind ∈ operators
  operands : ∀ c ∈ cs, ∃ v, ReadsOperand neg v c.2

end Expressions

/-- The tokens of operators with operands. -/
def flat (cs : List (Token × List Token)) : List Token := cs.flatMap fun c => c.1 :: c.2

section Expressions

variable {neg : Bool} {s rest : Stream} {v : Tree} {t l r x : Token} {w : List Token}
  {cs : List (Token × List Token)}

theorem primary_starts (h : Takes (readPrimary neg s) v rest) : s.head.kind ≠ .rparen := by
  intro kind
  obtain ⟨lt, run⟩ := h
  rw [readPrimary] at run
  split at run <;> first | (next h => cases kind.symm.trans h) | cases run

theorem primary_identifier (kind : s.head.kind = .identifier) : readPrimary neg s = readReference neg s := by
  rw [readPrimary]
  -- All branches but one are of other kinds.
  split <;> first | (next h => cases kind.symm.trans h) | contradiction | rfl

theorem arguments_starts (h : Takes (readArguments neg s) vs rest) : s.head.kind ≠ .rparen := by
  rw [readArguments] at h
  obtain ⟨v, mid, first⟩ := h.of_bind
  rw [readExpression] at first
  obtain ⟨u, mid', operand⟩ := first.of_bind
  exact primary_starts operand

theorem reference_starts (h : Takes (readReference neg s) v rest) : s.head.kind = .identifier := by
  rw [readReference] at h
  exact h.starts

/-! ### Operands -/

/-- A number is read by itself. -/
theorem primary_number (kind : s.head.kind = .number) (h : Takes (readPrimary neg s) v rest) : rest = s.tail := by
  obtain ⟨lt, run⟩ := h
  rw [readPrimary] at run
  split at run <;> first | (next h => cases kind.symm.trans h) | contradiction | skip
  cases run
  rfl

theorem readsOperand_number (kind : t.kind = .number) : ReadsOperand neg (.number t t.number) [t] := by
  intro rest _
  rw [prepend_cons, readPrimary]
  obtain ⟨⟩ := t
  cases kind
  exact .ok

theorem readsOperand_text (kind : t.kind = .string) : ReadsOperand neg (.text t t.value) [t] := by
  intro rest _
  rw [prepend_cons, readPrimary]
  obtain ⟨⟩ := t
  cases kind
  exact .ok

theorem readsOperand_negative (kind : m.kind = .minus) (number : t.kind = .number) :
    ReadsOperand neg (.number m (-t.number)) [m, t] := by
  intro rest _
  rw [prepend_cons, readPrimary]
  split <;> first | (next h => cases kind.symm.trans h) | contradiction | skip
  rw [dif_pos (show ((rest.prepend [t]).push m).tail.head.kind = .number from number)]
  exact .ok

theorem readsOperand_negated (allowed : neg = true) (kind : m.kind = .minus)
    (h : ReadsOperand neg v w) : ∃ u, ReadsOperand neg u (m :: w) := by
  obtain ⟨t, w, rfl⟩ := (h ⟨[], .nowhere⟩ rfl).exists_cons
  by_cases number : t.kind = .number
  -- The minus sign belongs to the number, and there is nothing behind it.
  · refine ⟨.number m (-t.number), fun rest ends => ?_⟩
    have behind := primary_number (s := rest.prepend (t :: w)) number (h rest ends)
    rw [prepend_cons, readPrimary]
    split <;> first | (next h => cases kind.symm.trans h) | contradiction | skip
    rw [dif_pos (show ((rest.prepend (t :: w)).push m).tail.head.kind = .number from number)]
    exact .of_eq behind.symm
  · refine ⟨.binary m .minus (.number m 0) v, fun rest ends => ?_⟩
    rw [prepend_cons, readPrimary]
    split <;> first | (next h => cases kind.symm.trans h) | contradiction | skip
    rw [dif_neg (show ¬ ((rest.prepend (t :: w)).push m).tail.head.kind = .number from number), if_pos allowed]
    exact (h rest ends).bind fun _ => .ok

theorem readsOperand_parenthesized (kind : l.kind = .lparen) (h : ReadsExpression neg v w)
    (closes : r.kind = .rparen) : ReadsOperand neg v (l :: (w ++ [r])) := by
  intro rest _
  have inner := h (rest.push r) (congrArg endsExpression closes)
  rw [prepend_cons, prepend_append, prepend_cons, prepend_nil, readPrimary]
  obtain ⟨⟩ := l
  cases kind
  exact inner.bind fun _ => .expect closes fun _ => .ok

/-! ### References -/

theorem readsReference_name (name : x.kind = .identifier) : ReadsReference neg (.name x x.value) [x] := by
  intro rest ends
  rw [prepend_cons, prepend_nil, readReference]
  refine .expect name fun _ => ?_
  dsimp only
  rw [dif_neg (by intro paren; rw [paren] at ends; cases ends),
    dif_neg (by intro bracket; rw [bracket] at ends; cases ends)]
  exact .ok

theorem readsReference_element (name : x.kind = .identifier) (opens : l.kind = .lbracket)
    (h : ReadsExpression neg v w) (closes : r.kind = .rbracket) :
    ReadsReference neg (.element x x.value v) (x :: l :: (w ++ [r])) := by
  intro rest _
  have index := h (rest.push r) (congrArg endsExpression closes)
  rw [prepend_cons, prepend_cons, prepend_append, prepend_cons, prepend_nil, readReference]
  refine .expect name fun _ => ?_
  dsimp only
  split
  · next paren => cases opens.symm.trans paren
  · split
    · exact index.bind fun _ => .expect closes fun _ => .ok
    · next none => exact absurd opens none

theorem readsCall_plain (name : x.kind = .identifier) (opens : l.kind = .lparen) (closes : r.kind = .rparen) :
    ReadsCall neg (.call x x.value []) [x, l, r] := by
  intro rest _
  rw [prepend_cons, prepend_cons, prepend_cons, prepend_nil, readReference]
  refine .expect name fun _ => ?_
  dsimp only
  split
  · split
    · exact .expect closes fun _ => .ok
    · next none => exact absurd closes none
  · next none => exact absurd opens none

theorem readsCall_with (name : x.kind = .identifier) (opens : l.kind = .lparen)
    (h : ReadsArguments neg vs w) (closes : r.kind = .rparen) :
    ReadsCall neg (.call x x.value vs) (x :: l :: (w ++ [r])) := by
  intro rest _
  have args := h (rest.push r) (congrArg (· == .rparen) closes)
  rw [prepend_cons, prepend_cons, prepend_append, prepend_cons, prepend_nil, readReference]
  refine .expect name fun _ => ?_
  dsimp only
  split
  · split
    · next empty => exact absurd empty (arguments_starts args)
    · exact args.bind fun _ => .expect closes fun _ => .ok
  · next none => exact absurd opens none

theorem readsOperand_of_reference (h : ReadsReference neg v w) : ReadsOperand neg v w := by
  intro rest ends
  have reference := h rest ends
  rwa [primary_identifier (reference_starts reference)]

/-! ### Operators -/

theorem takes_noOperator (ends : rest.head.kind.precedence ≤ level) :
    Takes (readOperators neg level left rest) left rest := by
  rw [readOperators]
  rw [dif_pos ends]
  exact .ok

/-- An operand is an expression if no operator follows. -/
theorem readsExpression_operand (h : ReadsOperand neg v w) : ReadsExpression neg v w := by
  intro rest ends
  rw [readExpression]
  refine (h rest (endsOperand_of_endsExpression ends)).bind fun _ => ?_
  exact (takes_noOperator (precedence_of_endsExpression ends).le).bind fun _ => .ok

/-- One operator between its operands. -/
theorem readsExpression_binary {v : List Token}
    (first : ReadsOperand neg left v) (operator : o.kind ∈ operators) (second : ReadsOperand neg right w) :
    ReadsExpression neg (.binary o o.kind left right) (v ++ o :: w) := by
  intro rest ends
  have none := precedence_of_endsExpression ends
  have tighter : ¬ (rest.prepend (o :: w)).head.kind.precedence ≤ 0 :=
    Nat.not_le_of_gt (precedence_pos_of_mem operator)
  have operation : Takes (readOperators neg 0 left (rest.prepend (o :: w))) (.binary o o.kind left right) rest := by
    rw [readOperators]
    rw [dif_neg tighter]
    refine (second rest (endsOperand_of_endsExpression ends)).bind fun _ => ?_
    refine (takes_noOperator (none.trans_le (Nat.zero_le _))).bind fun _ => ?_
    exact (takes_noOperator none.le).bind fun _ => .ok
  rw [prepend_append, readExpression]
  refine (first (rest.prepend (o :: w)) (endsOperand_of_mem operator)).bind fun _ => ?_
  exact operation.bind fun _ => .ok

/-- A token behind operations, or in front of some, ends an operand. -/
theorem ends_flat (h : ReadsOperations neg cs) (ends : rest.head.kind.endsExpression = true) :
    (rest.prepend (flat cs)).head.kind.endsOperand = true := by
  cases cs with
  | nil => exact endsOperand_of_endsExpression ends
  | cons c cs => exact endsOperand_of_mem (h.operators c mem_cons_self)

/-- Operators are taken for as long as they bind tighter than the given level. -/
theorem takes_operators (h : ReadsOperations neg cs) (level : Nat) (left : Tree) :
    ∃ v cs', cs' <:+ cs ∧ (∀ c ∈ cs'.head?, c.1.kind.precedence ≤ level) ∧
      ∀ rest : Stream, rest.head.kind.endsExpression = true →
        Takes (readOperators neg level left (rest.prepend (flat cs))) v (rest.prepend (flat cs')) := by
  -- The right operand of an operator takes the tighter ones behind it, and the rest goes on from
  -- there.
  induction n : cs.length using Nat.strong_induction_on generalizing cs level left with
  | _ n ih =>
    cases cs with
    | nil =>
      refine ⟨left, [], suffix_rfl, by simp, fun rest ends => takes_noOperator ?_⟩
      exact (precedence_of_endsExpression ends).trans_le (Nat.zero_le level)
    | cons c cs =>
      by_cases low : c.1.kind.precedence ≤ level
      · exact ⟨left, c :: cs, suffix_rfl, by simpa using low, fun _ _ => takes_noOperator low⟩
      · have later : ReadsOperations neg cs :=
          ⟨fun c' member => h.operators c' (mem_cons_of_mem _ member),
            fun c' member => h.operands c' (mem_cons_of_mem _ member)⟩
        obtain ⟨operand, reads⟩ := h.operands c mem_cons_self
        rw [length_cons] at n
        obtain ⟨right, cs₁, suffix₁, -, reads₁⟩ := ih cs.length (by omega) later c.1.kind.precedence operand rfl
        have later₁ : ReadsOperations neg cs₁ :=
          ⟨fun c' member => later.operators c' (suffix₁.subset member), fun c' member =>
            later.operands c' (suffix₁.subset member)⟩
        obtain ⟨whole, cs₂, suffix₂, low₂, reads₂⟩ :=
          ih cs₁.length (by have := suffix₁.length_le; omega) later₁ level
          (.binary c.1 c.1.kind left right) rfl
        refine ⟨whole, cs₂, suffix₂.trans (suffix₁.trans (suffix_cons ..)), low₂, ?_⟩
        intro rest ends
        have first := reads _ (ends_flat later ends)
        rw [← prepend_append] at first
        rw [readOperators]
        rw [dif_neg (show ¬ (rest.prepend (flat (c :: cs))).head.kind.precedence ≤ level from low)]
        refine .bind first fun _ => ?_
        refine (reads₁ rest ends).bind fun _ => ?_
        exact (reads₂ rest ends).bind fun _ => .ok

theorem readsExpression_of_operations {v : List Token} (first : ReadsOperand neg u v)
    (h : ReadsOperations neg cs) : ∃ t, ReadsExpression neg t (v ++ flat cs) := by
  obtain ⟨whole, cs', suffix, low, reads⟩ := takes_operators h 0 u
  have all : cs' = [] := by
    cases cs' with
    | nil => rfl
    | cons c cs' =>
      have tight := precedence_pos_of_mem (h.operators c (suffix.subset mem_cons_self))
      exact absurd (low c rfl) (Nat.not_le_of_gt tight)
  subst all
  refine ⟨whole, fun rest ends => ?_⟩
  rw [prepend_append, readExpression]
  refine (first _ (ends_flat h ends)).bind fun _ => ?_
  exact (reads rest ends).bind fun _ => .ok

theorem readsArguments_last (h : ReadsExpression neg v w) : ReadsArguments neg [v] w := by
  intro rest closes
  have closes : rest.head.kind = .rparen := beq_iff_eq.mp closes
  rw [readArguments]
  refine (h rest (congrArg endsExpression closes)).bind fun _ => ?_
  dsimp only
  rw [dif_neg (by rw [closes]; decide)]
  exact .ok

theorem readsArguments_next {v : List Token}
    (first : ReadsExpression neg u v) (comma : c.kind = .comma) (h : ReadsArguments neg us w) :
    ReadsArguments neg (u :: us) (v ++ c :: w) := by
  intro rest closes
  have later := h rest closes
  rw [prepend_append, prepend_cons, readArguments]
  refine (first (Stream.push _ c) (congrArg endsExpression comma)).bind fun _ => ?_
  dsimp only
  rw [dif_pos (by rw [head_push, comma])]
  exact later.bind fun _ => .ok

end Expressions

/-! ## Statements -/

section Statements

variable (neg : Bool)

/-- The tokens of a statement, even if an `else` follows. -/
abbrev ReadsStatement : Tree → List Token → Prop := Reads (readStatement neg) endsStatement

/-- The tokens of a compound statement. -/
abbrev ReadsCompound : Tree → List Token → Prop := Reads (readCompound neg) Kind.any

/-- The tokens of the head of a loop: what is behind them is read as its body. -/
def ReadsHead (make : Tree → Tree) (h : List Token) : Prop := ∀ (s rest : Stream) (body : Tree),
  Takes (readBody neg s) body rest → Takes (readStatement neg (s.prepend h)) (make body) rest

end Statements

section Statements

variable {neg : Bool} {s rest : Stream}

theorem statement_identifier (kind : s.head.kind = .identifier) : readStatement neg s = readNamed neg s := by
  rw [readStatement]
  split <;> first | (next h => cases kind.symm.trans h) | contradiction | rfl

theorem statement_begin (kind : s.head.kind = .kwBegin) : readStatement neg s = readCompound neg s := by
  rw [readStatement]
  split <;> first | (next h => cases kind.symm.trans h) | contradiction | rfl

variable {v : Tree} {w ss : List Token} {takesElse : Bool} {e : Token} {us : List Tree}

/-- A statement starts with one of a few tokens. -/
theorem statement_starts (h : Takes (readStatement neg s) v rest) :
    s.head.kind ∈ [.identifier, .kwIf, .kwFor, .kwWhile, .kwBegin, .kwBreak, .kwExit] := by
  obtain ⟨lt, run⟩ := h
  rw [readStatement] at run
  split at run <;> first | (next h => simp [h]) | cases run

theorem compound_starts (h : Takes (readCompound neg s) v rest) : s.head.kind = .kwBegin := by
  rw [readCompound] at h
  exact h.starts

theorem takes_mention (noCall : ¬ IsCall v) (h : ReadsReference neg v w)
    (ends : rest.head.kind.endsOperand = true) (noAssign : rest.head.kind ≠ .assign) :
    Takes (readStatement neg (rest.prepend w)) v rest := by
  have target := h rest ends
  rw [statement_identifier (reference_starts target), readNamed]
  refine target.bind fun _ => ?_
  dsimp only
  split
  · exact absurd isCall_call noCall
  · rw [dif_neg noAssign]
    exact .ok

theorem readsStatement_mention (noCall : ¬ IsCall v) (h : ReadsReference neg v w) :
    ReadsStatement neg v w := fun _ ends =>
  takes_mention noCall h (endsOperand_of_endsExpression (endsExpression_of_endsStatement ends))
    (ne_assign_of_endsStatement ends)

theorem readsStatement_perform (isCall : IsCall v) (h : ReadsCall neg v w) : ReadsStatement neg v w := by
  intro rest _
  have call := h rest rfl
  rw [statement_identifier (reference_starts call), readNamed]
  obtain ⟨tok, f, args, rfl⟩ := isCall
  exact call.bind fun _ => .ok

theorem readsStatement_assign {v : List Token} (noCall : ¬ IsCall target)
    (first : ReadsReference neg target v) (assign : a.kind = .assign) (second : ReadsExpression neg value w) :
    ReadsStatement neg (.assign a target value) (v ++ a :: w) := by
  intro rest ends
  have front := first ((rest.prepend w).push a) (congrArg endsOperand assign)
  rw [prepend_append, prepend_cons, statement_identifier (reference_starts front), readNamed]
  refine front.bind fun _ => ?_
  dsimp only
  split
  · exact absurd isCall_call noCall
  · rw [dif_pos (by rw [head_push, assign])]
    exact (second rest (endsExpression_of_endsStatement ends)).bind fun _ => .ok

theorem readsStatement_leave (kind : t.kind = .kwBreak) : ReadsStatement neg (.leave t) [t] := by
  intro rest _
  rw [prepend_cons, prepend_nil, readStatement]
  obtain ⟨⟩ := t
  cases kind
  exact .ok

theorem readsStatement_exit (kind : t.kind = .kwExit) : ReadsStatement neg (.exit t) [t] := by
  intro rest _
  rw [prepend_cons, prepend_nil, readStatement]
  obtain ⟨⟩ := t
  cases kind
  exact .ok

theorem readsStatement_compound (h : ReadsCompound neg v w) : ReadsStatement neg v w := by
  intro rest _
  have compound := h rest rfl
  rwa [statement_begin (compound_starts compound)]

/-! ### Branches and loops -/

/-- The body that the tokens of a statement stand for: a compound statement, or the block of what is
none. -/
def bodyOf (v : Tree) : List Token → Tree
  | [] => v
  | t :: _ => if t.kind = .kwBegin then v else .block t [v]

theorem bodyOf_compound (h : ReadsCompound neg v w) : bodyOf v w = v := by
  have compound := h ⟨[], .nowhere⟩ rfl
  obtain ⟨t, w, rfl⟩ := compound.exists_cons
  exact if_pos (compound_starts compound)

/-- A statement can stand as a body. -/
theorem takes_body (h : Takes (readStatement neg (rest.prepend w)) v rest) :
    Takes (readBody neg (rest.prepend w)) (bodyOf v w) rest := by
  obtain ⟨t, w, rfl⟩ := h.exists_cons
  rw [readBody, bodyOf]
  by_cases kind : t.kind = .kwBegin
  · rw [if_pos kind, if_pos (by exact kind), ← statement_begin (by exact kind)]
    exact h
  · rw [if_neg kind, if_neg (by exact kind)]
    exact h.bind fun _ => .ok

theorem takes_direction (direction : d.kind = .kwTo ∨ d.kind = .kwDownto) :
    Takes (readDirection (s.push d)) (d.kind == .kwDownto) s := by
  unfold readDirection
  rcases direction with up | down
  · rw [dif_pos (by exact up), up]
    exact .ok
  · rw [dif_neg (by rw [head_push, down]; decide), dif_pos (by exact down), down]
    exact .ok

theorem readsHead_count {v : List Token} (kind : f.kind = .kwFor)
    (name : x.kind = .identifier) (assign : a.kind = .assign) (first : ReadsExpression neg start v)
    (direction : d.kind = .kwTo ∨ d.kind = .kwDownto) (last : ReadsExpression neg stop w) (follows : k.kind = .kwDo) :
    ReadsHead neg (.count f x.value start stop (d.kind == .kwDownto)) (f :: x :: a :: (v ++ d :: (w ++ [k]))) := by
  intro s rest body reads
  have ends : d.kind.endsExpression = true := by
    rcases direction with up | down
    · rw [up]; rfl
    · rw [down]; rfl
  rw [prepend_cons, prepend_cons, prepend_cons, prepend_append, prepend_cons, prepend_append, prepend_cons, prepend_nil,
    readStatement]
  obtain ⟨⟩ := f
  cases kind
  refine .expect name fun _ => ?_
  refine .expect assign fun _ => ?_
  refine (first (Stream.push _ d) ends).bind fun _ => ?_
  refine (takes_direction direction).bind fun _ => ?_
  refine (last (s.push k) (congrArg endsExpression follows)).bind fun _ => ?_
  refine .expect follows fun _ => ?_
  exact reads.bind fun _ => .ok

theorem readsHead_loop {cond : Tree} (kind : l.kind = .kwWhile)
    (test : ReadsExpression neg cond w) (follows : k.kind = .kwDo) :
    ReadsHead neg (.loop l cond) (l :: (w ++ [k])) := by
  intro s rest body reads
  rw [prepend_cons, prepend_append, prepend_cons, prepend_nil, readStatement]
  obtain ⟨⟩ := l
  cases kind
  refine (test (s.push k) (congrArg endsExpression follows)).bind fun _ => ?_
  refine .expect follows fun _ => ?_
  exact reads.bind fun _ => .ok

variable (neg) in
/-- The tokens of a statement in which every `else` belongs to the last `if` that can have one. The
flag says that an `else` behind the statement would belong to it too. -/
inductive Balanced : Bool → Tree → List Token → Prop
  | simple {v : Tree} {w : List Token} : ReadsStatement neg v w → Balanced false v w
  | branch {takesElse : Bool} {i t : Token} {cond yes : Tree} {c w : List Token} :
    i.kind = .kwIf → ReadsExpression neg cond c → t.kind = .kwThen → Balanced takesElse yes w →
    Balanced true (.branch i cond (bodyOf yes w) .absent) (i :: (c ++ t :: w))
  | branchElse {takesElse : Bool} {i t e : Token} {cond yes no : Tree} {c v w : List Token} :
    i.kind = .kwIf → ReadsExpression neg cond c → t.kind = .kwThen → Balanced false yes v →
    e.kind = .kwElse → Balanced takesElse no w →
    Balanced takesElse (.branch i cond (bodyOf yes v) (bodyOf no w)) (i :: (c ++ t :: (v ++ e :: w)))
  | loop {takesElse : Bool} {make : Tree → Tree} {body : Tree} {h w : List Token} :
    ReadsHead neg make h → Balanced takesElse body w → Balanced takesElse (make (bodyOf body w)) (h ++ w)

/-- An `else` and a statement behind it can be added to a statement that takes them. -/
theorem Balanced.otherwise {v : List Token} (h : Balanced neg true yes w)
    (kind : e.kind = .kwElse) (later : Balanced neg takesElse no v) :
    ∃ takesElse' t, Balanced neg takesElse' t (w ++ e :: v) := by
  generalize is : true = takes at h
  induction h with
  | simple => cases is
  | @branch takes i t cond yes c w opens test follows body ih =>
    rw [cons_append, append_assoc, cons_append]
    cases takes with
    | false => exact ⟨_, _, .branchElse opens test follows body kind later⟩
    | true =>
      obtain ⟨_, _, whole⟩ := ih rfl
      exact ⟨_, _, .branch opens test follows whole⟩
  | branchElse opens test follows yes kind' _ _ ih =>
    obtain ⟨_, _, whole⟩ := ih is
    rw [cons_append, append_assoc, cons_append, append_assoc, cons_append]
    exact ⟨_, _, .branchElse opens test follows yes kind' whole⟩
  | loop head _ ih =>
    obtain ⟨_, _, whole⟩ := ih is
    rw [append_assoc]
    exact ⟨_, _, .loop head whole⟩

/-- A balanced statement is read to its end, unless it takes an `else` behind it. -/
theorem Balanced.takes (h : Balanced neg takesElse v w) {rest : Stream}
    (ends : rest.head.kind.endsStatement = true) (noElse : takesElse = true → rest.head.kind ≠ .kwElse) :
    Takes (readStatement neg (rest.prepend w)) v rest := by
  induction h generalizing rest with
  | simple reads => exact reads rest ends
  | @branch takes i t cond yes c w kind test follows _ ih =>
    have body := takes_body (ih ends fun _ => noElse rfl)
    rw [prepend_cons, prepend_append, prepend_cons, readStatement]
    obtain ⟨⟩ := i
    cases kind
    refine (test (Stream.push _ t) (congrArg endsExpression follows)).bind fun _ => ?_
    refine .expect follows fun _ => ?_
    refine body.bind fun _ => ?_
    dsimp only
    rw [dif_neg (noElse rfl)]
    exact .ok
  | @branchElse takes i t e cond yes no c v w kind test follows _ otherwise _ ihYes ihNo =>
    have last := takes_body (ihNo ends noElse)
    have behind : ((rest.prepend w).push e).head.kind.endsStatement = true := congrArg endsStatement otherwise
    have first := takes_body (ihYes behind fun takes => absurd takes Bool.false_ne_true)
    rw [prepend_cons, prepend_append, prepend_cons, prepend_append, prepend_cons, readStatement]
    obtain ⟨⟩ := i
    cases kind
    refine (test (Stream.push _ t) (congrArg endsExpression follows)).bind fun _ => ?_
    refine .expect follows fun _ => ?_
    refine first.bind fun _ => ?_
    dsimp only
    rw [dif_pos (by rw [head_push, otherwise])]
    exact last.bind fun _ => .ok
  | loop head _ ih =>
    rw [prepend_append]
    exact head _ _ _ (takes_body (ih ends noElse))

/-! ### Compound statements -/

variable (neg) in
/-- What is left of the inside of a compound statement starts with a semicolon or is nothing. -/
inductive Closes (s : Stream) : List Tree → Stream → Prop
  | ends : s.head.kind = .kwEnd → Closes s [] s
  | semi {us : List Tree} {rest : Stream} :
    s.head.kind = .semi → Takes (readStatements neg s.tail) us rest → Closes s us rest

theorem Closes.takes (h : Closes neg s us rest) : Takes (readStatements neg s) us rest := by
  rw [readStatements]
  cases h with
  | ends kind =>
    rw [if_pos kind]
    exact .ok
  | semi kind later =>
    rw [if_neg (by rw [kind]; decide), dif_pos kind]
    exact later.bind fun _ => .ok

theorem Closes.endsStatement (h : Closes neg s us rest) : s.head.kind.endsStatement = true ∧ s.head.kind ≠ .kwElse := by
  cases h with
  | ends kind | semi kind => rw [kind]; decide

/-- Semicolons are passed over. -/
theorem takes_semis (semis : Semis ss) (h : Takes (readStatements neg s) us rest) :
    Takes (readStatements neg (s.prepend ss)) us rest := by
  induction ss with
  | nil => exact h
  | cons t ss ih =>
    obtain ⟨kind, later⟩ := forall_mem_cons.mp semis
    exact Closes.takes (.semi kind (ih later))

theorem closes_semis (semis : Semis ss) (h : Closes neg s us rest) : Closes neg (s.prepend ss) us rest := by
  cases ss with
  | nil => exact h
  | cons t ss =>
    obtain ⟨kind, later⟩ := forall_mem_cons.mp semis
    exact .semi kind (takes_semis later h.takes)

variable (neg) in
/-- The tokens of statements inside a compound statement. -/
def ReadsSequence (vs : List Tree) (w : List Token) : Prop := ∀ (s rest : Stream) (us : List Tree),
  Closes neg s us rest → Takes (readStatements neg (s.prepend w)) (vs ++ us) rest

theorem readsSequence_last (h : Balanced neg takesElse v w) : ReadsSequence neg [v] w := by
  intro s rest us closes
  obtain ⟨ends, noElse⟩ := closes.endsStatement
  have statement := h.takes ends fun _ => noElse
  have starts := statement_starts statement
  rw [readStatements, if_neg (by intro kind; rw [kind] at starts; exact absurd starts (by decide)),
    dif_neg (by intro kind; rw [kind] at starts; exact absurd starts (by decide))]
  refine statement.bind fun _ => ?_
  dsimp only
  cases closes with
  | ends kind =>
    rw [dif_neg (by rw [kind]; decide)]
    exact .ok
  | semi kind later =>
    rw [dif_pos kind]
    exact later.bind fun _ => .ok

theorem readsSequence_next {v : List Token} (first : Balanced neg takesElse u v) (some : ss ≠ [])
    (semis : Semis ss) (h : ReadsSequence neg us w) : ReadsSequence neg (u :: us) (v ++ (ss ++ w)) := by
  intro s rest later closes
  rw [prepend_append, prepend_append]
  refine readsSequence_last first _ _ _ ?_
  obtain ⟨t, ss, rfl⟩ := exists_cons_of_ne_nil some
  obtain ⟨kind, others⟩ := forall_mem_cons.mp semis
  exact .semi kind (takes_semis others (h s rest later closes))

theorem readsCompound_of_statements (opens : b.kind = .kwBegin)
    (h : ∀ s : Stream, s.head.kind = .kwEnd → Takes (readStatements neg (s.prepend w)) us s)
    (ends : e.kind = .kwEnd) : ReadsCompound neg (.block b us) (b :: (w ++ [e])) := by
  intro rest _
  rw [prepend_cons, prepend_append, prepend_cons, prepend_nil, readCompound]
  refine .expect opens fun _ => ?_
  exact (h (rest.push e) ends).bind fun _ => .expect ends fun _ => .ok

/-- Statements, with semicolons around them. -/
theorem readsCompound_of_sequence (opens : b.kind = .kwBegin)
    (before : Semis ss) (h : ReadsSequence neg us w) (behind : Semis ts) (ends : e.kind = .kwEnd) :
    ReadsCompound neg (.block b us) (b :: (ss ++ (w ++ (ts ++ [e])))) := by
  rw [← append_assoc, ← append_assoc]
  refine readsCompound_of_statements opens (fun s kind => ?_) ends
  rw [prepend_append, prepend_append]
  have inner := h _ _ _ (closes_semis behind (.ends kind))
  rw [append_nil] at inner
  exact takes_semis before inner

/-! ### Every part -/

variable (neg) in
/-- The tokens of a part are read as such. -/
def ReadsPart : Part → List Token → Prop
  | .operand, w => ∃ v, ReadsOperand neg v w
  | .operations, w => ∃ cs, w = flat cs ∧ ReadsOperations neg cs
  | .expression, w => ∃ v, ReadsExpression neg v w
  | .arguments, w => ∃ vs, ReadsArguments neg vs w
  | .target, w => ∃ v, ¬ IsCall v ∧ ReadsReference neg v w
  | .call, w => ∃ v, IsCall v ∧ ReadsCall neg v w
  | .statement, w => ∃ takesElse v, Balanced neg takesElse v w
  | .sequence, w => ∃ vs, ReadsSequence neg vs w
  | .compound, w => ∃ v, ReadsCompound neg v w

/-- Whatever the grammar spells is read. -/
theorem reads_of_derives (h : Derives neg part w) : ReadsPart neg part w := by
  induction h with
  | number kind => exact ⟨_, readsOperand_number kind⟩
  | text kind => exact ⟨_, readsOperand_text kind⟩
  | reference _ ih =>
    obtain ⟨v, _, target⟩ := ih
    exact ⟨v, readsOperand_of_reference target⟩
  | value _ ih =>
    obtain ⟨v, _, call⟩ := ih
    exact ⟨v, readsOperand_of_reference fun rest _ => call rest rfl⟩
  | parenthesized opens _ closes ih =>
    obtain ⟨v, inner⟩ := ih
    exact ⟨v, readsOperand_parenthesized opens inner closes⟩
  | negative minus number => exact ⟨_, readsOperand_negative minus number⟩
  | negated allowed minus _ ih =>
    obtain ⟨v, operand⟩ := ih
    exact readsOperand_negated allowed minus operand
  | expression _ _ ihFirst ihRest =>
    obtain ⟨v, first⟩ := ihFirst
    obtain ⟨cs, rfl, operations⟩ := ihRest
    exact readsExpression_of_operations first operations
  | noOperation => exact ⟨[], rfl, forall_mem_nil _, forall_mem_nil _⟩
  | @operation v _ o kind _ _ ihOperand ihRest =>
    obtain ⟨cs, rfl, operations⟩ := ihRest
    exact ⟨(o, v) :: cs, rfl, forall_mem_cons.mpr ⟨kind, operations.operators⟩,
      forall_mem_cons.mpr ⟨ihOperand, operations.operands⟩⟩
  | name kind => exact ⟨_, not_isCall_name, readsReference_name kind⟩
  | element name opens _ closes ih =>
    obtain ⟨v, index⟩ := ih
    exact ⟨_, not_isCall_element, readsReference_element name opens index closes⟩
  | plainCall name opens closes => exact ⟨_, isCall_call, readsCall_plain name opens closes⟩
  | callWith name opens _ closes ih =>
    obtain ⟨vs, args⟩ := ih
    exact ⟨_, isCall_call, readsCall_with name opens args closes⟩
  | lastArgument _ ih =>
    obtain ⟨v, arg⟩ := ih
    exact ⟨_, readsArguments_last arg⟩
  | argument _ comma _ ihFirst ihRest =>
    obtain ⟨v, arg⟩ := ihFirst
    obtain ⟨vs, args⟩ := ihRest
    exact ⟨_, readsArguments_next arg comma args⟩
  | mention _ ih =>
    obtain ⟨v, noCall, target⟩ := ih
    exact ⟨_, v, .simple (readsStatement_mention noCall target)⟩
  | perform _ ih =>
    obtain ⟨v, isCall, call⟩ := ih
    exact ⟨_, v, .simple (readsStatement_perform isCall call)⟩
  | assign _ kind _ ihTarget ihValue =>
    obtain ⟨u, noCall, target⟩ := ihTarget
    obtain ⟨v, value⟩ := ihValue
    exact ⟨_, _, .simple (readsStatement_assign noCall target kind value)⟩
  | branch opens _ follows _ ihCond ihYes =>
    obtain ⟨c, cond⟩ := ihCond
    obtain ⟨_, u, yes⟩ := ihYes
    exact ⟨_, _, .branch opens cond follows yes⟩
  | branchElse opens _ follows _ otherwise _ ihCond ihYes ihNo =>
    obtain ⟨c, cond⟩ := ihCond
    obtain ⟨takesElse, u, yes⟩ := ihYes
    obtain ⟨_, v, no⟩ := ihNo
    cases takesElse with
    | false => exact ⟨_, _, .branchElse opens cond follows yes otherwise no⟩
    | true =>
      obtain ⟨_, _, whole⟩ := yes.otherwise otherwise no
      exact ⟨_, _, .branch opens cond follows whole⟩
  | count opens name assign _ direction _ follows _ ihFirst ihLast ihBody =>
    obtain ⟨a, first⟩ := ihFirst
    obtain ⟨b, last⟩ := ihLast
    obtain ⟨_, v, body⟩ := ihBody
    have whole := Balanced.loop (readsHead_count opens name assign first direction last follows) body
    exact ⟨_, _, by simpa using whole⟩
  | loop opens _ follows _ ihCond ihBody =>
    obtain ⟨c, cond⟩ := ihCond
    obtain ⟨_, v, body⟩ := ihBody
    have whole := Balanced.loop (readsHead_loop opens cond follows) body
    exact ⟨_, _, by simpa using whole⟩
  | leave kind => exact ⟨_, _, .simple (readsStatement_leave kind)⟩
  | exit kind => exact ⟨_, _, .simple (readsStatement_exit kind)⟩
  | block _ ih =>
    obtain ⟨v, compound⟩ := ih
    exact ⟨_, v, .simple (readsStatement_compound compound)⟩
  | lastStatement _ ih =>
    obtain ⟨_, v, statement⟩ := ih
    exact ⟨_, readsSequence_last statement⟩
  | nextStatement _ some semis _ ihFirst ihRest =>
    obtain ⟨_, v, statement⟩ := ihFirst
    obtain ⟨vs, statements⟩ := ihRest
    exact ⟨_, readsSequence_next statement some semis statements⟩
  | emptyCompound opens semis ends =>
    exact ⟨_, readsCompound_of_statements opens (fun s kind => takes_semis semis (Closes.ends kind).takes) ends⟩
  | compound opens before _ behind ends ih =>
    obtain ⟨vs, statements⟩ := ih
    exact ⟨_, readsCompound_of_sequence opens before statements behind ends⟩

end Statements

end Tree

end MiniPascal
