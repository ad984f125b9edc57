import MiniPascal.Proofs.Pull.Follow

/-!
# Expressions, level by level

The grammar of expressions has a rule for each level of operators: an expression is a chain of simple
expressions with relations between them, a simple expression a chain of terms with `+`, `-` and `or`
between them, and a term a chain of operands with `*`, `div`, `mod` and `and` between them.
`readStratified` reads by these rules, one function to a level, and folds each chain to the left.

The reader climbs instead: `readOperators level` folds all operators that bind tighter than `level`. Of
two neighbouring levels the lower one does what the higher one does and then reads a chain
(`readOperators_split`), so that the two readers are one (`readExpression_eq_stratified`).
-/

namespace MiniPascal

namespace Kind

/-- The operators between simple expressions. -/
def isRelation : Kind → Bool
  | .lt | .le | .gt | .ge | .eq | .ne => true
  | _ => false

/-- The operators between terms. -/
def isSum : Kind → Bool
  | .plus | .minus | .kwOr => true
  | _ => false

/-- The operators between operands. -/
def isProduct : Kind → Bool
  | .star | .kwDiv | .kwMod | .kwAnd => true
  | _ => false

end Kind

namespace Tree

/-! ## Reading by levels -/

/-- Reads operators of a level, each with the operand behind it, and folds them onto `left` from the
left. -/
def readChain (isOperator : Kind → Bool) (known : isOperator .eof = false)
    (operand : (s : Stream) → Parse Tree s.size) (left : Tree) (s : Stream) : Parse Tree (s.size + 1) :=
  if h : isOperator s.head.kind then do
    have h₀ : s.tail.size < s.size := Stream.size_tail_lt fun eof => Bool.false_ne_true (known.symm.trans (eof ▸ h))
    let ⟨right, s₁, h₁⟩ ← operand s.tail
    let ⟨whole, s₂, h₂⟩ ←
      readChain isOperator known operand (.binary s.head s.head.kind left right) s₁
    return ⟨whole, s₂, by omega⟩
  else
    return ⟨left, s, by omega⟩
termination_by s.size

/-- Reads an operand of a level and the chain behind it. -/
def readLevel (isOperator : Kind → Bool) (known : isOperator .eof = false)
    (operand : (s : Stream) → Parse Tree s.size) (s : Stream) : Parse Tree s.size := do
  let first ← operand s
  let whole ← readChain isOperator known operand first.value first.rest
  return ⟨whole.value, whole.rest, by have := first.size_lt; have := whole.size_lt; omega⟩

/-- Reads a term. -/
def readTerm (neg : Bool) : (s : Stream) → Parse Tree s.size :=
  readLevel Kind.isProduct rfl (readPrimary neg)

/-- Reads a simple expression. -/
def readSimple (neg : Bool) : (s : Stream) → Parse Tree s.size :=
  readLevel Kind.isSum rfl (readTerm neg)

/-- Reads an expression, level by level. -/
def readStratified (neg : Bool) : (s : Stream) → Parse Tree s.size :=
  readLevel Kind.isRelation rfl (readSimple neg)

/-! ## Outcomes -/

/-- Induction on the number of tokens that are left. -/
theorem size_induction {P : Stream → Prop}
    (step : ∀ s : Stream, (∀ s' : Stream, s'.size < s.size → P s') → P s) (s : Stream) : P s := by
  induction n : s.size using Nat.strongRecOn generalizing s with
  | _ n ih => exact step s fun s' shorter => ih s'.size (by omega) s' rfl

section Outcomes

variable {α β : Type} {n m : Nat}

theorem outcome_ok_bind {f : α × Stream → Except SyntaxFault β} :
    outcome (.ok ⟨v, rest, lt⟩ : Parse α n) >>= f = f (v, rest) := rfl

/-- A reader is known by its outcome. -/
theorem outcome_inj {r r' : Parse α n} (same : outcome r = outcome r') : r = r' := by
  cases r with
  | error f =>
    cases r' with
    | error f' => exact congrArg Except.error (Except.error.inj same)
    | ok y => cases same
  | ok x =>
    obtain ⟨v, rest, lt⟩ := x
    cases r' with
    | error f' => cases same
    | ok y =>
      obtain ⟨v', rest', lt'⟩ := y
      cases same
      rfl

theorem outcome_bind {r : Parse α n} {f : Parsed α n → Parse β m} {g : α × Stream → Except SyntaxFault (β × Stream)}
    (same : ∀ v rest lt, r = .ok ⟨v, rest, lt⟩ → outcome (f ⟨v, rest, lt⟩) = g (v, rest)) :
    outcome (r >>= f) = outcome r >>= g := by
  cases r with
  | error e => rfl
  | ok x => exact same x.value x.rest x.size_lt rfl

/-- What is left is shorter than the bound says. -/
theorem size_lt_of_outcome {r : Parse α n} {v : α} {rest : Stream} (run : outcome r = .ok (v, rest)) :
    rest.size < n := by
  cases r with
  | error e => cases run
  | ok x =>
    cases run
    exact x.size_lt

theorem outcome_bind_congr {r : Parse α n} {f g : α × Stream → Except SyntaxFault β}
    (same : ∀ v rest, outcome r = .ok (v, rest) → f (v, rest) = g (v, rest)) : outcome r >>= f = outcome r >>= g := by
  cases r with
  | error e => rfl
  | ok x => exact same x.value x.rest rfl

end Outcomes

/-! ## Climbing -/

section Climbing

variable {neg : Bool}

theorem readOperators_low (low : s.head.kind.precedence ≤ level) :
    readOperators neg level left s = .ok ⟨left, s, Nat.lt_succ_self _⟩ := by
  rw [readOperators]
  rw [dif_pos low]
  rfl

/-- An operator that binds tighter takes its right operand, and reading goes on behind it. -/
theorem readOperators_high (high : level < s.head.kind.precedence) :
    outcome (readOperators neg level left s) = outcome (readPrimary neg s.tail) >>= fun x =>
      outcome (readOperators neg s.head.kind.precedence x.1 x.2) >>= fun y =>
      outcome (readOperators neg level (.binary s.head s.head.kind left y.1) y.2) := by
  conv => lhs; rw [readOperators]
  rw [dif_neg (Nat.not_le_of_gt high)]
  refine outcome_bind fun operand s₁ h₁ _ => outcome_bind fun right s₂ h₂ _ => ?_
  exact outcome_last fun _ _ _ => rfl

/-- Operators are read up to one that does not bind tighter. -/
theorem readOperators_stops {level : Nat} {left t : Tree} {s rest : Stream}
    (run : outcome (readOperators neg level left s) = .ok (t, rest)) : rest.head.kind.precedence ≤ level := by
  induction s using size_induction generalizing left with
  | step s ih =>
    by_cases low : s.head.kind.precedence ≤ level
    · rw [readOperators_low low] at run
      cases run
      exact low
    · have h₀ : s.tail.size < s.size :=
        Stream.size_tail_lt fun eof => low (by simp [eof, Kind.precedence])
      rw [readOperators_high (Nat.lt_of_not_le low)] at run
      obtain ⟨⟨operand, s₁⟩, first, run⟩ := exists_of_bind_ok run
      obtain ⟨⟨right, s₂⟩, second, run⟩ := exists_of_bind_ok run
      have h₁ := size_lt_of_outcome first
      have h₂ : s₂.size < s₁.size + 1 := size_lt_of_outcome second
      exact ih s₂ (by omega) run

/-! ## Chains -/

section Chains

variable {isOperator : Kind → Bool} {known : isOperator .eof = false}
  {operand : (s : Stream) → Parse Tree s.size}

theorem readChain_nil {s : Stream} (none : isOperator s.head.kind = false) :
    readChain isOperator known operand left s = .ok ⟨left, s, Nat.lt_succ_self _⟩ := by
  rw [readChain, dif_neg (Bool.eq_false_iff.mp none)]
  rfl

theorem readChain_cons {s : Stream} (operator : isOperator s.head.kind = true) :
    outcome (readChain isOperator known operand left s) = outcome (operand s.tail) >>= fun x =>
      outcome (readChain isOperator known operand (.binary s.head s.head.kind left x.1) x.2) := by
  conv => lhs; rw [readChain, dif_pos operator]
  refine outcome_bind fun right s₁ h₁ _ => ?_
  exact outcome_last fun _ _ _ => rfl

theorem outcome_readLevel {s : Stream} : outcome (readLevel isOperator known operand s) =
      outcome (operand s) >>= fun x =>
      outcome (readChain isOperator known operand x.1 x.2) := by
  refine outcome_bind fun first s₁ h₁ _ => ?_
  exact outcome_last fun _ _ _ => rfl

variable (neg) in
/-- A reader of operands reads a first operand and folds the operators that bind tighter than a level. -/
def Climbs (level : Nat) (operand : (s : Stream) → Parse Tree s.size) : Prop :=
  ∀ s, outcome (operand s) = outcome (readPrimary neg s) >>= fun x => outcome (readOperators neg level x.1 x.2)

/-- Of two neighbouring levels, the lower one folds what the higher one folds, and then a chain of the
operators that are on the higher one. -/
theorem readOperators_split {low high : Nat} (below : low < high)
    (between : ∀ k : Kind, k.precedence ≤ low ∨ high ≤ k.precedence)
    (level : ∀ k : Kind, isOperator k = true ↔ k.precedence = high) (climbs : Climbs neg high operand)
    (left : Tree) (s : Stream) : outcome (readOperators neg low left s) =
      outcome (readOperators neg high left s) >>= fun x =>
      outcome (readChain isOperator known operand x.1 x.2) := by
  induction s using size_induction generalizing left with
  | step s ih =>
    rcases between s.head.kind with none | binds
    · -- no operator of either level follows
      have other : isOperator s.head.kind = false := by
        rw [Bool.eq_false_iff]
        intro is
        have := (level _).mp is
        omega
      rw [readOperators_low none, readOperators_low (Nat.le_of_lt (Nat.lt_of_le_of_lt none below)),
        outcome_ok_bind, readChain_nil other]
    · have h₀ : s.tail.size < s.size := Stream.size_tail_lt fun eof => by
        rw [eof] at binds
        exact absurd (Nat.lt_of_lt_of_le below binds) (Nat.not_lt_zero low)
      rw [readOperators_high (Nat.lt_of_lt_of_le below binds)]
      rcases Nat.lt_or_eq_of_le binds with tighter | same
      · -- both levels take the operator, and go on behind its right operand
        rw [readOperators_high tighter, bind_assoc]
        refine outcome_bind_congr fun first s₁ read => ?_
        rw [bind_assoc]
        refine outcome_bind_congr fun right s₂ read' => ?_
        have h₁ := size_lt_of_outcome read
        have h₂ : s₂.size < s₁.size + 1 := size_lt_of_outcome read'
        exact ih s₂ (by omega) _
      · -- the operator is the first of the chain, and its right operand one of the higher level
        rw [readOperators_low (Nat.le_of_eq same.symm), outcome_ok_bind,
          readChain_cons ((level _).mpr same.symm), climbs, bind_assoc, ← same]
        refine outcome_bind_congr fun first s₁ read => ?_
        refine outcome_bind_congr fun right s₂ read' => ?_
        have h₁ := size_lt_of_outcome read
        have h₂ : s₂.size < s₁.size + 1 := size_lt_of_outcome read'
        rw [ih s₂ (by omega), readOperators_low (readOperators_stops read'), outcome_ok_bind]

theorem Climbs.level (climbs : Climbs neg high operand) (below : low < high)
    (between : ∀ k : Kind, k.precedence ≤ low ∨ high ≤ k.precedence)
    (level : ∀ k : Kind, isOperator k = true ↔ k.precedence = high) :
    Climbs neg low (readLevel isOperator known operand) := by
  intro s
  rw [outcome_readLevel, climbs, bind_assoc]
  exact outcome_bind_congr fun first s₁ _ =>
    (readOperators_split below between level climbs first s₁).symm

end Chains

/-! ## The three levels -/

/-- No operator binds tighter than those between operands. -/
theorem climbs_primary : Climbs neg 40 (readPrimary neg) := by
  have most : ∀ k : Kind, k.precedence ≤ 40 := by
    intro k
    cases k <;> simp [Kind.precedence]
  intro s
  cases readPrimary neg s with
  | error f => rfl
  | ok x =>
    rw [outcome_ok_bind, readOperators_low (most _)]
    rfl

theorem climbs_term : Climbs neg 20 (readTerm neg) := by
  refine climbs_primary.level (by decide) ?_ ?_
  · intro k
    cases k <;> simp [Kind.precedence]
  · intro k
    cases k <;> simp [Kind.precedence, Kind.isProduct]

theorem climbs_simple : Climbs neg 10 (readSimple neg) := by
  refine climbs_term.level (by decide) ?_ ?_
  · intro k
    cases k <;> simp [Kind.precedence]
  · intro k
    cases k <;> simp [Kind.precedence, Kind.isSum]

theorem climbs_stratified : Climbs neg 0 (readStratified neg) := by
  refine climbs_simple.level (by decide) ?_ ?_
  · intro k
    cases k <;> simp [Kind.precedence]
  · intro k
    cases k <;> simp [Kind.precedence, Kind.isRelation]

end Climbing

/-- Climbing reads what the levels of the grammar say: the same tree and the same rest, or the same
fault. -/
theorem readExpression_eq_stratified (neg : Bool) (s : Stream) : readExpression neg s = readStratified neg s := by
  refine outcome_inj ?_
  rw [climbs_stratified, readExpression]
  refine outcome_bind fun first s₁ h₁ _ => ?_
  exact outcome_last fun _ _ _ => rfl

end Tree

end MiniPascal
