import MiniPascal.Proofs.Tree.Made
import MiniPascal.Proofs.Tree.Shape

/-!
# Reading yields trees of the right shape

Every tree that is made of good tokens has the shape of its species. Names are words because identifiers
are, and numbers are literals because number tokens are small.
-/

namespace MiniPascal

theorem isLiteral_of_number {t : Token} (h : t.Lexical) (number : t.kind = .number) : IsLiteral t.number := by
  have := h.number number
  exact ⟨by omega, this.2⟩

theorem isLiteral_neg_of_number {t : Token} (h : t.Lexical) (number : t.kind = .number) : IsLiteral (-t.number) := by
  obtain ⟨low, high⟩ := h.number number
  have exact_ : (-t.number).toInt = -t.number.toInt := by
    rw [Int64.toInt_neg]
    exact Int.bmod_eq_of_le (by omega) (by omega)
  exact ⟨by omega, by omega⟩

section Shapes

variable {c : Comparison} (lexical : ∀ t ∈ c.tokens, t.Lexical)

include lexical

theorem Written.isLiteral {v : Int64} (h : Written c.tokens v) : IsLiteral v := by
  obtain ⟨u, spelled, inside⟩ := h
  cases spelled with
  | plain number => exact isLiteral_of_number (lexical _ (inside.subset (by simp))) number
  | negative _ number => exact isLiteral_neg_of_number (lexical _ (inside.subset (by simp))) number

theorem VarType.Made.proper {type : VarType} (h : type.Made c.tokens) : type.Proper := by
  induction type with
  | integer => exact .integer
  | void =>
    obtain ⟨_, spelled, -⟩ := h
    cases spelled
  | array lower upper elem ih =>
    obtain ⟨first, last, ordered, made⟩ := h.array
    exact .array (first.isLiteral lexical) (last.isLiteral lexical)
      (Int64.le_iff_toInt_le.mp ordered) (ih made)

namespace Tree

omit lexical in
/-- The shape of the trees of a species. -/
def Species.Shaped : Species → Tree → Prop
  | .expression, t => IsExpr t
  | .reference, t => IsReference t
  | .call, t => IsExpr t ∧ IsStmt t
  | .statement, t => IsStmt t
  | .body, t => ∃ tok stmts, t = .block tok stmts ∧ IsStmt (.block tok stmts)
  | .var, t => IsVarDecl t
  | .declaration, t => IsDecl t
  | .routine, t => IsRoutine t
  | .program, t => IsProgram t

theorem Made.shaped {species : Species} {t t' : Tree} (h : Made c species t t') : species.Shaped t := by
  have result {start : Token} {type : VarType} (h : Heads c.tokens start type) :
      type = .void ∨ type.Proper := h.result.imp_right fun made => made.proper lexical
  have name {t : Token} (listed : t ∈ c.tokens) (kind : t.kind = .identifier) : IsName t.value :=
    ((lexical t listed).name kind).isName
  induction h with
  | number listed kind => exact .number (isLiteral_of_number (lexical _ listed.mem) kind)
  | negative _ _ kind beside =>
    exact .number (isLiteral_neg_of_number (lexical _ (beside.subset (by simp))) kind)
  | zero => exact .number ⟨by decide, by decide⟩
  | text => exact .text
  | operand _ ih => exact ih.isExpr
  | value _ ih => exact ih.1
  | binary _ operator _ _ left right => exact .binary operator left right
  | name listed kind => exact .name (name listed.mem kind)
  | element listed kind _ ih => exact .element (name listed.mem kind) ih
  | call listed kind same _ args =>
    have args := forall_of_zip same args
    exact ⟨.call (name listed.mem kind) args, .call (name listed.mem kind) args⟩
  | mention _ ih => exact .reference ih
  | perform _ ih => exact ih.2
  | assign _ _ _ target value => exact .assign target value
  | branch _ _ _ cond yes =>
    obtain ⟨_, _, rfl, yes⟩ := yes
    exact .branch cond yes
  | branchElse _ _ _ _ cond yes no =>
    obtain ⟨_, _, rfl, yes⟩ := yes
    obtain ⟨_, _, rfl, no⟩ := no
    exact .branchElse cond yes no
  | count _ inside kind _ _ _ start stop body =>
    obtain ⟨_, _, rfl, body⟩ := body
    exact .count (name inside kind) start stop body
  | loop _ _ _ cond body =>
    obtain ⟨_, _, rfl, body⟩ := body
    exact .loop cond body
  | leave => exact .leave
  | exit => exact .exit
  | block _ ih =>
    obtain ⟨_, _, rfl, stmt⟩ := ih
    exact stmt
  | body _ same _ stmts => exact ⟨_, _, rfl, .block (forall_of_zip same stmts)⟩
  | varDecl listed kind type => exact .mk (name listed.mem kind) (type.made.proper lexical)
  | global _ ih => exact .var ih
  | constDecl listed kind value => exact .const (name listed.mem kind) (value.written.isLiteral lexical)
  | forward _ inside kind same _ type params =>
    exact .forward (name inside kind) (forall_of_zip same params) (result type)
  | defined _ inside kind same _ type same' _ _ params locals body =>
    obtain ⟨_, _, rfl, body⟩ := body
    exact .defined (name inside kind) (forall_of_zip same params) (result type) (forall_of_zip same' locals) body
  | program _ _ _ same _ same' _ _ decls routines main =>
    obtain ⟨_, _, rfl, main⟩ := main
    exact .mk (forall_of_zip same decls) (forall_of_zip same' routines) main

end Tree

end Shapes

namespace Tree

theorem isProgram_of_ofTokens (lexical : s.Lexical)
    (parsed : ofTokens neg s = .ok t) : IsProgram t :=
  Made.shaped (c := .same s.tokens False) lexical (made_of_ofTokens parsed _)

/-- The tree of a text is the tree of a program. -/
theorem isProgram_of_ofSource
    (parsed : Tree.ofSource on source = .ok t) : IsProgram t :=
  isProgram_of_ofTokens (lexical_tokenize on 0 source) parsed

end Tree

end MiniPascal
