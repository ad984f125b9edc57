import MiniPascal.Proofs.Tree.Shape
import MiniPascal.Proofs.Tree.Spelling

/-!
# Printing programs

Every tree that is well formed can be written as a list of tokens: with parentheses around the operands of
each operator and the arguments of each call, with `begin` and `end` around each body, and with each
declaration by itself. The numbers among those tokens are literals that a text can have (`Tree.small_print`).

`Tree.WellFormed` asks nothing of names and strings: they are kept as they are by tokens that carry them.
Every tree that is read off a text is well formed (`Tree.wellFormed_of_isProgram`).
-/

open List

namespace MiniPascal

/-! ## Tokens without a place -/

namespace Token

/-- A keyword or an operator. -/
def sign (k : Kind) : Token := { kind := k }

/-- An identifier. -/
def word (x : String) : Token := { kind := .identifier, value := x }

/-- A number, in decimal digits. -/
def numeral (v : Int64) : Token := { kind := .number, value := toString v, number := v }

/-- A string. -/
def quoted (s : String) : Token := { kind := .string, value := s }

/-- A number, behind a minus sign if it is negative. -/
def signed (v : Int64) : List Token := if v < 0 then [sign .minus, numeral (-v)] else [numeral v]

/-- Tokens in parentheses. -/
def parens (w : List Token) : List Token := sign .lparen :: (w ++ [sign .rparen])

/-- Lists of tokens with an operator between them. -/
def separated (k : Kind) (ws : List (List Token)) : List Token := [sign k].intercalate ws

theorem separated_singleton (k : Kind) (w : List Token) : separated k [w] = w :=
  intercalate_singleton

theorem separated_cons (k : Kind) (w : List Token) (more : ws ≠ []) :
    separated k (w :: ws) = w ++ sign k :: separated k ws := by
  rw [separated, intercalate_cons_of_ne_nil more, append_assoc]
  rfl

end Token

open Token

/-- A type as it is written. -/
def VarType.print : VarType → List Token
  | void => []
  | integer => [sign .kwInteger]
  | array lower upper elem =>
    sign .kwArray :: sign .lbracket ::
      (signed lower ++ sign .dotDot :: (signed upper ++ sign .rbracket :: sign .kwOf :: elem.print))

namespace Tree

/-! ## Printing -/

mutual

/-- An expression or a statement as it is written. -/
def printCode : Tree → List Token
  | number _ value => signed value
  | text _ value => [quoted value]
  | name _ x => [word x]
  | element _ array index => word array :: sign .lbracket :: (index.printCode ++ [sign .rbracket])
  | binary _ op left right => parens left.printCode ++ sign op :: parens right.printCode
  | call _ f args => word f :: parens (separated .comma (printEach args))
  | assign _ target value => target.printCode ++ sign .assign :: value.printCode
  | branch _ cond yes no =>
    let otherwise := if no.isAbsent then [] else sign .kwElse :: no.printCode
    sign .kwIf :: (cond.printCode ++ sign .kwThen :: (yes.printCode ++ otherwise))
  | count _ var start stop down body =>
    let direction := sign (if down then .kwDownto else .kwTo)
    sign .kwFor :: word var :: sign .assign ::
      (start.printCode ++ direction :: (stop.printCode ++ sign .kwDo :: body.printCode))
  | loop _ cond body => sign .kwWhile :: (cond.printCode ++ sign .kwDo :: body.printCode)
  | leave _ => [sign .kwBreak]
  | exit _ => [sign .kwExit]
  | block _ stmts => sign .kwBegin :: (separated .semi (printEach stmts) ++ [sign .kwEnd])
  | _ => []

/-- Expressions or statements, each by itself. -/
def printEach : List Tree → List (List Token)
  | [] => []
  | t :: ts => t.printCode :: printEach ts

end

/-- A variable with its type. -/
def printGroup : Tree → List Token
  | varDecl _ x type _ => word x :: sign .colon :: type.print
  | _ => []

/-- A variable or a constant, as a declaration of its own. -/
def printDeclaration : Tree → List Token
  | constDecl _ x value => sign .kwConst :: word x :: sign .eq :: (signed value ++ [sign .semi])
  | t => sign .kwVar :: (t.printGroup ++ [sign .semi])

/-- The result of a function; a procedure has none. -/
def printResult (result : VarType) : List Token :=
  if result ≠ .void then sign .colon :: result.print else []

/-- A routine. The parentheses around its parameters are always there. -/
def printRoutine : Tree → List Token
  | routine _ f params result locals body =>
    let code :=
      if body.isAbsent then [sign .kwForward]
      else locals.flatMap printDeclaration ++ body.printCode
    sign (routineWord (decide (result ≠ .void))) :: word f :: (parens (separated .semi (params.map printGroup)) ++
        (printResult result ++ sign .semi :: (code ++ [sign .semi])))
  | _ => []

/-- A program: its variables and constants, its routines, and its body. -/
def print : Tree → List Token
  | program _ x decls routines main =>
    sign .kwProgram :: word x :: sign .semi ::
      (decls.flatMap printDeclaration ++ (routines.flatMap printRoutine ++ (main.printCode ++ [sign .dot])))
  | _ => []

/-! ## Trees without places -/

mutual

/-- A tree without the tokens that mark its places in a text. -/
def bare : Tree → Tree
  | absent => absent
  | number _ value => number .nowhere value
  | text _ value => text .nowhere value
  | name _ x => name .nowhere x
  | element _ array index => element .nowhere array index.bare
  | assign _ target value => assign .nowhere target.bare value.bare
  | binary _ op left right => binary .nowhere op left.bare right.bare
  | call _ f args => call .nowhere f (bareEach args)
  | branch _ cond yes no => branch .nowhere cond.bare yes.bare no.bare
  | count _ var start stop down body => count .nowhere var start.bare stop.bare down body.bare
  | loop _ cond body => loop .nowhere cond.bare body.bare
  | leave _ => leave .nowhere
  | exit _ => exit .nowhere
  | block _ stmts => block .nowhere (bareEach stmts)
  | varDecl _ x type _ => varDecl .nowhere x type .nowhere
  | constDecl _ x value => constDecl .nowhere x value
  | routine _ f params result locals body =>
    routine .nowhere f (bareEach params) result (bareEach locals) body.bare
  | program _ x decls routines main =>
    program .nowhere x (bareEach decls) (bareEach routines) main.bare
  | unknown _ code => unknown .nowhere code

/-- Each tree of a list without its places. -/
def bareEach : List Tree → List Tree
  | [] => []
  | t :: ts => t.bare :: bareEach ts

end

@[simp] theorem printEach_eq_map (ts : List Tree) : printEach ts = ts.map printCode := by
  induction ts with
  | nil => rfl
  | cons t ts ih => rw [printEach, ih, map_cons]

@[simp] theorem bareEach_eq_map (ts : List Tree) : bareEach ts = ts.map bare := by
  induction ts with
  | nil => rfl
  | cons t ts ih => rw [bareEach, ih, map_cons]

@[simp] theorem isAbsent_bare (t : Tree) : t.bare.isAbsent = t.isAbsent := by
  cases t <;> rw [bare] <;> rfl

theorem printCode_call (tok : Token) (f : String) (args : List Tree) :
    (Tree.call tok f args).printCode = word f :: parens (separated .comma (args.map printCode)) := by
  rw [printCode, printEach_eq_map]

theorem printCode_block (tok : Token) (stmts : List Tree) : (Tree.block tok stmts).printCode =
    sign .kwBegin :: (separated .semi (stmts.map printCode) ++ [sign .kwEnd]) := by
  rw [printCode, printEach_eq_map]

theorem bare_routine (tok : Token) (f : String) (params : List Tree) (result : VarType)
    (locals : List Tree) (body : Tree) : (Tree.routine tok f params result locals body).bare =
      .routine .nowhere f (params.map bare) result (locals.map bare) body.bare := by
  rw [bare, bareEach_eq_map, bareEach_eq_map]

/-! ## Well-formed trees -/

/-- What a tree stands for in a body. -/
inductive Role where
  | expression
  | reference
  | call
  | statement
  | body

/-- The trees that can stand for a part of a body. -/
inductive Fits : Role → Tree → Prop
  | number : IsLiteral v → Fits .expression (.number u v)
  | text : Fits .expression (.text u v)
  | operand : Fits .reference t → Fits .expression t
  | result : Fits .call t → Fits .expression t
  | binary :
    op ∈ Grammar.operators → Fits .expression left → Fits .expression right →
    Fits .expression (.binary u op left right)
  | name : Fits .reference (.name u x)
  | element : Fits .expression index → Fits .reference (.element u array index)
  | call : (∀ arg ∈ args, Fits .expression arg) → Fits .call (.call u f args)
  | mention : Fits .reference t → Fits .statement t
  | perform : Fits .call t → Fits .statement t
  | assign :
    Fits .reference target → Fits .expression v → Fits .statement (.assign u target v)
  | branch {cond : Tree} :
    Fits .expression cond → Fits .body yes → Fits .statement (.branch u cond yes .absent)
  | branchElse {cond : Tree} :
    Fits .expression cond → Fits .body yes → Fits .body no → Fits .statement (.branch u cond yes no)
  | count :
    Fits .expression start → Fits .expression stop → Fits .body body →
    Fits .statement (.count u var start stop down body)
  | loop {cond : Tree} :
    Fits .expression cond → Fits .body body → Fits .statement (.loop u cond body)
  | leave : Fits .statement (.leave u)
  | exit : Fits .statement (.exit u)
  | compound : Fits .body t → Fits .statement t
  | block : (∀ s ∈ stmts, Fits .statement s) → Fits .body (.block u stmts)

/-- The trees of variables. -/
inductive FitsVariable : Tree → Prop
  | mk : type.Proper → FitsVariable (.varDecl u x type typeTok)

/-- The trees of variables and constants. -/
inductive FitsDeclaration : Tree → Prop
  | var : FitsVariable t → FitsDeclaration t
  | const : IsLiteral v → FitsDeclaration (.constDecl u x v)

/-- The trees of routines. -/
inductive FitsRoutine : Tree → Prop
  | forward :
    (∀ p ∈ params, FitsVariable p) → (result = .void ∨ result.Proper) →
    FitsRoutine (.routine u f params result [] .absent)
  | defined :
    (∀ p ∈ params, FitsVariable p) → (result = .void ∨ result.Proper) →
    (∀ l ∈ locals, FitsVariable l) → Fits .body body → FitsRoutine (.routine u f params result locals body)

/-- The trees of programs: nodes stand where the grammar allows their kinds, bodies are blocks, bounds are in
order and numbers are literals, perhaps behind a minus sign. -/
inductive WellFormed : Tree → Prop
  | mk {main : Tree} :
    (∀ d ∈ decls, FitsDeclaration d) → (∀ r ∈ routines, FitsRoutine r) → Fits .body main →
    WellFormed (.program u x decls routines main)

/-! ## Written numbers -/

/-- The numbers among tokens are literals. -/
def Small (w : List Token) : Prop :=
  ∀ t ∈ w, t.kind = .number → 0 ≤ t.number.toInt ∧ t.number.toInt ≤ 2 ^ 31

section Small

variable {v w : List Token}

@[simp] theorem small_nil : Small [] := forall_mem_nil _

@[simp] theorem small_append : Small (v ++ w) ↔ Small v ∧ Small w := forall_mem_append

theorem small_cons (other : t.kind ≠ .number) : Small (t :: w) ↔ Small w := by
  rw [Small, forall_mem_cons]
  exact and_iff_right fun kind => absurd kind other

@[simp] theorem small_sign (other : k ≠ .number) : Small (sign k :: w) ↔ Small w :=
  small_cons other

@[simp] theorem small_word : Small (word x :: w) ↔ Small w := small_cons Kind.noConfusion

@[simp] theorem small_quoted : Small (quoted x :: w) ↔ Small w := small_cons Kind.noConfusion

@[simp] theorem small_parens : Small (parens w) ↔ Small w := by
  simp [parens]

theorem small_signed {value : Int64} (h : IsLiteral value) : Small (signed value) := by
  obtain ⟨low, high⟩ := h
  by_cases negative : value < 0
  · have below : value.toInt < 0 := Int64.lt_iff_toInt_lt.mp negative
    have magnitude : (-value).toInt = -value.toInt := by
      rw [Int64.toInt_neg]
      exact Int.bmod_eq_of_le (by omega) (by omega)
    rw [signed, if_pos negative, small_sign Kind.noConfusion]
    refine forall_mem_singleton.mpr fun _ => ?_
    change 0 ≤ (-value).toInt ∧ (-value).toInt ≤ 2 ^ 31
    omega
  · have above : ¬ value.toInt < 0 := fun below => negative (Int64.lt_iff_toInt_lt.mpr below)
    rw [signed, if_neg negative]
    exact forall_mem_singleton.mpr fun _ => ⟨by change 0 ≤ value.toInt; omega, high⟩

theorem small_separated (other : k ≠ .number) {ws : List (List Token)}
    (each : ∀ w ∈ ws, Small w) : Small (separated k ws) := by
  induction ws with
  | nil => exact small_nil
  | cons w ws ih =>
    have first := each w mem_cons_self
    by_cases more : ws = []
    · rwa [more, separated_singleton]
    · rw [separated_cons k w more, small_append, small_sign other]
      exact ⟨first, ih fun w member => each w (mem_cons_of_mem _ member)⟩

theorem small_each {print : Tree → List Token} {ts : List Tree} (each : ∀ t ∈ ts, Small (print t)) :
    ∀ w ∈ ts.map print, Small w := by
  simpa using each

theorem small_flatMap {print : Tree → List Token} {ts : List Tree} (each : ∀ t ∈ ts, Small (print t)) :
    Small (ts.flatMap print) := by
  induction ts with
  | nil => exact small_nil
  | cons t ts ih =>
    rw [flatMap_cons, small_append]
    exact ⟨each t mem_cons_self, ih fun u member => each u (mem_cons_of_mem _ member)⟩

theorem small_printCode (h : Fits role t) : Small t.printCode := by
  induction h with
  | number literal => exact small_signed literal
  | text | name | leave | exit => simp [printCode]
  | operand _ ih | result _ ih | mention _ ih | perform _ ih | compound _ ih => exact ih
  | @binary op _ _ _ operator _ _ left right =>
    have other : op ≠ .number := by
      rintro rfl
      exact absurd operator (by decide)
    simp [printCode, small_sign other, left, right]
  | element _ index => simp [printCode, index]
  | call _ args => simp [printCode_call, small_separated (k := .comma) Kind.noConfusion (small_each args)]
  | assign _ _ target value => simp [printCode, target, value]
  | branch _ _ cond yes => simp [printCode, isAbsent, cond, yes]
  | @branchElse _ no _ _ _ _ _ cond yes ihNo =>
    rw [printCode]
    split <;> simp [cond, yes, ihNo]
  | @count _ _ _ _ _ down _ _ _ start stop body =>
    cases down <;> simp [printCode, start, stop, body]
  | loop _ _ cond body => simp [printCode, cond, body]
  | block _ stmts => simp [printCode_block, small_separated (k := .semi) Kind.noConfusion (small_each stmts)]

theorem small_type {type : VarType} (h : type.Proper) : Small type.print := by
  induction h with
  | integer => simp [VarType.print]
  | array lower upper _ _ elem => simp [VarType.print, small_signed lower, small_signed upper, elem]

theorem small_printGroup {t : Tree} (h : FitsVariable t) : Small t.printGroup := by
  obtain ⟨proper⟩ := h
  simp [printGroup, small_type proper]

theorem small_printDeclaration (h : FitsDeclaration t) : Small t.printDeclaration := by
  cases h with
  | var fits =>
    have group := small_printGroup fits
    obtain ⟨proper⟩ := fits
    simp [printDeclaration, group]
  | const literal => simp [printDeclaration, small_signed literal]

theorem small_printResult {result : VarType} (h : result = .void ∨ result.Proper) : Small (printResult result) := by
  unfold printResult
  split
  · next some => simp [small_type (h.resolve_left some)]
  · exact small_nil

theorem small_printRoutine (h : FitsRoutine t) : Small t.printRoutine := by
  have word (isFunction : Bool) : routineWord isFunction ≠ .number := by
    cases isFunction <;> exact Kind.noConfusion
  cases h with
  | forward params result =>
    have groups := small_separated (k := .semi) Kind.noConfusion
      (small_each fun p member => small_printGroup (params p member))
    simp [printRoutine, isAbsent, small_sign (word _), groups, small_printResult result]
  | defined params result locals body =>
    have groups := small_separated (k := .semi) Kind.noConfusion
      (small_each fun p member => small_printGroup (params p member))
    have vars := small_flatMap fun l member => small_printDeclaration (.var (locals l member))
    rw [printRoutine]
    split <;>
      simp [small_sign (word _), groups, small_printResult result, vars, small_printCode body]

theorem small_print (h : WellFormed t) : Small t.print := by
  obtain ⟨decls, routines, main⟩ := h
  have first := small_flatMap fun d member => small_printDeclaration (decls d member)
  have second := small_flatMap fun r member => small_printRoutine (routines r member)
  simp [print, first, second, small_printCode main]

end Small

/-! ## Trees that are read off a text -/

theorem fits_of_isExpr (h : IsExpr t) : Fits .expression t := by
  induction h with
  | number literal => exact .number literal
  | text => exact .text
  | name => exact .operand .name
  | element _ _ index => exact .operand (.element index)
  | binary binds _ _ left right =>
    exact .binary (mem_operators_of_precedence (Nat.not_le_of_gt binds)) left right
  | call _ _ args => exact .result (.call args)

theorem fits_of_isReference (h : IsReference t) : Fits .reference t := by
  cases h with
  | name => exact .name
  | element _ index => exact .element (fits_of_isExpr index)

theorem fits_of_isStmt (h : IsStmt t) :
    Fits .statement t ∧ ∀ tok stmts, t = .block tok stmts → Fits .body t := by
  induction h with
  | reference target =>
    refine ⟨.mention (fits_of_isReference target), ?_⟩
    rintro _ _ rfl
    cases target
  | call _ args => exact ⟨.perform (.call fun arg member => fits_of_isExpr (args arg member)), by simp⟩
  | assign target value => exact ⟨.assign (fits_of_isReference target) (fits_of_isExpr value), by simp⟩
  | branch cond _ yes => exact ⟨.branch (fits_of_isExpr cond) (yes.2 _ _ rfl), by simp⟩
  | branchElse cond _ _ yes no =>
    exact ⟨.branchElse (fits_of_isExpr cond) (yes.2 _ _ rfl) (no.2 _ _ rfl), by simp⟩
  | count _ start stop _ body =>
    exact ⟨.count (fits_of_isExpr start) (fits_of_isExpr stop) (body.2 _ _ rfl), by simp⟩
  | loop cond _ body => exact ⟨.loop (fits_of_isExpr cond) (body.2 _ _ rfl), by simp⟩
  | leave => exact ⟨.leave, by simp⟩
  | exit => exact ⟨.exit, by simp⟩
  | block _ stmts =>
    exact ⟨.compound (.block fun s member => (stmts s member).1),
      fun _ _ _ => .block fun s member => (stmts s member).1⟩

theorem fitsVariable_of_isVarDecl (h : IsVarDecl t) : FitsVariable t := by
  obtain ⟨_, proper⟩ := h
  exact .mk proper

theorem wellFormed_of_isProgram (h : IsProgram t) : WellFormed t := by
  obtain ⟨decls, routines, main⟩ := h
  refine .mk (fun d member => ?_) (fun r member => ?_) ((fits_of_isStmt main).2 _ _ rfl)
  · cases decls d member with
    | var var => exact .var (fitsVariable_of_isVarDecl var)
    | const _ literal => exact .const literal
  · cases routines r member with
    | forward _ params result =>
      exact .forward (fun p member => fitsVariable_of_isVarDecl (params p member)) result
    | defined _ params result locals body =>
      exact .defined (fun p member => fitsVariable_of_isVarDecl (params p member)) result
        (fun l member => fitsVariable_of_isVarDecl (locals l member)) ((fits_of_isStmt body).2 _ _ rfl)

end Tree

end MiniPascal
