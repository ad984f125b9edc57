import MiniPascal.Tree.Reader
import Mathlib.Data.List.TakeWhile
import Mathlib.Tactic.IntervalCases

/-!
# The shapes of trees that are read

`Tree` can hold more than source text can spell. The predicates of this module single out the trees
that reading a text yields: expressions in `IsExpr`, statements in `IsStmt`, declarations and whole
programs. They say which kinds of nodes stand where, that names are words, that bodies are blocks,
that array bounds are in order and that numbers have at most 32 bits.

`Token.Lexical` and `Stream.Lexical` are what reading relies on: identifiers are words and number
tokens are small. Every stream that comes from a text has this property.
-/

open List

namespace MiniPascal

open Lexeme

/-! ## Words and numbers -/

/-- A name is a word that is not empty. -/
def IsName (s : String) : Prop := s ≠ "" ∧ ∀ c ∈ s.toList, isWordChar c = true

/-- An identifier is a name that starts with a letter. -/
structure IsIdentifier (x : String) : Prop where
  isName : IsName x
  letter : ∀ c ∈ x.toList.head?, isLetter c = true

/-- A literal, perhaps behind a minus sign. -/
def IsLiteral (v : Int64) : Prop := -2 ^ 31 ≤ v.toInt ∧ v.toInt ≤ 2 ^ 31

theorem IsName.dotless (h : IsName s) : '.' ∉ s.toList := fun dot =>
  absurd (h.2 _ dot) (by decide)

theorem isLetter_foldCase (h : isLetter c = true) : isLetter (foldCase c) = true := by
  unfold foldCase
  split
  · next upper =>
    simp only [Bool.and_eq_true, decide_eq_true_eq] at upper
    have low : 65 ≤ c.toNat := upper.1
    have high : c.toNat ≤ 90 := upper.2
    generalize c.toNat = n at low high
    interval_cases n <;> decide
  · exact h

theorem isWordChar_foldCase (h : isWordChar c = true) : isWordChar (foldCase c) = true := by
  by_cases letter : isLetter c = true
  · simp [isWordChar, isLetter_foldCase letter]
  · have kept : foldCase c = c := by
      unfold foldCase
      rw [if_neg]
      intro upper
      exact letter (by simp only [isLetter, upper, Bool.or_true])
    rw [kept]
    exact h

/-! ## Tokens -/

/-- What the reader of texts promises of a token. -/
structure Token.Lexical (t : Token) : Prop where
  name : t.kind = .identifier → IsIdentifier t.value
  number : t.kind = .number → 0 ≤ t.number.toInt ∧ t.number.toInt ≤ 2 ^ 31
  text : t.kind = .string → '\'' ∉ t.value.toList

/-- What the reader of texts promises of a lexeme. -/
structure Lexeme.Lexical (x : Lexeme) : Prop where
  name : x.kind = .identifier → IsIdentifier x.value
  number : x.kind = .number → 0 ≤ x.number.toInt ∧ x.number.toInt ≤ 2 ^ 31
  text : x.kind = .string → '\'' ∉ x.value.toList
  notEof : x.kind ≠ .eof

theorem Lexeme.Lexical.of_kind {x : Lexeme} (other : x.kind ∉ [.identifier, .number, .string, .eof]) : x.Lexical := by
  simp only [mem_cons, not_mem_nil, or_false, not_or] at other
  exact ⟨fun h => absurd h other.1, fun h => absurd h other.2.1, fun h => absurd h other.2.2.1, other.2.2.2⟩

theorem Lexeme.lexical_error (message : String) (more : Nat) : (error message more).Lexical :=
  .of_kind (by simp [error])

theorem Kind.keyword?_mem (h : Kind.keyword? s = some k) : k ∈ Kind.keywords :=
  mem_of_find?_eq_some h

theorem Lexeme.lexical_word (fold : Bool) {c : Char} (letter : isLetter c = true) (cs : List Char) :
    (word fold c cs).Lexical := by
  have chars : ∀ d ∈ c :: cs.takeWhile isWordChar, isWordChar d = true := by
    intro d hd
    rcases mem_cons.mp hd with rfl | later
    · simp [isWordChar, letter]
    · exact mem_takeWhile_imp later
  unfold word
  dsimp only
  split
  · next k keyword =>
    have plain : ∀ k ∈ Kind.keywords, k ∉ [.identifier, .number, .string, .eof] := by decide
    exact .of_kind (plain k (Kind.keyword?_mem keyword))
  · refine ⟨fun _ => ⟨⟨?_, ?_⟩, ?_⟩, nofun, nofun, nofun⟩
    · intro empty
      have := congrArg String.toList empty
      cases fold <;> simp at this
    · intro d hd
      rw [String.toList_ofList] at hd
      cases fold with
      | false => exact chars d (by simpa using hd)
      | true =>
        simp only [if_true, mem_map] at hd
        obtain ⟨e, member, rfl⟩ := hd
        exact isWordChar_foldCase (chars e member)
    · cases fold with
      | false => simpa using letter
      | true => simpa using isLetter_foldCase letter

theorem Lexeme.lexical_numeral (radix : Radix) (lead ds : List Char) : (numeral radix lead ds).Lexical := by
  unfold numeral
  dsimp only
  split
  · exact lexical_error _ _
  · split
    · exact lexical_error _ _
    · split
      · exact lexical_error _ _
      · next small =>
        refine ⟨nofun, fun _ => ?_, nofun, nofun⟩
        have bound : digitsValue radix.size (ds.takeWhile radix.isDigit) ≤ 2 ^ 31 := Nat.le_of_not_lt small
        rw [Int64.toInt_ofNat_of_lt (by omega)]
        omega

theorem Lexeme.lexical_quoted (cs : List Char) : (quoted cs).Lexical := by
  unfold quoted
  dsimp only
  split
  · refine ⟨nofun, nofun, fun _ quote => ?_, nofun⟩
    rw [String.toList_ofList] at quote
    exact absurd (mem_takeWhile_imp quote) (by decide)
  · exact lexical_error _ _

theorem Lexeme.lexical_symbol (c : Char) (cs : List Char) : (symbol c cs).Lexical := by
  unfold symbol
  split <;> first | exact lexical_error _ _ | exact .of_kind (by simp)

theorem Lexeme.lexical_read (on : Switches Feature) (c : Char) (cs : List Char) : (read on c cs).Lexical := by
  unfold read
  split
  · next letter => exact lexical_word _ letter _
  · split
    · exact lexical_numeral _ _ _
    · split
      · exact lexical_numeral _ _ _
      · split
        · exact lexical_numeral _ _ _
        · split
          · exact lexical_quoted _
          · exact lexical_symbol _ _

theorem Cursor.lexical_token (h : x.Lexical) (at_ : Cursor) (file : Int) : (at_.token file x).Lexical :=
  ⟨h.name, h.number, h.text⟩

theorem Cursor.lexical_scan (on : Switches Feature) (file : Int) (at_ : Cursor) : (at_.scan on file).1.Lexical := by
  unfold Cursor.scan
  split
  · exact lexical_token (lexical_error _ _) _ _
  · split
    · exact ⟨nofun, nofun, nofun⟩
    · exact lexical_token (lexical_read _ _ _) _ _

/-! ## Streams -/

/-- A stream whose tokens are as the reader of texts makes them. -/
def Stream.Lexical (s : Stream) : Prop := ∀ t ∈ s.tokens, t.Lexical

theorem lexical_tokensFrom (on : Switches Feature) (file : Int) (at_ : Cursor) : (tokensFrom on file at_).Lexical := by
  induction at_ using tokensFrom.induct on file with
  | case1 at_ t next read eof =>
    unfold tokensFrom
    rw [read]
    simp [eof, Stream.Lexical]
  | case2 at_ t next read notEof ih =>
    unfold tokensFrom
    rw [read]
    simp only [notEof, dite_false]
    intro u hu
    rcases mem_cons.mp hu with rfl | later
    · have := Cursor.lexical_scan on file at_
      rwa [read] at this
    · exact ih u later

theorem lexical_tokenize (on : Switches Feature) (file : Int) (source : String) : (tokenize on file source).Lexical :=
  lexical_tokensFrom on file _

/-! ## Types -/

/-- A type as it can be written: bounds are literals and in order. -/
inductive VarType.Proper : VarType → Prop
  | integer : Proper .integer
  | array {elem : VarType} :
    IsLiteral lower → IsLiteral upper → lower.toInt ≤ upper.toInt → Proper elem → Proper (.array lower upper elem)

theorem VarType.Proper.eq_integer {type : VarType} (h : type.Proper) (notArray : type.isArray = false) :
    type = .integer := by
  cases h with
  | integer => rfl
  | array => cases notArray

namespace Tree

/-! ## Expressions and statements -/

/-- The trees of expressions. -/
inductive IsExpr : Tree → Prop
  | number : IsLiteral v → IsExpr (.number u v)
  | text : IsExpr (.text u v)
  | name : IsName x → IsExpr (.name u x)
  | element : IsName array → IsExpr index → IsExpr (.element u array index)
  | binary : 0 < op.precedence → IsExpr left → IsExpr right → IsExpr (.binary u op left right)
  | call : IsName f → (∀ arg ∈ args, IsExpr arg) → IsExpr (.call u f args)

/-- The trees of variables and elements. -/
inductive IsReference : Tree → Prop
  | name : IsName x → IsReference (.name u x)
  | element : IsName array → IsExpr index → IsReference (.element u array index)

/-- The trees of statements.  Every body is a block. -/
inductive IsStmt : Tree → Prop
  | reference : IsReference t → IsStmt t
  | call : IsName f → (∀ arg ∈ args, IsExpr arg) → IsStmt (.call u f args)
  | assign : IsReference target → IsExpr v → IsStmt (.assign u target v)
  | branch :
    IsExpr c → IsStmt (.block u₁ yes) → IsStmt (.branch u c (.block u₁ yes) .absent)
  | branchElse :
    IsExpr c → IsStmt (.block u₁ yes) → IsStmt (.block u₂ no) →
    IsStmt (.branch u c (.block u₁ yes) (.block u₂ no))
  | count :
    IsName var → IsExpr start → IsExpr stop → IsStmt (.block u₁ body) →
    IsStmt (.count u var start stop down (.block u₁ body))
  | loop : IsExpr c → IsStmt (.block u₁ body) → IsStmt (.loop u c (.block u₁ body))
  | leave : IsStmt (.leave u)
  | exit : IsStmt (.exit u)
  | block : (∀ s ∈ stmts, IsStmt s) → IsStmt (.block u stmts)

/-! ## Declarations and programs -/

/-- The trees of variable declarations. -/
inductive IsVarDecl : Tree → Prop
  | mk : IsName x → type.Proper → IsVarDecl (.varDecl u x type typeTok)

/-- The trees of global declarations. -/
inductive IsDecl : Tree → Prop
  | var : IsVarDecl t → IsDecl t
  | const : IsName x → IsLiteral v → IsDecl (.constDecl u x v)

/-- The trees of routines. -/
inductive IsRoutine : Tree → Prop
  | forward :
    IsName x → (∀ p ∈ params, IsVarDecl p) → (result = .void ∨ result.Proper) →
    IsRoutine (.routine u x params result [] .absent)
  | defined :
    IsName x → (∀ p ∈ params, IsVarDecl p) → (result = .void ∨ result.Proper) →
    (∀ l ∈ locals, IsVarDecl l) → IsStmt (.block u₁ body) →
    IsRoutine (.routine u x params result locals (.block u₁ body))

/-- The trees of programs. -/
inductive IsProgram : Tree → Prop
  | mk :
    (∀ d ∈ decls, IsDecl d) → (∀ r ∈ routines, IsRoutine r) → IsStmt (.block u₁ ms) →
    IsProgram (.program u x decls routines (.block u₁ ms))

theorem IsReference.isExpr (h : IsReference t) : IsExpr t := by
  cases h with
  | name hx => exact .name hx
  | element ha hi => exact .element ha hi

end Tree

end MiniPascal
