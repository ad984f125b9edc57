import MiniPascal.Proofs.Names
import MiniPascal.Proofs.Token.Describe
import MiniPascal.Proofs.Tree.Grammar

/-!
# S-expressions

The written form of a tree is an S-expression: a number, a name, a text in quotes, or a list in parentheses
whose first word says what it is. Nothing is escaped. An S-expression can still be told from its characters
and so can its end (`Sexp.chars_append_inj`), as long as names are identifiers and texts hold no quote: a word
ends where a blank or a parenthesis follows, a text at its next quote, and a list at the parenthesis behind
its last item.
-/

open List

namespace MiniPascal

/-- The first words of lists. -/
inductive Head where
  | index
  | assign
  | op (k : Kind)
  | call
  | branch
  | count
  | loop
  | leave
  | exit
  | block
  | var
  | const
  | procedure
  | function
  | program
  | params
  | returns
  | locals
  | decls
  | funcs
  | array
  | unknown
  deriving DecidableEq

namespace Head

/-- How a first word is written. -/
@[simp]
def text : Head → String
  | index => "index"
  | assign => ":="
  | op k => k.spelling
  | call => "call"
  | branch => "if"
  | count => "for"
  | loop => "while"
  | leave => "break"
  | exit => "exit"
  | block => "begin"
  | var => "var"
  | const => "const"
  | procedure => "procedure"
  | function => "function"
  | program => "program"
  | params => "params"
  | returns => "returns"
  | locals => "locals"
  | decls => "decls"
  | funcs => "funcs"
  | array => "array"
  | unknown => "?Unknown"

/-- The first words of trees that are read: the operators are those of the grammar. -/
def all : List Head :=
  [index, assign, call, branch, count, loop, leave, exit, block, var, const, procedure, function,
    program, params, returns, locals, decls, funcs, array] ++ Grammar.operators.map op

theorem text_inj : ∀ h ∈ all, ∀ g ∈ all, h.text = g.text → h = g := by decide +kernel

end Head

/-- An S-expression. -/
inductive Sexp where
  | number (value : Int64)
  | name (x : String)
  | quoted (value : String)
  | list (head : Head) (items : List Sexp)

namespace Sexp

mutual

/-- An S-expression, written. -/
@[simp]
def chars : Sexp → List Char
  | number value => (toString value).toList
  | name x => x.toList
  | quoted value => '\'' :: (value.toList ++ ['\''])
  | list head items => '(' :: (head.text.toList ++ (itemChars items ++ [')']))

/-- Items, each behind a blank. -/
@[simp]
def itemChars : List Sexp → List Char
  | [] => []
  | x :: xs => ' ' :: (x.chars ++ itemChars xs)

end

/-- The S-expressions that can be told from their characters. -/
inductive Legible : Sexp → Prop
  | number : Legible (.number value)
  | name : IsIdentifier x → Legible (.name x)
  | quoted : '\'' ∉ value.toList → Legible (.quoted value)
  | list {head : Head} : head ∈ Head.all → (∀ x ∈ items, Legible x) → Legible (.list head items)

/-! ## Where words end -/

/-- The characters that are in no word. -/
def marks : List Char := [' ', '(', ')', '\'']

def inWord (c : Char) : Bool := !marks.contains c

/-- Characters are in words if they are of a class that has no marks. -/
theorem inWord_of_class {p : Char → Bool} (outside : marks.any p = false) (h : p c = true) :
    inWord c = true := by
  rw [inWord, Bool.not_eq_true', ← Bool.not_eq_true, contains_iff_mem]
  intro mark
  exact any_eq_false.mp outside c mark h

/-- A word ends in front of these characters. -/
def Ended (rest : List Char) : Prop := ∀ c ∈ rest.head?, c = ' ' ∨ c = ')'

theorem Ended.breaks {rest : List Char} (h : Ended rest) : ∀ c ∈ rest.head?, inWord c = false := by
  intro c first
  rcases h c first with rfl | rfl <;> decide

theorem ended_items (items : List Sexp) (rest : List Char) : Ended (itemChars items ++ ')' :: rest) := by
  intro c first
  cases items with
  | nil =>
    exact .inr (Option.some.inj first).symm
  | cons x xs =>
    exact .inl (Option.some.inj first).symm

theorem inWord_number (value : Int64) : ∀ c ∈ (toString value).toList, inWord c = true := by
  intro c member
  refine inWord_of_class (p := fun c => c.isDigit || c == '-') (by decide) ?_
  simpa using mem_toString_int member

theorem inWord_identifier {x : String} (h : IsIdentifier x) : ∀ c ∈ x.toList, inWord c = true :=
  fun c member => inWord_of_class (by decide) (h.isName.2 c member)

theorem inWord_head : ∀ h ∈ Head.all, ∀ c ∈ h.text.toList, inWord c = true := by
  have each : (Head.all.all fun h => h.text.toList.all inWord) = true := by decide +kernel
  intro h listed
  exact all_eq_true.mp (all_eq_true.mp each h listed)

/-- No number is a name. -/
theorem toString_ne_identifier {value : Int64} {x : String} (h : IsIdentifier x) :
    (toString value).toList ≠ x.toList := by
  intro same
  cases chars : x.toList with
  | nil => exact h.isName.1 (String.toList_eq_nil_iff.mp chars)
  | cons c cs =>
    have letter : isLetter c = true := h.letter c (by simp [chars])
    have member : c ∈ (toString value).toList := by simp [same, chars]
    rcases mem_toString_int member with digit | rfl
    · have high := isLetter_iff.mp letter
      have low : 48 ≤ c.toNat ∧ c.toNat ≤ 57 := Char.isDigit_iff_toNat.mp digit
      omega
    · exact absurd letter (by decide)

/-- A word in front of an end starts with no opening parenthesis and no quote. -/
theorem head_word {word rest : List Char} (inside : ∀ c ∈ word, inWord c = true) (ended : Ended rest) :
    ∀ c ∈ (word ++ rest).head?, c ≠ '(' ∧ c ≠ '\'' := by
  intro c first
  cases word with
  | nil =>
    rcases ended c first with rfl | rfl <;> decide
  | cons d ds =>
    obtain rfl : d = c := Option.some.inj first
    have known := inside d mem_cons_self
    constructor <;> rintro rfl <;> exact absurd known (by decide)

/-! ## Reading S-expressions -/

section Items

variable {items : List Sexp} (each : ∀ x ∈ items, ∀ {y : Sexp} {rest rest' : List Char}, y.Legible →
  Ended rest → Ended rest' → x.chars ++ rest = y.chars ++ rest' → x = y ∧ rest = rest')

include each

theorem itemChars_append_inj {items' : List Sexp} {rest rest' : List Char} (legible : ∀ y ∈ items', y.Legible)
    (same : itemChars items ++ ')' :: rest = itemChars items' ++ ')' :: rest') : items = items' ∧ rest = rest' := by
  induction items generalizing items' with
  | nil =>
    cases items' with
    | nil => exact ⟨rfl, (List.cons.inj same).2⟩
    | cons y ys =>
      rw [itemChars, itemChars] at same
      exact absurd (List.cons.inj same).1 (by decide)
  | cons x xs ih =>
    cases items' with
    | nil =>
      rw [itemChars, itemChars] at same
      exact absurd (List.cons.inj same).1 (by decide)
    | cons y ys =>
      rw [itemChars, itemChars, cons_append, cons_append, append_assoc, append_assoc] at same
      obtain ⟨rfl, later⟩ := each x mem_cons_self (legible y mem_cons_self) (ended_items xs rest)
        (ended_items ys rest') (List.cons.inj same).2
      obtain ⟨rfl, rests⟩ := ih (fun z member => each z (mem_cons_of_mem _ member))
        (fun z member => legible z (mem_cons_of_mem _ member)) later
      exact ⟨rfl, rests⟩

end Items

/-- An S-expression and the characters behind it can be told from the whole. -/
theorem chars_append_inj {x y : Sexp} {rest rest' : List Char} (hx : x.Legible) (hy : y.Legible)
    (ended : Ended rest) (ended' : Ended rest') (same : x.chars ++ rest = y.chars ++ rest') :
    x = y ∧ rest = rest' := by
  -- The first character tells words, texts and lists apart, so only pairs of one shape need an argument.
  induction hx generalizing y rest rest' with
  | @number value =>
    rw [chars] at same
    have first := head_word (inWord_number value) ended
    cases hy with
    | number =>
      rw [chars] at same
      obtain ⟨texts, rests⟩ := append_span_inj (inWord_number _) (inWord_number _) ended.breaks ended'.breaks same
      exact ⟨congrArg number (toString_int64_inj (String.toList_inj.mp texts)), rests⟩
    | name id =>
      rw [chars] at same
      have texts := append_span_inj (inWord_number _) (inWord_identifier id) ended.breaks ended'.breaks same
      exact absurd texts.1 (toString_ne_identifier id)
    | quoted =>
      rw [same, chars] at first
      exact absurd rfl (first _ rfl).2
    | list =>
      rw [same, chars] at first
      exact absurd rfl (first _ rfl).1
  | name id =>
    rw [chars] at same
    have first := head_word (inWord_identifier id) ended
    cases hy with
    | number =>
      rw [chars] at same
      have texts := append_span_inj (inWord_identifier id) (inWord_number _) ended.breaks ended'.breaks same
      exact absurd texts.1.symm (toString_ne_identifier id)
    | name id' =>
      rw [chars] at same
      obtain ⟨texts, rests⟩ :=
        append_span_inj (inWord_identifier id) (inWord_identifier id') ended.breaks ended'.breaks same
      exact ⟨congrArg name (String.toList_inj.mp texts), rests⟩
    | quoted =>
      rw [same, chars] at first
      exact absurd rfl (first _ rfl).2
    | list =>
      rw [same, chars] at first
      exact absurd rfl (first _ rfl).1
  | quoted plain =>
    rw [chars] at same
    cases hy with
    | @number value =>
      have first := head_word (inWord_number value) ended'
      rw [chars] at same
      rw [← same] at first
      exact absurd rfl (first _ rfl).2
    | name id =>
      have first := head_word (inWord_identifier id) ended'
      rw [chars] at same
      rw [← same] at first
      exact absurd rfl (first _ rfl).2
    | quoted plain' =>
      rw [chars, cons_append, cons_append, append_assoc, append_assoc] at same
      obtain ⟨texts, rests⟩ := append_sep_inj_left plain plain' (List.cons.inj same).2
      exact ⟨congrArg quoted (String.toList_inj.mp texts), rests⟩
    | list =>
      rw [chars] at same
      exact absurd (List.cons.inj same).1 (by decide)
  | @list items head known legible ih =>
    rw [chars] at same
    cases hy with
    | @number value =>
      have first := head_word (inWord_number value) ended'
      rw [chars] at same
      rw [← same] at first
      exact absurd rfl (first _ rfl).1
    | name id =>
      have first := head_word (inWord_identifier id) ended'
      rw [chars] at same
      rw [← same] at first
      exact absurd rfl (first _ rfl).1
    | quoted =>
      rw [chars] at same
      exact absurd (List.cons.inj same).1 (by decide)
    | @list items' head' known' legible' =>
      rw [chars] at same
      simp only [cons_append, append_assoc, nil_append] at same
      obtain ⟨texts, later⟩ := append_span_inj (inWord_head head known) (inWord_head head' known')
        (ended_items items rest).breaks (ended_items items' rest').breaks (List.cons.inj same).2
      obtain rfl := Head.text_inj head known head' known' (String.toList_inj.mp texts)
      obtain ⟨rfl, rests⟩ := itemChars_append_inj ih legible' later
      exact ⟨rfl, rests⟩

/-- An S-expression can be told from its characters. -/
theorem chars_inj {x y : Sexp} (hx : x.Legible) (hy : y.Legible) (same : x.chars = y.chars) : x = y := by
  have ended : Ended [] := by
    rintro c ⟨⟩
  exact (chars_append_inj hx hy ended ended (congrArg (· ++ []) same)).1

end Sexp

end MiniPascal
