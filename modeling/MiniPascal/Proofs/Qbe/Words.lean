import MiniPascal.Proofs.Names
import MiniPascal.Proofs.Tree.Shape
import MiniPascal.Qbe.Text

/-!
# Reading instructions

A line of QBE text is made of words: names, numbers and values with their marks. Blanks, commas and
brackets are not part of words, so a line can be cut into its words again. `Legible` values and
instructions are those that can be told from their words. This is more than to be well formed: the
text drops the name of a temporary next to its key, the type of operands, the alignment of storage,
and the difference between a long and an address.
-/

open List

namespace MiniPascal.Qbe

open String hiding append_assoc
open Ir
open Lower (parameterTemp)

/-! ## Words -/

/-- The characters of words: those of names and numbers, and the marks of values. -/
def inWord (c : Char) : Bool := isWordChar c || ['.', '-', '$', '%', '@'].contains c

/-- A text is part of a word. -/
def Unbroken (s : String) : Prop := ∀ c ∈ s.toList, inWord c = true

instance (s : String) : Decidable (Unbroken s) := List.decidableBAll _ s.toList

/-- A word ends in front of a text. -/
def Breaks (s : String) : Prop := ∀ c ∈ s.toList.head?, inWord c = false

instance (s : String) : Decidable (Breaks s) := Option.decidableForallMem s.toList.head?

variable {s : String} {type type' : Ty} {v : Value} {vs : List Value}

/-- The beginning of a text decides. -/
theorem breaks_append (front : s ≠ "" ∧ Breaks s) : Breaks (s ++ rest) := by
  obtain ⟨given, breaks⟩ := front
  unfold Breaks at breaks ⊢
  rw [String.toList_append]
  cases chars : s.toList with
  | nil => exact absurd (toList_eq_nil_iff.mp chars) given
  | cons c cs =>
    rw [chars] at breaks
    exact breaks

theorem inWord_of_isWordChar (h : isWordChar c = true) : inWord c = true := by
  rw [inWord, h, Bool.true_or]

theorem unbroken_append : Unbroken (s ++ t) ↔ Unbroken s ∧ Unbroken t := by
  unfold Unbroken
  rw [String.toList_append, forall_mem_append]

theorem unbroken_of_isName (h : IsName s) : Unbroken s :=
  fun c member => inWord_of_isWordChar (h.2 c member)

theorem unbroken_int (n : Int) : Unbroken (toString n) := by
  intro c member
  rcases mem_toString_int member with digit | rfl
  · have digit : isDigit c = true := digit
    exact inWord_of_isWordChar (by simp [isWordChar, digit])
  · decide

theorem unbroken_nat (n : Nat) : Unbroken (toString n) := unbroken_int n

/-- Two texts are cut at the end of their first words. -/
theorem word_inj (h : Unbroken s) (h' : Unbroken s') (breaks : Breaks rest)
    (breaks' : Breaks rest') (eq : s ++ rest = s' ++ rest') : s = s' ∧ rest = rest' := by
  have chars := congrArg String.toList eq
  rw [String.toList_append, String.toList_append] at chars
  obtain ⟨words, rests⟩ := append_span_inj h h' breaks breaks' chars
  exact ⟨String.toList_inj.mp words, String.toList_inj.mp rests⟩

/-- Two texts are cut at the same separator. -/
theorem cut_inj (separates : sep ≠ "" ∧ Breaks sep) (h : Unbroken s) (h' : Unbroken s')
    (eq : s ++ (sep ++ rest) = s' ++ (sep ++ rest')) : s = s' ∧ rest = rest' := by
  obtain ⟨words, rests⟩ := word_inj h h' (breaks_append separates) (breaks_append separates) eq
  exact ⟨words, (append_right_inj sep).mp rests⟩

/-! ## Lists -/

theorem map_inj_of_legible {α : Type} {Legible : α → Prop} {f : α → String}
    (inj : ∀ {x y}, Legible x → Legible y → f x = f y → x = y) {xs ys : List α} (hxs : ∀ x ∈ xs, Legible x)
    (hys : ∀ y ∈ ys, Legible y) (eq : xs.map f = ys.map f) : xs = ys := by
  induction xs generalizing ys with
  | nil => exact (map_eq_nil_iff.mp eq.symm).symm
  | cons x xs ih =>
    obtain ⟨y, ys, rfl, first, rest⟩ := map_eq_cons_iff.mp eq.symm
    obtain ⟨hx, hxs⟩ := forall_mem_cons.mp hxs
    obtain ⟨hy, hys⟩ := forall_mem_cons.mp hys
    rw [inj hx hy first.symm, ih hxs hys rest.symm]

theorem Unbroken.notMem (h : Unbroken s) (outside : inWord c = false) : c ∉ s.toList := by
  intro member
  rw [h c member] at outside
  cases outside

/-- A text has no line break. -/
def OneLine (s : String) : Prop := '\n' ∉ s.toList

instance (s : String) : Decidable (OneLine s) := inferInstanceAs (Decidable (¬ _))

theorem oneLine_append : OneLine (s ++ t) ↔ OneLine s ∧ OneLine t := by
  unfold OneLine
  rw [String.toList_append, mem_append, not_or]

theorem Unbroken.oneLine (h : Unbroken s) : OneLine s := h.notMem (by decide)

/-- A text stands on one line and can be told from its neighbours in a list with commas. -/
structure IsItem (s : String) : Prop where
  given : s ≠ ""
  comma : ',' ∉ s.toList
  oneLine : OneLine s

/-- The items of a list are determined by its text. -/
theorem intercalate_inj {xs ys : List String} (hxs : ∀ x ∈ xs, IsItem x) (hys : ∀ y ∈ ys, IsItem y)
    (eq : ", ".intercalate xs = ", ".intercalate ys) : xs = ys := by
  have some_comma (x y : String) (zs : List String) : ',' ∈ (", ".intercalate (x :: y :: zs)).toList := by
    simp [String.intercalate_cons_cons]
  have some_char (x : String) (zs : List String) (given : x ≠ "") : ", ".intercalate (x :: zs) ≠ "" := by
    cases zs with
    | nil => simpa using given
    | cons y zs => simp [String.intercalate_cons_cons]
  induction xs generalizing ys with
  | nil =>
    cases ys with
    | nil => rfl
    | cons y ys => exact absurd eq.symm (some_char y ys (hys y mem_cons_self).given)
  | cons x xs ih =>
    obtain ⟨hx, hxs'⟩ := forall_mem_cons.mp hxs
    cases ys with
    | nil => exact absurd eq (some_char x xs hx.given)
    | cons y ys =>
      obtain ⟨hy, hys'⟩ := forall_mem_cons.mp hys
      cases xs with
      | nil =>
        cases ys with
        | nil => simpa using eq
        | cons y' ys =>
          have comma := some_comma y y' ys
          rw [← eq, String.intercalate_singleton] at comma
          exact absurd comma hx.comma
      | cons x' xs =>
        cases ys with
        | nil =>
          have comma := some_comma x x' xs
          rw [eq, String.intercalate_singleton] at comma
          exact absurd comma hy.comma
        | cons y' ys =>
          have chars := congrArg String.toList eq
          simp only [String.intercalate_cons_cons, String.toList_append, append_assoc] at chars
          obtain ⟨first, rest⟩ := append_sep_inj_left hx.comma hy.comma chars
          rw [String.toList_inj.mp first, ih hxs' hys' (String.toList_inj.mp (List.cons.inj rest).2)]

theorem oneLine_intercalate {xs : List String} (h : ∀ x ∈ xs, IsItem x) : OneLine (", ".intercalate xs) := by
  induction xs with
  | nil => decide
  | cons x xs ih =>
    obtain ⟨first, later⟩ := forall_mem_cons.mp h
    cases xs with
    | nil =>
      exact first.oneLine
    | cons y ys =>
      rw [String.intercalate_cons_cons, oneLine_append, oneLine_append]
      exact ⟨⟨first.oneLine, by decide⟩, ih later⟩

/-! ## Values -/

/-- A temporary has a number, a number and the name of a variable, or stands for a parameter. -/
inductive LegibleTemp : Temp → Prop
  | numbered (n : Nat) : LegibleTemp { name := "", id := n }
  | slot (n : Nat) : IsName x → LegibleTemp { name := x, id := n }
  | parameter : IsName x → LegibleTemp (parameterTemp x)

namespace LegibleTemp

variable {t t' : Temp}

theorem unbroken (h : LegibleTemp t) : Unbroken t.key := by
  cases h with
  | numbered n =>
    exact unbroken_append.mpr ⟨by decide, unbroken_nat n⟩
  | slot n name =>
    rw [Lower.key_named name.1, Lower.numbered]
    exact unbroken_append.mpr ⟨unbroken_append.mpr ⟨unbroken_of_isName name, by decide⟩, unbroken_nat n⟩
  | parameter name =>
    exact unbroken_append.mpr ⟨by decide, unbroken_of_isName name⟩

theorem key_unnamed_ne_named (given : x ≠ "") (m n : Nat) :
    Temp.key { name := "", id := m } ≠ Temp.key { name := x, id := n } := by
  intro same
  have dot := Lower.dot_mem_numbered x n
  rw [← Lower.key_named given, ← same] at dot
  exact Lower.dot_notMem_key_unnamed m dot

theorem key_inj (h : LegibleTemp t) (h' : LegibleTemp t') (same : t.key = t'.key) : t = t' := by
  cases h with
  | numbered m =>
    cases h' with
    | numbered n => rw [Lower.key_inj same]
    | slot n name => exact absurd same (key_unnamed_ne_named name.1 m n)
    | parameter name => exact absurd same (Lower.key_ne_key_parameterTemp name.dotless _ m)
  | slot m name =>
    cases h' with
    | numbered n => exact absurd same.symm (key_unnamed_ne_named name.1 n m)
    | slot n name' =>
      rw [Lower.key_named name.1, Lower.key_named name'.1] at same
      obtain ⟨rfl, rfl⟩ := Lower.numbered_inj same
      rfl
    | parameter name' => exact absurd same (Lower.key_ne_key_parameterTemp name'.dotless _ m)
  | parameter name =>
    cases h' with
    | numbered n | slot n => exact absurd same.symm (Lower.key_ne_key_parameterTemp name.dotless _ n)
    | parameter => rw [Lower.key_parameterTemp_inj same]

end LegibleTemp

/-- A value is there, and its name is a word. -/
inductive LegibleValue : Value → Prop
  | const (c : Int64) : LegibleValue (.const c)
  | global : Unbroken name → LegibleValue (.global name)
  | temp : LegibleTemp t → LegibleValue (.temp t)
  | label : Unbroken name → LegibleValue (.label name)

namespace LegibleValue

variable {v v' : Value}

theorem unbroken (h : LegibleValue v) : Unbroken (valueText v) := by
  cases h with
  | const c => exact unbroken_int c.toInt
  | global name | label name => exact unbroken_append.mpr ⟨by decide, name⟩
  | temp t => exact unbroken_append.mpr ⟨by decide, t.unbroken⟩

/-- A constant has no mark. -/
theorem unmarked (c : Int64) : (toString c).toList.head? ≠ some '$' ∧ (toString c).toList.head? ≠ some '%' ∧
    (toString c).toList.head? ≠ some '@' := by
  have digit {m : Char} (first : (toString c).toList.head? = some m) : m.isDigit = true ∨ m = '-' :=
    mem_toString_int (mem_of_mem_head? first)
  refine ⟨?_, ?_, ?_⟩ <;> exact fun first => absurd (digit first) (by decide)

/-- A value is known by its text: constants have no mark, and the others have one each. -/
theorem text_inj (h : LegibleValue v) (h' : LegibleValue v') (same : valueText v = valueText v') : v = v' := by
  have marks := congrArg (fun s : String => s.toList.head?) same
  cases h with
  | const c =>
    cases h' with
    | const c' => rw [toString_int64_inj same]
    | _ => exact absurd marks (by simp [valueText, unmarked])
  | global =>
    cases h' with
    | const => exact absurd marks.symm (by simp [valueText, unmarked])
    | global => rw [(append_right_inj "$").mp same]
    | _ => simp [valueText] at marks
  | temp t =>
    cases h' with
    | const => exact absurd marks.symm (by simp [valueText, unmarked])
    | temp t' => rw [t.key_inj t' ((append_right_inj "%").mp same)]
    | _ => simp [valueText] at marks
  | label =>
    cases h' with
    | const => exact absurd marks.symm (by simp [valueText, unmarked])
    | label => rw [(append_right_inj "@").mp same]
    | _ => simp [valueText] at marks

end LegibleValue

/-! ## Types and results -/

theorem unbroken_typeLetter (type : Ty) : Unbroken (typeLetter 8 type) := by
  cases type <;> decide

/-- The types of arguments and parameters. -/
def IsPassed (type : Ty) : Prop := type = .word ∨ type = .address

theorem IsPassed.letter_inj (h : IsPassed type) (h' : IsPassed type')
    (same : typeLetter 8 type = typeLetter 8 type') : type = type' := by
  rcases h with rfl | rfl <;> rcases h' with rfl | rfl
  · rfl
  · exact absurd same (by decide)
  · exact absurd same (by decide)
  · rfl

/-- A result is missing or goes to a temporary. -/
def LegibleResult (v : Value) : Prop := v = .missing ∨ ∃ t, v = .temp t ∧ LegibleTemp t

theorem resultText_temp (t : Temp) (type : Ty) (rest : String) : resultText 8 (.temp t) type ++ rest =
    valueText (.temp t) ++ (" =" ++ (typeLetter 8 type ++ (" " ++ rest))) := by
  have given : (Value.temp t).isMissing = false := rfl
  rw [resultText, given, if_neg Bool.false_ne_true]
  simp only [String.append_assoc]

theorem resultText_missing (type : Ty) (rest : String) : resultText 8 .missing type ++ rest = rest := by
  rw [resultText, Value.isMissing, if_pos rfl, empty_append]

/-- A result starts with a mark, which an operation does not. -/
theorem resultText_inj (h : LegibleResult v) (h' : LegibleResult v')
    (unmarked : rest.toList.head? ≠ some '%') (unmarked' : rest'.toList.head? ≠ some '%')
    (eq : resultText 8 v type ++ rest = resultText 8 v' type' ++ rest') :
    v = v' ∧ (v.isMissing = false → typeLetter 8 type = typeLetter 8 type') ∧ rest = rest' := by
  rcases h with rfl | ⟨t, rfl, legible⟩ <;> rcases h' with rfl | ⟨t', rfl, legible'⟩
  · rw [resultText_missing, resultText_missing] at eq
    exact ⟨rfl, nofun, eq⟩
  · rw [resultText_missing, resultText_temp] at eq
    rw [eq] at unmarked
    simp [valueText] at unmarked
  · rw [resultText_missing, resultText_temp] at eq
    rw [← eq] at unmarked'
    simp [valueText] at unmarked'
  · rw [resultText_temp, resultText_temp] at eq
    have legible := LegibleValue.temp legible
    have legible' := LegibleValue.temp legible'
    obtain ⟨names, eq⟩ := cut_inj (by decide) legible.unbroken legible'.unbroken eq
    obtain ⟨letters, eq⟩ := cut_inj (by decide) (unbroken_typeLetter type) (unbroken_typeLetter type') eq
    exact ⟨legible.text_inj legible' names, fun _ => letters, eq⟩

/-! ## Operands -/

theorem isMissing_of_legible (h : LegibleValue v) : v.isMissing = false := by
  cases h <;> rfl

theorem isItem_value (h : LegibleValue v) : IsItem (valueText v) := by
  refine ⟨?_, h.unbroken.notMem (by decide), h.unbroken.notMem (by decide)⟩
  cases h with
  | const c =>
    intro empty
    have digits : c.toInt.repr = "" := empty
    rw [Int.repr_eq_if] at digits
    split at digits
    · exact Nat.repr_ne_empty digits
    · simp at digits
  | global | temp | label => simp [valueText]

theorem operandsText_cons (h : ∀ w ∈ v :: vs, LegibleValue w) :
    operandsText (v :: vs) = " " ++ ", ".intercalate ((v :: vs).map valueText) := by
  have operand {w : Value} (given : LegibleValue w) : operandsText.operand w = " " ++ valueText w := by
    rw [operandsText.operand, isMissing_of_legible given]
    rfl
  obtain ⟨first, later⟩ := forall_mem_cons.mp h
  rw [operandsText, operand first, map_cons, String.append_assoc]
  congr 1
  clear h first
  induction vs generalizing v with
  | nil => simp
  | cons w vs ih =>
    obtain ⟨next, later⟩ := forall_mem_cons.mp later
    have comma : ", " = "," ++ " " := rfl
    rw [map_cons, map_cons, join_cons, operand next, String.intercalate_cons_cons, ← ih later, comma]
    simp only [String.append_assoc]

theorem operandsText_inj {vs' : List Value} (h : ∀ v ∈ vs, LegibleValue v) (h' : ∀ v ∈ vs', LegibleValue v)
    (same : operandsText vs = operandsText vs') : vs = vs' := by
  cases vs with
  | nil =>
    cases vs' with
    | nil => rfl
    | cons v' vs' =>
      rw [operandsText_cons h'] at same
      simp [operandsText] at same
  | cons v vs =>
    cases vs' with
    | nil =>
      rw [operandsText_cons h] at same
      simp [operandsText] at same
    | cons v' vs' =>
      rw [operandsText_cons h, operandsText_cons h'] at same
      have items {vs : List Value} (h : ∀ v ∈ vs, LegibleValue v) : ∀ x ∈ vs.map valueText, IsItem x :=
        forall_mem_map.mpr fun v member => isItem_value (h v member)
      have texts := intercalate_inj (items h) (items h') ((append_right_inj " ").mp same)
      exact map_inj_of_legible LegibleValue.text_inj h h' texts

/-- The text of an argument. -/
theorem argument_inj (passed : IsPassed type) (passed' : IsPassed type') (h : LegibleValue v)
    (h' : LegibleValue v')
    (same : typeLetter 8 type ++ " " ++ valueText v = typeLetter 8 type' ++ " " ++ valueText v') :
    type = type' ∧ v = v' := by
  rw [String.append_assoc, String.append_assoc] at same
  obtain ⟨letters, texts⟩ := cut_inj (by decide) (unbroken_typeLetter type) (unbroken_typeLetter type') same
  exact ⟨passed.letter_inj passed' letters, h.text_inj h' texts⟩

theorem isItem_argument (type : Ty) (h : LegibleValue v) : IsItem (typeLetter 8 type ++ " " ++ valueText v) := by
  have outside {c : Char} (separates : inWord c = false) (notBlank : c ≠ ' ') :
      c ∉ (typeLetter 8 type ++ " " ++ valueText v).toList := by
    simp [(unbroken_typeLetter type).notMem separates, h.unbroken.notMem separates, notBlank]
  exact ⟨by simp, outside (by decide) (by decide), outside (by decide) (by decide)⟩

theorem isItem_callArguments {fixed : Option Nat} (h : ∀ v ∈ vs, LegibleValue v) {n : Nat} {types : List Ty} :
    ∀ x ∈ callArguments 8 fixed n types vs, IsItem x := by
  induction vs generalizing n types with
  | nil => exact forall_mem_nil _
  | cons v vs ih =>
    obtain ⟨first, later⟩ := forall_mem_cons.mp h
    have argument := isItem_argument (types.headD .word) first
    rw [callArguments]
    split
    · have dots : IsItem "..." := ⟨by decide, by decide, by decide⟩
      exact forall_mem_cons.mpr ⟨dots, forall_mem_cons.mpr ⟨argument, ih later⟩⟩
    · exact forall_mem_cons.mpr ⟨argument, ih later⟩

/-- The arguments of a call are determined. The mark of a variadic function stands at the same place
in both lists. -/
theorem callArguments_inj {types types' : List Ty} {vs' : List Value}
    (passed : ∀ type ∈ types, IsPassed type) (passed' : ∀ type ∈ types', IsPassed type)
    (h : ∀ v ∈ vs, LegibleValue v) (h' : ∀ v ∈ vs', LegibleValue v) (count : types.length = vs.length)
    (count' : types'.length = vs'.length)
    (same : callArguments 8 fixed n types vs = callArguments 8 fixed n types' vs') : types = types' ∧ vs = vs' := by
  have given (n : Nat) (types : List Ty) (v : Value) (vs : List Value) :
      callArguments 8 fixed n types (v :: vs) ≠ [] := by
    rw [callArguments]
    split <;> simp
  induction vs generalizing n types types' vs' with
  | nil =>
    cases vs' with
    | nil =>
      cases eq_nil_of_length_eq_zero count
      cases eq_nil_of_length_eq_zero count'
      exact ⟨rfl, rfl⟩
    | cons v' vs' => exact absurd same.symm (given n types' v' vs')
  | cons v vs ih =>
    obtain ⟨type, types, rfl⟩ := exists_cons_of_length_eq_add_one count
    cases vs' with
    | nil => exact absurd same (given n _ v vs)
    | cons v' vs' =>
      obtain ⟨type', types', rfl⟩ := exists_cons_of_length_eq_add_one count'
      obtain ⟨hv, hvs⟩ := forall_mem_cons.mp h
      obtain ⟨hv', hvs'⟩ := forall_mem_cons.mp h'
      obtain ⟨hty, htypes⟩ := forall_mem_cons.mp passed
      obtain ⟨hty', htypes'⟩ := forall_mem_cons.mp passed'
      rw [callArguments, callArguments] at same
      have both : typeLetter 8 type ++ " " ++ valueText v = typeLetter 8 type' ++ " " ++ valueText v' ∧
          callArguments 8 fixed (n + 1) types vs = callArguments 8 fixed (n + 1) types' vs' := by
        split at same
        · exact List.cons.inj (List.cons.inj same).2
        · exact List.cons.inj same
      obtain ⟨rfl, rfl⟩ := argument_inj hty hty' hv hv' both.1
      obtain ⟨rfl, rfl⟩ := ih htypes htypes' hvs hvs' (Nat.succ.inj count) (Nat.succ.inj count') both.2
      exact ⟨rfl, rfl⟩

/-! ## Instructions -/

/-- What there is to an instruction besides its result and its operands. -/
structure Form where
  op : Op
  result : Bool
  type : Ty
  operandType : Ty
  align : Int
  deriving DecidableEq

def Form.of (i : Instr) : Form := ⟨i.op, !i.result.isMissing, i.type, i.operandType, i.align⟩

/-- The operation of an instruction as it is written. -/
def Form.word (f : Form) : String :=
  opText 8 { op := f.op, type := f.type, operandType := f.operandType, align := f.align }

/-- The forms of lowered instructions. -/
def forms : List Form :=
  [⟨.alloc, true, .address, .none, 4⟩, ⟨.load, true, .word, .none, 0⟩, ⟨.store, false, .word, .none, 0⟩,
    ⟨.blit, false, .none, .none, 0⟩, ⟨.extsw, true, .long, .word, 0⟩, ⟨.mul, true, .long, .long, 0⟩,
    ⟨.add, true, .address, .address, 0⟩, ⟨.call, false, .none, .none, 0⟩, ⟨.call, true, .word, .none, 0⟩,
    ⟨.jmp, false, .none, .none, 0⟩, ⟨.jnz, false, .none, .none, 0⟩, ⟨.ret, false, .none, .none, 0⟩] ++
  [.add, .sub, .mul, .div, .rem, .and, .or, .ceq, .cne, .clt, .cgt, .cle, .cge].map fun op =>
    ⟨op, true, .word, .word, 0⟩

/-- A form is known by its word and the type of the result. -/
theorem forms_inj : ∀ f ∈ forms, ∀ g ∈ forms, f.word = g.word → f.result = g.result →
    (f.result = true → typeLetter 8 f.type = typeLetter 8 g.type) → f = g := by
  decide

theorem forms_word : ∀ f ∈ forms, Unbroken f.word ∧ f.word ≠ "" ∧ f.word.toList.head? ≠ some '%' := by
  decide

theorem forms_comparison : ∀ f ∈ forms, f.op.isComparison = true → f.type = .word := by
  decide

/-- An instruction is known by its line. -/
structure LegibleInstr (i : Instr) : Prop where
  form : Form.of i ∈ forms
  result : LegibleResult i.result
  args : ∀ v ∈ i.args, LegibleValue v
  argTypes : ∀ type ∈ i.argTypes, IsPassed type
  count : i.argTypes.length = if i.op = .call then i.args.tail.length else 0
  callee : i.op = .call → i.args ≠ []

/-- What stands behind the operation. -/
def operandPart (p : Program) (i : Instr) : String :=
  if i.op = .call then
    " " ++ (valueText (i.args.headD .missing) ++ ("(" ++
      (", ".intercalate (callArguments 8 (fixedCount p (i.args.headD .missing)) 0 i.argTypes i.args.tail) ++ ")")))
  else operandsText i.args

/-- The line of an instruction. -/
def instrLine (p : Program) (i : Instr) : String :=
  "\t" ++ (resultText 8 i.result i.type ++ (opText 8 i ++ operandPart p i))

namespace LegibleInstr

variable {p : Program} {i i' : Instr}

theorem instrText_eq (h : LegibleInstr i) (words : p.wordSize = 8) : instrText p i = instrLine p i ++ "\n" := by
  have compared := forms_comparison _ h.form
  unfold instrText instrLine operandPart
  rw [words]
  by_cases isCall : i.op = .call
  · have name : opText 8 i = "call" := by simp [opText, isCall, Op.isComparison, Op.name]
    have blank : "call " = "call" ++ " " := rfl
    have close : ")\n" = ")" ++ "\n" := rfl
    rw [if_pos isCall, if_pos isCall, name, blank, close]
    simp only [String.append_assoc]
  · rw [if_neg isCall, if_neg isCall]
    have type : (if i.op.isComparison = true then Ty.word else i.type) = i.type := by
      split
      · next comparison => exact (compared comparison).symm
      · rfl
    rw [type]
    simp only [String.append_assoc]

theorem breaks_operandPart (h : LegibleInstr i) : Breaks (operandPart p i) := by
  have args := h.args
  unfold operandPart
  split
  · exact breaks_append (by decide)
  · cases given : i.args with
    | nil => decide
    | cons v vs =>
      rw [given] at args
      rw [operandsText_cons args]
      exact breaks_append (by decide)

theorem oneLine (h : LegibleInstr i) : OneLine (instrLine p i) := by
  have result : OneLine (resultText 8 i.result i.type) := by
    rcases h.result with missing | ⟨t, temp, legible⟩
    · rw [missing, resultText, Value.isMissing, if_pos rfl]
      decide
    · have given : (Value.temp t).isMissing = false := rfl
      have name := (LegibleValue.temp legible).unbroken.oneLine
      rw [temp, resultText, given, if_neg Bool.false_ne_true, oneLine_append, oneLine_append, oneLine_append]
      exact ⟨⟨⟨name, by decide⟩, (unbroken_typeLetter _).oneLine⟩, by decide⟩
  have operands : OneLine (operandPart p i) := by
    have args := h.args
    unfold operandPart
    split
    · next isCall =>
      obtain ⟨v, vs, given⟩ := exists_cons_of_ne_nil (h.callee isCall)
      rw [given] at args ⊢
      obtain ⟨callee, values⟩ := forall_mem_cons.mp args
      rw [oneLine_append, oneLine_append, oneLine_append, oneLine_append]
      refine ⟨by decide, callee.unbroken.oneLine, by decide, ?_, by decide⟩
      exact oneLine_intercalate (isItem_callArguments values)
    · cases given : i.args with
      | nil => decide
      | cons v vs =>
        rw [given] at args
        have items : ∀ x ∈ (v :: vs).map valueText, IsItem x :=
          forall_mem_map.mpr fun v member => isItem_value (args v member)
        rw [operandsText_cons args, oneLine_append]
        exact ⟨by decide, oneLine_intercalate items⟩
  unfold instrLine
  rw [oneLine_append, oneLine_append, oneLine_append]
  exact ⟨by decide, result, (forms_word _ h.form).1.oneLine, operands⟩

/-- Calls with the same text have the same operands. -/
theorem call_inj (h : LegibleInstr i) (h' : LegibleInstr i') (isCall : i.op = .call) (isCall' : i'.op = .call)
    (same : operandPart p i = operandPart p i') : i.args = i'.args ∧ i.argTypes = i'.argTypes := by
  have count := h.count
  have count' := h'.count
  have args := h.args
  have args' := h'.args
  unfold operandPart at same
  rw [if_pos isCall] at same count
  rw [if_pos isCall'] at same count'
  obtain ⟨v, vs, given⟩ := exists_cons_of_ne_nil (h.callee isCall)
  obtain ⟨v', vs', given'⟩ := exists_cons_of_ne_nil (h'.callee isCall')
  rw [given] at same count args ⊢
  rw [given'] at same count' args' ⊢
  obtain ⟨hv, hvs⟩ := forall_mem_cons.mp args
  obtain ⟨hv', hvs'⟩ := forall_mem_cons.mp args'
  have same := (append_right_inj " ").mp same
  obtain ⟨callees, same⟩ := cut_inj (by decide) hv.unbroken hv'.unbroken same
  obtain rfl := hv.text_inj hv' callees
  have lists := (append_left_inj ")").mp same
  have arguments := intercalate_inj (isItem_callArguments hvs) (isItem_callArguments hvs') lists
  obtain ⟨types, values⟩ := callArguments_inj h.argTypes h'.argTypes hvs hvs' count count' arguments
  exact ⟨by rw [values], types⟩

/-- An instruction is read from left to right: the result, the operation, which gives the form, and the
operands, which the form says how to read. -/
theorem line_inj (h : LegibleInstr i) (h' : LegibleInstr i') (same : instrLine p i = instrLine p i') : i = i' := by
  obtain ⟨unbroken, given, unmarked⟩ := forms_word _ h.form
  obtain ⟨unbroken', given', unmarked'⟩ := forms_word _ h'.form
  have unmarkedFront {s : String} (rest : String) (given : s ≠ "") (unmarked : s.toList.head? ≠ some '%') :
      (s ++ rest).toList.head? ≠ some '%' := by
    cases chars : s.toList with
    | nil => exact absurd (toList_eq_nil_iff.mp chars) given
    | cons c cs => simpa [chars] using unmarked
  have same := (append_right_inj "\t").mp same
  obtain ⟨results, letters, same⟩ := resultText_inj h.result h'.result
    (unmarkedFront _ given unmarked) (unmarkedFront _ given' unmarked') same
  obtain ⟨words, parts⟩ := word_inj unbroken unbroken' h.breaks_operandPart h'.breaks_operandPart same
  have form : Form.of i = Form.of i' := by
    apply forms_inj _ h.form _ h'.form words
    · rw [Form.of, Form.of, results]
    · intro result
      exact letters (by simpa [Form.of] using result)
  obtain ⟨op, type, operandType, result, args, argTypes, align⟩ := i
  obtain ⟨op', type', operandType', result', args', argTypes', align'⟩ := i'
  obtain ⟨rfl, -, rfl, rfl, rfl⟩ := Form.mk.inj form
  obtain rfl : result = result' := results
  obtain ⟨rfl, rfl⟩ : args = args' ∧ argTypes = argTypes' := by
    by_cases isCall : op = .call
    · exact call_inj h h' isCall isCall parts
    · have count := h.count
      have count' := h'.count
      rw [if_neg isCall] at count count'
      unfold operandPart at parts
      rw [if_neg isCall, if_neg isCall] at parts
      refine ⟨operandsText_inj h.args h'.args parts, ?_⟩
      exact (eq_nil_of_length_eq_zero count).trans (eq_nil_of_length_eq_zero count').symm
  rfl

end LegibleInstr

end MiniPascal.Qbe
