import MiniPascal.Proofs.Ir.Flow
import MiniPascal.Proofs.Qbe.Quoted
import MiniPascal.Proofs.Qbe.Words

/-!
# Reading programs

QBE text is written line by line, and its first character says what kind of line it is. `rows` lists
what stands on the lines of a program. A legible program is known by its rows and each of them by its
line, so the text determines the program.
-/

open List

namespace MiniPascal.Qbe

open Ir

/-! ## Rows -/

/-- What stands on a line. -/
inductive Row where
  | data (d : Data)
  | text (l : StringLit)
  | gap
  /-- The opening line of a function, which is given without its code. -/
  | head (f : Func)
  | code (l : Line)
  | close

def funcRows (f : Func) : List Row :=
  .gap :: .head { f with blocks := [] } :: ((listing f.blocks).map .code ++ [.close])

def stringRows (strings : List StringLit) : List Row :=
  if strings.isEmpty then [] else .gap :: strings.map .text

/-- The rows of a program. -/
def rows (p : Program) : List Row :=
  p.globals.map .data ++ (stringRows p.strings ++ p.funcs.flatMap funcRows)

namespace Row

def data? : Row → Option Data
  | data d => some d
  | _ => none

def text? : Row → Option StringLit
  | text l => some l
  | _ => none

end Row

theorem listing_inj (same : listing bs = listing bs') : bs = bs' := by
  have starts (bs : List Block) : ∀ l ∈ (listing bs).head?, l.instr?.isSome = false := by
    cases bs with
    | nil => simp
    | cons b bs => simp [listing_cons]
  have inside (is : List Instr) : ∀ l ∈ plain is, l.instr?.isSome = true := by
    simp [plain]
  induction bs generalizing bs' with
  | nil =>
    cases bs' with
    | nil => rfl
    | cons b' bs' => cases same
  | cons b bs ih =>
    cases bs' with
    | nil => cases same
    | cons b' bs' =>
      obtain ⟨label, is⟩ := b
      obtain ⟨label', is'⟩ := b'
      rw [listing_cons, listing_cons] at same
      obtain ⟨labels, rest⟩ := List.cons.inj same
      obtain ⟨instrs, later⟩ := append_span_inj (inside is) (inside is') (starts bs) (starts bs') rest
      obtain rfl : label = label' := Line.label.inj labels
      obtain rfl : is = is' := map_injective_iff.mpr (fun _ _ => Line.instr.inj) instrs
      rw [ih later]

theorem func_eq_of_heads {f f' : Func} (heads : { f with blocks := [] } = { f' with blocks := [] })
    (blocks : f.blocks = f'.blocks) : f = f' := by
  cases f
  cases f'
  simp_all

theorem flatMap_funcRows_inj {fs fs' : List Func} (same : fs.flatMap funcRows = fs'.flatMap funcRows) : fs = fs' := by
  induction fs generalizing fs' with
  | nil =>
    cases fs' with
    | nil => rfl
    | cons f' fs' => cases same
  | cons f fs ih =>
    cases fs' with
    | nil => cases same
    | cons f' fs' =>
      simp only [flatMap_cons, funcRows, cons_append, append_assoc, nil_append, List.cons.injEq, true_and] at same
      obtain ⟨heads, rest⟩ := same
      have unclosed (f : Func) : Row.close ∉ (listing f.blocks).map Row.code := by simp
      obtain ⟨code, later⟩ := append_sep_inj_left (unclosed f) (unclosed f') rest
      have lines := map_injective_iff.mpr (fun _ _ => Row.code.inj) code
      rw [func_eq_of_heads (Row.head.inj heads) (listing_inj lines), ih later]

theorem filterMap_funcRows {α : Type} {f : Row → Option α} (gap : f .gap = none) (close : f .close = none)
    (head : ∀ g, f (.head g) = none) (code : ∀ l, f (.code l) = none) (fs : List Func) :
    (fs.flatMap funcRows).filterMap f = [] := by
  rw [filterMap_eq_nil_iff]
  intro r member
  obtain ⟨g, -, inside⟩ := mem_flatMap.mp member
  simp only [funcRows, mem_cons, mem_append, mem_map, not_mem_nil, or_false] at inside
  rcases inside with rfl | rfl | ⟨l, -, rfl⟩ | rfl
  · exact gap
  · exact head _
  · exact code l
  · exact close

theorem filterMap_rows {α : Type} {f : Row → Option α} (gap : f .gap = none) (close : f .close = none)
    (head : ∀ g, f (.head g) = none) (code : ∀ l, f (.code l) = none) (p : Program) :
    (rows p).filterMap f = p.globals.filterMap (f ∘ .data) ++ p.strings.filterMap (f ∘ .text) := by
  have strings : (stringRows p.strings).filterMap f = p.strings.filterMap (f ∘ .text) := by
    rw [stringRows]
    split
    · next empty => simp [isEmpty_iff.mp empty]
    · simp [gap, filterMap_map]
  rw [rows, filterMap_append, filterMap_append, filterMap_map, strings, filterMap_funcRows gap close head code,
    append_nil]

theorem rows_globals (p : Program) : (rows p).filterMap Row.data? = p.globals := by
  rw [filterMap_rows rfl rfl (fun _ => rfl) fun _ => rfl]
  simp [Function.comp_def, Row.data?]

theorem rows_strings (p : Program) : (rows p).filterMap Row.text? = p.strings := by
  rw [filterMap_rows rfl rfl (fun _ => rfl) fun _ => rfl]
  simp [Function.comp_def, Row.text?]

variable {p p' : Program}

/-- The rows of a program determine its data, its strings and its functions. -/
theorem rows_inj (same : rows p = rows p') : p.globals = p'.globals ∧ p.strings = p'.strings ∧ p.funcs = p'.funcs := by
  have globals : p.globals = p'.globals := by rw [← rows_globals, same, rows_globals]
  have strings : p.strings = p'.strings := by rw [← rows_strings, same, rows_strings]
  rw [rows, rows, globals, strings] at same
  exact ⟨globals, strings, flatMap_funcRows_inj (append_cancel_left (append_cancel_left same))⟩

/-! ## Lines -/

def dataLine (d : Data) : String :=
  "data $" ++ (d.name ++ (" = align " ++ (toString d.align ++ (" \x7b z " ++ (toString d.size ++ " \x7d")))))

def textLine (l : StringLit) : String :=
  "data $" ++ (l.label ++ (" = \x7b b " ++ (quote l.value ++ ", b 0 \x7d")))

def paramLine (x : Param) : String := typeLetter 8 x.type ++ " " ++ valueText (.temp x.temp)

/-- The opening line of a function. -/
def headLine (f : Func) : String :=
  (if f.exported then "export " else "") ++ ("function" ++
    ((if f.result = .none then "" else " " ++ typeLetter 8 f.result) ++ (" $" ++ (f.name ++ ("(" ++
      (", ".intercalate (f.params.map paramLine) ++ ") \x7b"))))))

def codeLine (p : Program) : Line → String
  | .label l => "@" ++ l
  | .instr i => instrLine p i

/-- The line of a row. -/
def rowLine (p : Program) : Row → String
  | .data d => dataLine d
  | .text l => textLine l
  | .gap => ""
  | .head f => headLine f
  | .code l => codeLine p l
  | .close => "\x7d"

/-- A parameter is known by its name and its type. -/
def LegibleParam (x : Param) : Prop :=
  IsPassed x.type ∧ ∃ name, IsName name ∧ x = ⟨name, x.type, Lower.parameterTemp name⟩

/-- A row is known by its line. -/
inductive LegibleRow : Row → Prop
  | data : Unbroken d.name → LegibleRow (.data d)
  | text : Unbroken l.label → LegibleRow (.text l)
  | gap : LegibleRow .gap
  | head : Unbroken f.name → f.result = .none ∨ f.result = .word →
    (∀ x ∈ f.params, LegibleParam x) → f.blocks = [] → LegibleRow (.head f)
  | label : Unbroken l → LegibleRow (.code (.label l))
  | instr : LegibleInstr i → LegibleRow (.code (.instr i))
  | close : LegibleRow .close

/-! ## Rows of one kind -/

theorem dataLine_inj (h : Unbroken d.name) (h' : Unbroken d'.name)
    (same : dataLine d = dataLine d') : d = d' := by
  obtain ⟨names, same⟩ := cut_inj (by decide) h h' ((String.append_right_inj "data $").mp same)
  obtain ⟨aligns, same⟩ := cut_inj (by decide) (unbroken_int d.align) (unbroken_int d'.align) same
  have sizes := (String.append_left_inj " \x7d").mp same
  obtain ⟨name, align, size⟩ := d
  obtain ⟨name', align', size'⟩ := d'
  obtain rfl : name = name' := names
  obtain rfl : align = align' := toString_int_inj aligns
  obtain rfl : size = size' := toString_int64_inj sizes
  rfl

theorem textLine_inj (h : Unbroken l.label) (h' : Unbroken l'.label)
    (same : textLine l = textLine l') : l = l' := by
  obtain ⟨labels, same⟩ := cut_inj (by decide) h h' ((String.append_right_inj "data $").mp same)
  have quoted := (String.append_left_inj ", b 0 \x7d").mp same
  obtain ⟨label, value⟩ := l
  obtain ⟨label', value'⟩ := l'
  obtain rfl : label = label' := labels
  obtain rfl : value = value' := quote_inj quoted
  rfl

/-- Data and strings differ behind their names. -/
theorem dataLine_ne_textLine (h : Unbroken d.name) (h' : Unbroken l.label) :
    dataLine d ≠ textLine l := by
  intro same
  have same := (String.append_right_inj "data $").mp same
  obtain ⟨-, same⟩ := word_inj h h' (breaks_append (by decide)) (breaks_append (by decide)) same
  have chars := congrArg String.toList same
  simp at chars

theorem isItem_param (h : LegibleParam x) : IsItem (paramLine x) := by
  obtain ⟨-, name, isName, same⟩ := h
  rw [same]
  exact isItem_argument _ (.temp (.parameter isName))

theorem paramLine_inj (hx : LegibleParam x) (hy : LegibleParam y)
    (same : paramLine x = paramLine y) : x = y := by
  obtain ⟨passed, name, isName, given⟩ := hx
  obtain ⟨passed', name', isName', given'⟩ := hy
  have temps : LegibleTemp x.temp ∧ LegibleTemp y.temp := by
    rw [given, given']
    exact ⟨.parameter isName, .parameter isName'⟩
  obtain ⟨types, values⟩ := argument_inj passed passed' (.temp temps.1) (.temp temps.2) same
  have temp : Lower.parameterTemp name = Lower.parameterTemp name' := by
    rw [given, given'] at values
    exact Value.temp.inj values
  have names := Lower.key_parameterTemp_inj (congrArg Temp.key temp)
  rw [given, given', types, names]

theorem headLine_inj (h : LegibleRow (.head f)) (h' : LegibleRow (.head f'))
    (same : headLine f = headLine f') : f = f' := by
  cases h with
  | head name result params blocks =>
  cases h' with
  | head name' result' params' blocks' =>
  unfold headLine at same
  have exported : f.exported = f'.exported := by
    have marks := congrArg (fun s : String => s.toList.head?) same
    cases front : f.exported <;> cases front' : f'.exported <;> simp [front, front'] at marks ⊢
  rw [exported] at same
  have same := (String.append_right_inj "function").mp ((String.append_right_inj _).mp same)
  have results : f.result = f'.result := by
    have chars := congrArg String.toList same
    rcases result with none | word <;> rcases result' with none' | word'
    · rw [none, none']
    · simp [none, word', typeLetter] at chars
    · simp [word, none', typeLetter] at chars
    · rw [word, word']
  rw [results] at same
  have same := (String.append_right_inj " $").mp ((String.append_right_inj _).mp same)
  obtain ⟨names, same⟩ := cut_inj (by decide) name name' same
  have lists := (String.append_left_inj ") \x7b").mp same
  have items {xs : List Param} (legible : ∀ x ∈ xs, LegibleParam x) : ∀ s ∈ xs.map paramLine, IsItem s :=
    forall_mem_map.mpr fun x member => isItem_param (legible x member)
  have texts := intercalate_inj (items params) (items params') lists
  have parameters := map_inj_of_legible paramLine_inj params params' texts
  cases f
  cases f'
  simp_all

theorem codeLine_inj (h : LegibleRow (.code l)) (h' : LegibleRow (.code l'))
    (same : codeLine p l = codeLine p l') : l = l' := by
  have apart (l : String) (i : Instr) : "@" ++ l ≠ instrLine p i := by
    intro same
    have chars := congrArg (fun s : String => s.toList.head?) same
    simp [instrLine] at chars
  cases h with
  | label =>
    cases h' with
    | label => rw [(String.append_right_inj "@").mp same]
    | instr => exact absurd same (apart _ _)
  | instr legible =>
    cases h' with
    | label => exact absurd same.symm (apart _ _)
    | instr legible' => rw [legible.line_inj legible' same]

/-! ## All rows -/

/-- The first character of a row. -/
def Row.mark : Row → Option Char
  | .data _ => some 'd'
  | .text _ => some 'd'
  | .gap => none
  | .head f => some (if f.exported then 'e' else 'f')
  | .code (.label _) => some '@'
  | .code (.instr _) => some '\t'
  | .close => some '\x7d'

theorem head_rowLine (p : Program) (r : Row) : (rowLine p r).toList.head? = r.mark := by
  cases r with
  | data d => simp [rowLine, dataLine, Row.mark]
  | text l => simp [rowLine, textLine, Row.mark]
  | gap => rfl
  | head f => cases exported : f.exported <;> simp [rowLine, headLine, Row.mark, exported]
  | code l => cases l <;> simp [rowLine, codeLine, instrLine, Row.mark]
  | close => simp [rowLine, Row.mark]

/-- The first character tells the kind of a row, but for data and strings. -/
theorem LegibleRow.line_inj (h : LegibleRow r) (h' : LegibleRow r')
    (same : rowLine p r = rowLine p r') : r = r' := by
  have marks : r.mark = r'.mark := by rw [← head_rowLine p, ← head_rowLine p, same]
  cases h with
  | data name =>
    cases h' with
    | data name' => rw [dataLine_inj name name' same]
    | text label => exact absurd same (dataLine_ne_textLine name label)
    | _ => grind [Row.mark]
  | text label =>
    cases h' with
    | data name => exact absurd same.symm (dataLine_ne_textLine name label)
    | text label' => rw [textLine_inj label label' same]
    | _ => grind [Row.mark]
  | head name result params blocks =>
    cases h' with
    | head name' result' params' blocks' =>
      rw [headLine_inj (.head name result params blocks) (.head name' result' params' blocks') same]
    | _ => grind [Row.mark]
  | label unbroken =>
    cases h' with
    | label unbroken' => rw [codeLine_inj (p := p) (.label unbroken) (.label unbroken') same]
    | _ => grind [Row.mark]
  | instr legible =>
    cases h' with
    | instr legible' => rw [codeLine_inj (.instr legible) (.instr legible') same]
    | _ => grind [Row.mark]
  | gap | close => cases h' <;> grind [Row.mark]

theorem LegibleRow.oneLine (h : LegibleRow r) : OneLine (rowLine p r) := by
  cases h with
  | data name =>
    simp only [rowLine, dataLine, oneLine_append]
    refine ⟨by decide, name.oneLine, by decide, ?_, by decide, ?_, by decide⟩
    · exact (unbroken_int _).oneLine
    · exact (unbroken_int _).oneLine
  | text label =>
    simp only [rowLine, textLine, oneLine_append]
    exact ⟨by decide, label.oneLine, by decide, newline_notMem_quote _, by decide⟩
  | gap => exact (by decide : OneLine "")
  | @head f name result params _ =>
    have exported : OneLine (if f.exported then "export " else "") := by split <;> decide
    have type : OneLine (if f.result = .none then "" else " " ++ typeLetter 8 f.result) := by
      split
      · decide
      · exact oneLine_append.mpr ⟨by decide, (unbroken_typeLetter _).oneLine⟩
    have list : OneLine (", ".intercalate (f.params.map paramLine)) :=
      oneLine_intercalate (forall_mem_map.mpr fun x member => isItem_param (params x member))
    simp only [rowLine, headLine, oneLine_append]
    exact ⟨exported, by decide, type, by decide, name.oneLine, by decide, list, by decide⟩
  | label unbroken => exact oneLine_append.mpr ⟨by decide, unbroken.oneLine⟩
  | instr legible => exact legible.oneLine
  | close => exact (by decide : OneLine "\x7d")

/-! ## Text -/

section Text

variable {p : Program}

theorem blocks_eq {bs : List Block} (words : p.wordSize = 8) (legible : ∀ l ∈ listing bs, LegibleRow (.code l)) :
    String.join (bs.map (blockText p)) = String.join ((listing bs).map fun l => codeLine p l ++ "\n") := by
  induction bs with
  | nil => rfl
  | cons b bs ih =>
    obtain ⟨-, code⟩ := forall_mem_cons.mp legible
    obtain ⟨instrs, later⟩ := forall_mem_append.mp code
    have texts : b.instrs.map (instrText p) = b.instrs.map fun i => instrLine p i ++ "\n" := by
      apply map_congr_left
      intro i member
      cases instrs (.instr i) (mem_map_of_mem member) with
      | instr legible => exact legible.instrText_eq words
    rw [map_cons, String.join_cons, ih later, blockText, texts, listing_cons, map_cons,
      String.join_cons, map_append, String.join_append, plain, map_map]
    simp only [codeLine, String.append_assoc, Function.comp_def]

theorem funcText_eq {f : Func} (words : p.wordSize = 8) (legible : ∀ r ∈ funcRows f, LegibleRow r) :
    funcText p f = String.join ((funcRows f).map fun r => rowLine p r ++ "\n") := by
  have lines : ∀ l ∈ listing f.blocks, LegibleRow (.code l) := by
    intro l member
    exact legible _ (by simp [funcRows, member])
  have opening : ") \x7b\n" = ") \x7b" ++ "\n" := rfl
  have closing : "\x7d\n" = "\x7d" ++ "\n" := rfl
  have params : f.params.map (paramText p) = f.params.map paramLine := by
    apply map_congr_left
    intro x _
    rw [paramText, words, paramLine]
  rw [funcText, blocks_eq words lines, funcRows, opening, closing, params, words]
  simp only [map_cons, map_append, map_map, map_nil, String.join_cons, String.join_append,
    String.join_nil, rowLine, headLine, String.append_assoc, String.append_empty, String.empty_append,
    Function.comp_def]

/-- A program is written line by line. -/
theorem render_eq (words : p.wordSize = 8) (legible : ∀ r ∈ rows p, LegibleRow r) :
    render p = String.join ((rows p).map fun r => rowLine p r ++ "\n") := by
  have data : p.globals.map dataText = p.globals.map fun d => dataLine d ++ "\n" := by
    apply map_congr_left
    intro d _
    have closing : " \x7d\n" = " \x7d" ++ "\n" := rfl
    simp only [dataText, dataLine, closing, String.append_assoc]
  have strings : p.strings.map stringText = p.strings.map fun l => textLine l ++ "\n" := by
    apply map_congr_left
    intro l _
    have closing : ", b 0 \x7d\n" = ", b 0 \x7d" ++ "\n" := rfl
    simp only [stringText, textLine, closing, String.append_assoc]
  have funcs : String.join (p.funcs.map (funcText p)) =
      String.join ((p.funcs.flatMap funcRows).map fun r => rowLine p r ++ "\n") := by
    have legible : ∀ f ∈ p.funcs, ∀ r ∈ funcRows f, LegibleRow r := by
      intro f member r inside
      apply legible
      rw [rows, mem_append, mem_append]
      exact .inr (.inr (mem_flatMap.mpr ⟨f, member, inside⟩))
    generalize p.funcs = fs at legible
    induction fs with
    | nil => rfl
    | cons f fs ih =>
      obtain ⟨first, later⟩ := forall_mem_cons.mp legible
      rw [map_cons, String.join_cons, funcText_eq words first, ih later, flatMap_cons, map_append, String.join_append]
  rw [render, data, strings, funcs, rows, stringRows, map_append, map_append, String.join_append,
    String.join_append, map_map, String.append_assoc]
  split
  · rfl
  · simp only [map_cons, map_map, String.join_cons, rowLine, String.empty_append, Function.comp_def]

/-- A text is cut into its lines. -/
theorem rows_of_lines {rs rs' : List Row} (h : ∀ r ∈ rs, LegibleRow r) (h' : ∀ r ∈ rs', LegibleRow r)
    (same : String.join (rs.map fun r => rowLine p r ++ "\n") =
      String.join (rs'.map fun r => rowLine p r ++ "\n")) : rs = rs' := by
  have given (r : Row) (rs : List Row) : String.join ((r :: rs).map fun r => rowLine p r ++ "\n") ≠ "" := by
    simp
  induction rs generalizing rs' with
  | nil =>
    cases rs' with
    | nil => rfl
    | cons r' rs' => exact absurd same.symm (given r' rs')
  | cons r rs ih =>
    cases rs' with
    | nil => exact absurd same (given r rs)
    | cons r' rs' =>
      obtain ⟨hr, hrs⟩ := forall_mem_cons.mp h
      obtain ⟨hr', hrs'⟩ := forall_mem_cons.mp h'
      have chars := congrArg String.toList same
      simp only [map_cons, String.join_cons, String.toList_append, append_assoc] at chars
      obtain ⟨lines, rest⟩ := append_sep_inj_left hr.oneLine hr'.oneLine chars
      rw [hr.line_inj hr' (String.toList_inj.mp lines), ih hrs hrs' (String.toList_inj.mp rest)]

end Text

/-- A program is known by its text. -/
structure Legible (p : Program) : Prop where
  words : p.wordSize = 8
  rows : ∀ r ∈ rows p, LegibleRow r

/-- The C functions of a program matter for its text: a call of a variadic one has a mark. -/
theorem rowLine_congr (externs : p.externs = p'.externs) : rowLine p = rowLine p' := by
  have fixed : fixedCount p = fixedCount p' := by
    funext v
    cases v <;> simp only [fixedCount, Program.extern?, externs]
  funext r
  cases r with
  | code l =>
    cases l with
    | label l => rfl
    | instr i => simp only [rowLine, codeLine, instrLine, operandPart, fixed]
  | data | text | gap | head | close => rfl

theorem render_inj (h : Legible p) (h' : Legible p') (externs : p.externs = p'.externs)
    (same : render p = render p') : p = p' := by
  rw [render_eq h.words h.rows, render_eq h'.words h'.rows, rowLine_congr externs] at same
  obtain ⟨globals, strings, funcs⟩ := rows_inj (rows_of_lines h.rows h'.rows same)
  have words := h.words.trans h'.words.symm
  cases p
  cases p'
  simp_all

end MiniPascal.Qbe
