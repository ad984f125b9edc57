import MiniPascal.Proofs.Pull.Matched
import MiniPascal.Proofs.Tree.Spelling
import MiniPascal.Tree.Format

/-!
# How trees are made of tokens

`Made c species t t'` says how readers that look for a `species` of trees make `t` and `t'` of tokens that
the comparison `c` sets side by side: which nodes they can return, and which tokens their texts, names,
numbers and places come from. The trees are the same but for these tokens. The only number that no token
spells is the 0 from which an operand behind a minus sign is taken.

One walk along the readers shows that what they return is made so (`answers_read`), with any depth that is
enough (`run_of_deeper`). What is known of all trees that are read, such as their shape, follows by induction
on `Made` for `t` alone; what is known of two readings follows for both trees.
-/

open List

namespace MiniPascal

open Grammar (Signed IsType Heading)

/-! ## Trees and tokens -/

section Spelled

variable (w : List Token)

/-- A number is spelled by tokens that stand side by side, with or without a minus sign. -/
def Written (v : Int64) : Prop := ∃ u, Signed v u ∧ u <:+: w

/-- A constant is spelled by the tokens behind its name and a `=`. -/
def Defines (name : Token) (v : Int64) : Prop :=
  ∃ e u, e.kind = .eq ∧ Signed v u ∧ name :: e :: u <:+: w

/-- A type is spelled by tokens that stand side by side. -/
def VarType.Made (type : VarType) : Prop := ∃ u, IsType type u ∧ u <:+: w

/-- A type is spelled by the tokens from a place on. -/
def VarType.MadeAt (place : Token) (type : VarType) : Prop :=
  ∃ u, IsType type (place :: u) ∧ place :: u <:+: w

/-- The heading of a routine that starts with a token ends with the type of the result. -/
def Heads (start : Token) (result : VarType) : Prop :=
  ∃ u, Heading result (start :: u) ∧ start :: u <:+: w

end Spelled

section Spelled

variable {w : List Token}

theorem Defines.written (h : Defines w name v) : Written w v := by
  obtain ⟨e, u, -, spelled, inside⟩ := h
  exact ⟨u, spelled, (suffix_append [name, e] u).isInfix.trans inside⟩

/-- The bounds of an array and its element type are spelled too. -/
theorem VarType.Made.array {lower upper : Int64} {elem : VarType}
    (h : (VarType.array lower upper elem).Made w) :
    Written w lower ∧ Written w upper ∧ lower ≤ upper ∧ elem.Made w := by
  obtain ⟨_, spelled, inside⟩ := h
  cases spelled with
  | @array _ v _ u _ x a l d r o _ _ first _ second _ _ type ordered =>
    refine ⟨⟨v, first, .trans ?_ inside⟩, ⟨u, second, .trans ?_ inside⟩, ordered,
      x, type, .trans ?_ inside⟩
    · exact ⟨[a, l], d :: (u ++ r :: o :: x), by simp⟩
    · exact ⟨a :: l :: (v ++ [d]), r :: o :: x, by simp⟩
    · exact ⟨a :: l :: (v ++ d :: (u ++ [r, o])), [], by simp⟩

theorem VarType.MadeAt.made {place : Token} {type : VarType} (h : type.MadeAt w place) :
    type.Made w := by
  obtain ⟨u, spelled, inside⟩ := h
  exact ⟨_, spelled, inside⟩

/-- The result of a function is a type, and a procedure has none. -/
theorem Heads.result {result : VarType} (h : Heads w start result) :
    result = .void ∨ result.Made w := by
  obtain ⟨u, spelled, inside⟩ := h
  cases spelled with
  | @function v _ u _ x c _ _ _ _ type =>
    exact .inr ⟨u, type, (suffix_append (start :: x :: (v ++ [c])) u).isInfix.trans (by simpa using inside)⟩
  | procedure => exact .inl rfl

end Spelled

namespace Tree

/-- What a reader can look for. -/
inductive Species where
  | expression
  | reference
  | call
  | statement
  | body
  | var
  | declaration
  | routine
  | program

/-- Two trees as readers make them of tokens side by side. -/
inductive Made (c : Comparison) : Species → Tree → Tree → Prop
  | number : c.Listed t u → t.kind = .number →
    Made c .expression (.number t t.number) (.number u t.number)
  | negative : c.Listed m m' → m.kind = .minus → t.kind = .number → [m, t] <:+: c.tokens →
    Made c .expression (.number m (-t.number)) (.number m' (-t.number))
  | zero : c.Listed m m' → m.kind = .minus → Made c .expression (.number m 0) (.number m' 0)
  | text : c.Listed t u → t.kind = .string → Made c .expression (.text t t.value) (.text u t.value)
  | operand : Made c .reference t t' → Made c .expression t t'
  | value : Made c .call t t' → Made c .expression t t'
  | binary : c.Listed t u → 0 < op.precedence →
    Made c .expression left left' → Made c .expression right right' →
    Made c .expression (.binary t op left right) (.binary u op left' right')
  | name :
    c.Listed t u → t.kind = .identifier → Made c .reference (.name t t.value) (.name u t.value)
  | element : c.Listed t u → t.kind = .identifier →
    Made c .expression index index' → Made c .reference (.element t t.value index) (.element u t.value index')
  | call : c.Listed t u → t.kind = .identifier →
    args.length = args'.length → (∀ {a b}, (a, b) ∈ args.zip args' → Made c .expression a b) →
    Made c .call (.call t t.value args) (.call u t.value args')
  | mention : Made c .reference t t' → Made c .statement t t'
  | perform : Made c .call t t' → Made c .statement t t'
  | assign : c.Listed t u →
    Made c .reference target target' → Made c .expression value value' →
    Made c .statement (.assign t target value) (.assign u target' value')
  | branch {cond : Tree} : c.Listed t u → Made c .expression cond cond' →
    Made c .body yes yes' → Made c .statement (.branch t cond yes .absent) (.branch u cond' yes' .absent)
  | branchElse {cond : Tree} : c.Listed t u →
    Made c .expression cond cond' → Made c .body yes yes' → Made c .body no no' →
    Made c .statement (.branch t cond yes no) (.branch u cond' yes' no')
  | count : c.Listed t u →
    x ∈ c.tokens → x.kind = .identifier → Made c .expression start start' →
    Made c .expression stop stop' → Made c .body body body' →
    Made c .statement (.count t x.value start stop down body) (.count u x.value start' stop' down body')
  | loop {cond : Tree} : c.Listed t u → Made c .expression cond cond' →
    Made c .body body body' → Made c .statement (.loop t cond body) (.loop u cond' body')
  | leave : c.Listed t u → Made c .statement (.leave t) (.leave u)
  | exit : c.Listed t u → Made c .statement (.exit t) (.exit u)
  | block : Made c .body t t' → Made c .statement t t'
  | body : c.Listed t u → stmts.length = stmts'.length →
    (∀ {a b}, (a, b) ∈ stmts.zip stmts' → Made c .statement a b) → Made c .body (.block t stmts) (.block u stmts')
  | varDecl : c.Listed t u → t.kind = .identifier →
    type.MadeAt c.tokens place → c.alike place place' →
    Made c .var (.varDecl t t.value type place) (.varDecl u t.value type place')
  | global : Made c .var t t' → Made c .declaration t t'
  | constDecl : c.Listed t u → t.kind = .identifier → Defines c.tokens t value →
    Made c .declaration (.constDecl t t.value value) (.constDecl u t.value value)
  | forward : c.Listed t u →
    x ∈ c.tokens → x.kind = .identifier → params.length = params'.length →
    (∀ {a b}, (a, b) ∈ params.zip params' → Made c .var a b) → Heads c.tokens t result →
    Made c .routine (.routine t x.value params result [] .absent) (.routine u x.value params' result [] .absent)
  | defined : c.Listed t u → x ∈ c.tokens → x.kind = .identifier →
    params.length = params'.length → (∀ {a b}, (a, b) ∈ params.zip params' → Made c .var a b) →
    Heads c.tokens t result →
    locals.length = locals'.length → (∀ {a b}, (a, b) ∈ locals.zip locals' → Made c .var a b) →
    Made c .body body body' → Made c .routine (.routine t x.value params result locals body)
      (.routine u x.value params' result locals' body')
  | program {main : Tree} :
    c.Listed t u → x ∈ c.tokens → x.kind = .identifier →
    decls.length = decls'.length → (∀ {a b}, (a, b) ∈ decls.zip decls' → Made c .declaration a b) →
    routines.length = routines'.length →
    (∀ {a b}, (a, b) ∈ routines.zip routines' → Made c .routine a b) → Made c .body main main' →
    Made c .program (.program t x.value decls routines main) (.program u x.value decls' routines' main')

/-- The trees of two lists are made one by one. -/
abbrev MadeEach (c : Comparison) (species : Species) : List Tree → List Tree → Prop :=
  Forall₂ (Made c species)

/-- What holds of the first of two trees made side by side holds of all trees of the first list. -/
theorem forall_of_zip {ts ts' : List Tree} {P : Tree → Prop} (same : ts.length = ts'.length)
    (each : ∀ {a b}, (a, b) ∈ ts.zip ts' → P a) : ∀ t ∈ ts, P t := by
  have both : Forall₂ (fun a _ => P a ∧ True) ts ts' := forall₂_iff_zip.mpr ⟨same, fun member => ⟨each member, trivial⟩⟩
  exact ((forall₂_and_left ts ts').mp both).1

namespace Made

variable {c : Comparison} {species : Species} {t t' : Tree}

theorem alike (h : Made c species t t') : c.alike t.tok t'.tok := by
  induction h with
  | _ => first | assumption | exact Comparison.Listed.alike ‹_›

theorem isAbsent (h : Made c species t t') : t.isAbsent = false ∧ t'.isAbsent = false := by
  induction h with
  | _ => first | assumption | exact ⟨rfl, rfl⟩

theorem formatItems_eq (each : Forall₂ (fun a b => b.format = a.format) ts ts') :
    formatItems ts' = formatItems ts := by
  induction each with
  | nil => rfl
  | cons first _ later => rw [formatItems, formatItems, first, later]

/-- Trees that are made side by side are written alike. -/
theorem format (h : Made c species t t') : t'.format = t.format := by
  have items {ts ts' : List Tree} (same : ts.length = ts'.length)
      (each : ∀ {a b}, (a, b) ∈ ts.zip ts' → b.format = a.format) : formatItems ts' = formatItems ts :=
    formatItems_eq (forall₂_iff_zip.mpr ⟨same, each⟩)
  induction h with
  | number | negative | zero | text | name | leave | exit | varDecl | constDecl => simp only [Tree.format]
  | element _ _ _ index => simp only [Tree.format, index]
  | assign _ _ _ target value => simp only [Tree.format, target, value]
  | binary _ _ _ _ left right => simp only [Tree.format, left, right]
  | call _ _ same _ args => simp only [Tree.format, items same args]
  | branch _ _ _ cond yes => simp only [Tree.format, cond, yes]
  | branchElse _ _ _ no cond yes no' => simp only [Tree.format, cond, yes, no', no.isAbsent]
  | count _ _ _ _ _ _ start stop body => simp only [Tree.format, start, stop, body]
  | loop _ _ _ cond body => simp only [Tree.format, cond, body]
  | body _ same _ stmts => simp only [Tree.format, items same stmts]
  | forward _ _ _ same _ _ params => simp only [Tree.format, items same params]
  | defined _ _ _ same _ _ same' _ body params locals body' =>
    simp only [Tree.format, items same params, items same' locals, body', body.isAbsent]
  | program _ _ _ same _ same' _ _ decls routines main =>
    simp only [Tree.format, items same decls, items same' routines, main]
  | _ => assumption

theorem eq_of_zip {ts ts' : List Tree} (same : ts.length = ts'.length)
    (each : ∀ {a b}, (a, b) ∈ ts.zip ts' → b = a) : ts' = ts := by
  have all : Forall₂ (· = ·) ts ts' := forall₂_iff_zip.mpr ⟨same, fun member => (each member).symm⟩
  rw [forall₂_eq_eq_eq] at all
  exact all.symm

/-- Trees that are made of the same tokens are the same. -/
theorem eq_of_same {w : List Token} {lax : Prop} (h : Made (.same w lax) species t t') : t' = t := by
  induction h with
  | number listed | negative listed | zero listed | text listed | name listed | leave listed | exit listed
  | constDecl listed => cases listed.alike; rfl
  | element listed _ _ index => cases listed.alike; rw [index]
  | binary listed _ _ _ left right => cases listed.alike; rw [left, right]
  | call listed _ same _ args => cases listed.alike; rw [eq_of_zip same args]
  | assign listed _ _ target value => cases listed.alike; rw [target, value]
  | branch listed _ _ cond yes => cases listed.alike; rw [cond, yes]
  | branchElse listed _ _ _ cond yes no => cases listed.alike; rw [cond, yes, no]
  | count listed _ _ _ _ _ start stop body => cases listed.alike; rw [start, stop, body]
  | loop listed _ _ cond body => cases listed.alike; rw [cond, body]
  | body listed same _ stmts => cases listed.alike; rw [eq_of_zip same stmts]
  | varDecl listed _ _ place => cases listed.alike; cases place; rfl
  | forward listed _ _ same _ _ params => cases listed.alike; rw [eq_of_zip same params]
  | defined listed _ _ same _ _ same' _ _ params locals body =>
    cases listed.alike
    rw [eq_of_zip same params, eq_of_zip same' locals, body]
  | program listed _ _ same _ same' _ _ decls routines main =>
    cases listed.alike
    rw [eq_of_zip same decls, eq_of_zip same' routines, main]
  | _ => assumption

end Made

end Tree

namespace Pull

open Tree

/-! ## Expressions -/

variable {c : Comparison} {neg neg' : Bool} {n m : Nat}

/-- What the readers of expressions make with depths `n` and `m`. -/
structure ExpressionMakes (c : Comparison) (neg neg' : Bool) (n m : Nat) : Prop where
  expression : Makes c (Made c .expression) (expression neg n) (expression neg' m)
  operators : ∀ level left left', Made c .expression left left' →
    Makes c (Made c .expression) (operators neg n level left) (operators neg' m level left')
  primary : Makes c (Made c .expression) (primary neg n) (primary neg' m)
  reference : Makes c (fun t t' => Made c .call t t' ∨ Made c .reference t t') (reference neg n) (reference neg' m)
  arguments : Makes c (MadeEach c .expression) (arguments neg n) (arguments neg' m)

section Expressions

variable (allows : c.Allows neg neg') (ih : ExpressionMakes c neg neg' n m)

include ih

theorem makes_operators_step (level : Nat) (left left' : Tree) (made : Made c .expression left left') :
    Makes c (Made c .expression) (operators neg (n + 1) level left) (operators neg' (m + 1) level left') := by
  rw [operators, operators]
  refine .peek fun op op' alike listed => ?_
  rw [c.indistinct.kind alike]
  split
  · exact .ret made
  · next above =>
    have known : op.kind ≠ .eof := fun eof => above (by simp [eof, Kind.precedence])
    refine .advance (.bind ih.primary fun operand operand' madeOperand => ?_)
    refine .bind (ih.operators _ _ _ madeOperand) fun right right' madeRight => ?_
    exact ih.operators _ _ _ (.binary (listed known) (by omega) made madeRight)

include allows in
/-- Behind a minus sign there is a number, or an operand that is taken from 0. -/
theorem makes_negative {s : Stream} (ends : s.Ends c.tokens) (minus : s.head.kind = .minus) {u : Token}
    (alike : c.alike s.head u) : Twin c (Made c .expression) s.tail
      (negative neg s.head (primary neg n)) (negative neg' u (primary neg' m)) := by
  have known : s.head.kind ≠ .eof := by simp [minus]
  have listed : c.Listed s.head u := ⟨ends.head_mem known, alike⟩
  refine .peek fun digits alike' => ?_
  rw [c.indistinct.kind alike', c.indistinct.number alike']
  split
  · next number => exact .advance (.ret (.negative listed minus number (ends.pair known (by simp [number]))))
  · have operand : Makes c (Made c .expression)
        (primary neg n >>= fun operand => pure (.binary s.head .minus (.number s.head 0) operand))
        (primary neg' m >>= fun operand => pure (.binary u .minus (.number u 0) operand)) :=
      .bind ih.primary fun _ _ made => .ret (.binary listed (by decide) (.zero listed minus) made)
    rcases allows with rfl | ⟨free, rfl⟩
    · split
      · exact operand s.tail ends.tail
      · exact .fail
    · exact .lax free

include allows in
theorem makes_primary_step : Makes c (Made c .expression) (primary neg (n + 1)) (primary neg' (m + 1)) := by
  intro s ends
  rw [primary, primary]
  refine .peek fun u alike => ?_
  have listed (known : s.head.kind ≠ .eof) : c.Listed s.head u := ⟨ends.head_mem known, alike⟩
  rw [c.indistinct.kind alike, c.indistinct.number alike]
  split
  · next number => exact .advance (.ret (.number (listed (by simp [number])) number))
  · next text =>
    rw [c.indistinct.value alike (by simp [text])]
    exact .advance (.ret (.text (listed (by simp [text])) text))
  · exact ih.reference.mono (fun _ _ made => made.elim .value .operand) s ends
  · next minus => exact .advance (makes_negative allows ih ends minus alike)
  · exact Makes.advance (.bind ih.expression fun _ _ made => .skip (.ret made)) s ends
  · exact .fail

theorem makes_reference_step : Makes c (fun t t' => Made c .call t t' ∨ Made c .reference t t')
    (reference neg (n + 1)) (reference neg' (m + 1)) := by
  rw [reference, reference]
  refine .name fun t u listed name same => ?_
  rw [same]
  refine .accept (.accept ?_ ?_) (.accept ?_ ?_)
  · exact .ret (.inl (.call listed name rfl (forall₂_zip .nil)))
  · refine .bind ih.arguments fun args args' made => .skip (.ret (.inl ?_))
    exact .call listed name made.length_eq (forall₂_zip made)
  · exact .bind ih.expression fun _ _ made => .skip (.ret (.inr (.element listed name made)))
  · exact .ret (.inr (.name listed name))

theorem makes_arguments_step : Makes c (MadeEach c .expression) (arguments neg (n + 1)) (arguments neg' (m + 1)) := by
  rw [arguments, arguments]
  refine .bind ih.expression fun _ _ made => .accept (.bind ih.arguments fun _ _ later => ?_) ?_
  · exact .ret (.cons made later)
  · exact .ret (.cons made .nil)

end Expressions

theorem expressionMakes (allows : c.Allows neg neg') (le : n ≤ m) : ExpressionMakes c neg neg' n m := by
  induction n generalizing m with
  | zero => exact ⟨.stuck, fun _ _ _ _ => .stuck, .stuck, .stuck, .stuck⟩
  | succ n ih =>
    cases m with
    | zero => exact absurd le (Nat.not_succ_le_zero n)
    | succ m =>
      have ih := ih (Nat.le_of_succ_le_succ le)
      refine ⟨?_, makes_operators_step ih, makes_primary_step allows ih, makes_reference_step ih,
        makes_arguments_step ih⟩
      rw [expression, expression]
      exact .bind ih.primary fun _ _ made => ih.operators 0 _ _ made

/-! ## Statements -/

section Statements

variable (allows : c.Allows neg neg') (le : n ≤ m)

include allows le

theorem makes_named : Makes c (Made c .statement) (named neg n) (named neg' m) := by
  have exprs := expressionMakes allows le
  have simple {target target' : Tree} (made : Made c .reference target target') : Makes c (Made c .statement)
        (do let t ← peek
            if t.kind = .assign then
              advance
              return .assign t target (← expression neg n)
            else return target)
        (do let t ← peek
            if t.kind = .assign then
              advance
              return .assign t target' (← expression neg' m)
            else return target') := by
    refine .peek fun t u alike listed => ?_
    rw [c.indistinct.kind alike]
    split
    · next assign =>
      refine .advance (.bind exprs.expression fun _ _ value => .ret ?_)
      exact .assign (listed (by simp [assign])) made value
    · exact .ret (.mention made)
  refine .bind exprs.reference fun target target' made => ?_
  rcases made with call | reference
  · cases call with
    | call listed name same args => exact .ret (.perform (.call listed name same args))
  · cases reference with
    | name listed name => exact simple (.name listed name)
    | element listed name index => exact simple (.element listed name index)

end Statements

/-- What the readers of statements make with depths `n` and `m`. -/
structure StatementMakes (c : Comparison) (neg neg' : Bool) (n m : Nat) : Prop where
  statement : Makes c (Made c .statement) (statement neg n) (statement neg' m)
  body : Makes c (Made c .body) (body neg n) (body neg' m)
  compound : Makes c (Made c .body) (compound neg n) (compound neg' m)
  statements : Makes c (MadeEach c .statement) (statements neg n) (statements neg' m)

/-- No statement starts at the end of input. -/
theorem twin_statement_eof (eof : s.head.kind = .eof) (le : n ≤ m) :
    Twin c (fun _ _ => False) s (statement neg n) (statement neg' m) := by
  cases n with
  | zero => exact .stuck
  | succ n =>
    cases m with
    | zero => exact absurd le (Nat.not_succ_le_zero n)
    | succ m =>
      rw [statement, statement]
      refine .peek fun u alike => ?_
      simp only [c.indistinct.kind alike, eof]
      exact .fail

section Statements

variable (allows : c.Allows neg neg') (le : n ≤ m) (ih : StatementMakes c neg neg' n m)

include ih

include allows le in
theorem makes_statement_step : Makes c (Made c .statement) (statement neg (n + 1)) (statement neg' (m + 1)) := by
  have exprs := expressionMakes allows le
  have direction : Makes c (fun a b => b = a) direction direction :=
    .accept (.ret rfl) (.accept (.ret rfl) .fail)
  rw [statement, statement]
  refine .peek fun t u alike listed => ?_
  rw [c.indistinct.kind alike]
  split
  · exact makes_named allows le
  · next opens =>
    have listed := listed (by simp [opens])
    refine .advance (.bind exprs.expression fun _ _ cond => .skip ?_)
    refine .bind ih.body fun _ _ yes => .accept (.bind ih.body fun _ _ no => .ret ?_) (.ret ?_)
    · exact .branchElse listed cond yes no
    · exact .branch listed cond yes
  · next opens =>
    have listed := listed (by simp [opens])
    refine .advance (.name fun x x' inside name same => .skip (.bind exprs.expression fun _ _ start => ?_))
    rw [same]
    refine .bindSame direction fun down => .bind exprs.expression fun _ _ stop => .skip ?_
    exact .bind ih.body fun _ _ body => .ret (.count listed inside.mem name start stop body)
  · next opens =>
    have listed := listed (by simp [opens])
    refine .advance (.bind exprs.expression fun _ _ cond => .skip ?_)
    exact .bind ih.body fun _ _ body => .ret (.loop listed cond body)
  · exact ih.compound.mono fun _ _ => .block
  · next leave => exact .advance (.ret (.leave (listed (by simp [leave]))))
  · next exit => exact .advance (.ret (.exit (listed (by simp [exit]))))
  · exact .fail

include le in
theorem makes_body_step : Makes c (Made c .body) (body neg (n + 1)) (body neg' (m + 1)) := by
  intro s ends
  rw [body, body]
  refine .peek fun u alike => ?_
  rw [c.indistinct.kind alike]
  split
  · exact ih.compound s ends
  · by_cases eof : s.head.kind = .eof
    · exact .bind ends (twin_statement_eof eof le) fun _ _ _ none => none.elim
    · refine .bind ends (ih.statement s ends) fun _ _ _ made _ _ => .ret ?_
      exact .body ⟨ends.head_mem eof, alike⟩ rfl (forall₂_zip (.cons made .nil))

theorem makes_statements_step : Makes c (MadeEach c .statement) (statements neg (n + 1)) (statements neg' (m + 1)) := by
  rw [statements, statements]
  refine .peek fun t u alike _ => ?_
  rw [c.indistinct.kind alike]
  split
  · exact .ret .nil
  · refine .accept ih.statements (.bind ih.statement fun _ _ made => ?_)
    refine .accept (.bind ih.statements fun _ _ later => ?_) (.ret (.cons made .nil))
    exact .ret (.cons made later)

end Statements

theorem statementMakes (allows : c.Allows neg neg') (le : n ≤ m) : StatementMakes c neg neg' n m := by
  induction n generalizing m with
  | zero => exact ⟨.stuck, .stuck, .stuck, .stuck⟩
  | succ n ih =>
    cases m with
    | zero => exact absurd le (Nat.not_succ_le_zero n)
    | succ m =>
      have le := Nat.le_of_succ_le_succ le
      have ih := ih le
      refine ⟨makes_statement_step allows le ih, makes_body_step le ih, ?_, makes_statements_step ih⟩
      rw [compound, compound]
      refine .expect fun t u _ listed => .bind ih.statements fun _ _ made => .skip (.ret ?_)
      exact .body (listed (by decide)) made.length_eq (forall₂_zip made)

/-! ## Declarations -/

theorem makes_signed : Makes c (fun a b => b = a) signed signed := by
  refine fun s ends => .accept (fun _ => .expect fun u alike _ => .ret ?_) fun _ =>
    .expect fun u alike _ => .ret (c.indistinct.number alike)
  rw [c.indistinct.number alike]

theorem makes_type (le : n ≤ m) : Makes c (fun a b => b = a) (type n) (type m) := by
  refine .of_step rfl (fun n m _ ih => ?_) le
  rw [type, type]
  refine .peek fun t u alike _ => .accept (.ret rfl) (.accept ?_ .fail)
  refine .skip (.bindSame makes_signed fun lower => .skip (.bindSame makes_signed fun upper => ?_))
  refine .skip (.skip (.bindSame ih fun elem => ?_))
  split
  · exact fun _ _ => .refuse alike
  · exact .ret rfl

/-- A type that is read is spelled by the tokens from the place at which its reader starts. -/
theorem madeAt_of_run (ends : s.Ends w)
    (run : (type n).run s = some (.ok (t, rest))) : t.MadeAt w s.head := by
  obtain ⟨split, -, spelled⟩ := spells_type.takes t rest run
  generalize (type n).taken s = u at split spelled
  subst split
  have inside : u <:+: w := (prefix_append u rest.tokens).isInfix.trans ends.isInfix
  cases spelled with
  | integer kind => exact ⟨_, .integer kind, inside⟩
  | array kind opens lower dots upper closes of elem ordered =>
    exact ⟨_, .array kind opens lower dots upper closes of elem ordered, inside⟩

theorem makes_names (le : n ≤ m) :
    Makes c (Forall₂ fun t u => c.Listed t u ∧ t.kind = .identifier) (names n) (names m) := by
  refine .of_step rfl (fun n m _ ih => ?_) le
  rw [names, names]
  refine .name fun t u listed name _ => .accept (.bind ih fun _ _ later => ?_) ?_
  · exact .ret (.cons ⟨listed, name⟩ later)
  · exact .ret (.cons ⟨listed, name⟩ .nil)

theorem makes_group (le : n ≤ m) : Makes c (MadeEach c .var) (group n) (group m) := by
  refine .bind (makes_names le) fun ts ts' each => .skip fun s ends => .peek fun place' alike => ?_
  refine .bind ends (makes_type le s ends) fun type _ _ same run _ => .ret ?_
  rw [same]
  have made := madeAt_of_run ends run
  refine forall₂_map_left_iff.mpr (forall₂_map_right_iff.mpr (each.imp fun t u named => ?_))
  rw [c.indistinct.value named.1.alike (by simp [named.2])]
  exact .varDecl named.1 named.2 made alike

theorem makes_vars (le : n ≤ m) : Makes c (MadeEach c .var) (vars n) (vars m) :=
  .skip (.bind (makes_group le) fun _ _ made => .skip (.ret made))

theorem makes_definitions (le : n ≤ m) : Makes c (MadeEach c .declaration) (definitions n) (definitions m) := by
  refine .of_step rfl (fun n m _ ih => ?_) le
  rw [definitions, definitions]
  intro s ends
  refine .expect fun u alike name => .expect fun _ _ equals => ?_
  have known : s.head.kind ≠ .eof := by simp [name]
  have behind := ends.tail.tail
  refine .bind behind (makes_signed _ behind) fun value _ rest same run ends' => ?_
  rw [same, c.indistinct.value alike (by simp [name])]
  obtain ⟨split, -, spelled⟩ := spells_number.takes value rest run
  have defines : Defines c.tokens s.head value := by
    refine ⟨s.tail.head, _, equals, spelled, .trans ⟨[], rest.tokens, ?_⟩ ends.isInfix⟩
    have front := Stream.eq_prepend_head (s := s.tail) (by simp [equals])
    rw [split] at front
    conv => rhs; rw [Stream.eq_prepend_head known, front]
    rfl
  have made : Made c .declaration (.constDecl s.head s.head.value value)
      (.constDecl u s.head.value value) := .constDecl ⟨ends.head_mem known, alike⟩ name defines
  refine Makes.skip (.peek fun next next' alike' _ => ?_) rest ends'
  rw [c.indistinct.kind alike']
  split
  · exact .bind ih fun _ _ later => .ret (.cons made later)
  · exact .ret (.cons made .nil)

theorem makes_parameters (le : n ≤ m) : Makes c (MadeEach c .var) (parameters n) (parameters m) := by
  refine .of_step rfl (fun n m le ih => ?_) le
  rw [parameters, parameters]
  refine .peek fun t u alike _ => ?_
  rw [c.indistinct.kind alike]
  split
  · refine .bind (makes_group le) fun _ _ first => .accept (.bind ih fun _ _ groups => ?_) (.ret first)
    exact .ret (rel_append first groups)
  · exact .ret .nil

theorem makes_result (isFunction : Bool) (le : n ≤ m) :
    Makes c (fun a b => b = a) (result isFunction n) (result isFunction m) := by
  cases isFunction with
  | false => exact .ret rfl
  | true => exact .skip (makes_type le)

theorem makes_locals (le : n ≤ m) : Makes c (MadeEach c .var) (locals n) (locals m) := by
  refine .of_step rfl (fun n m le ih => ?_) le
  rw [locals, locals]
  refine .peek fun t u alike _ => ?_
  rw [c.indistinct.kind alike]
  split
  · exact .bind (makes_vars le) fun _ _ decls => .bind ih fun _ _ more => .ret (rel_append decls more)
  · exact .ret .nil

section Programs

variable (allows : c.Allows neg neg') (le : n ≤ m)

include allows le

/-- A routine is read behind the word that it starts with. -/
theorem makes_routine {isFunction : Bool} {s : Stream} (ends : s.Ends c.tokens)
    (word : s.head.kind = routineWord isFunction) {u : Token} (alike : c.alike s.head u) :
    Twin c (Made c .routine) s.tail (routine neg isFunction s.head n)
      (routine neg' isFunction u m) := by
  have list : Makes c (MadeEach c .var) (parameterList n) (parameterList m) :=
    .accept (.bind (makes_parameters le) fun _ _ made => .skip (.ret made)) (.ret .nil)
  have known : s.head.kind ≠ .eof := by cases isFunction <;> simp [word, routineWord]
  have listed : c.Listed s.head u := ⟨ends.head_mem known, alike⟩
  refine .expect fun x' alikeName name => ?_
  have knownName : s.tail.head.kind ≠ .eof := by simp [name]
  have inside := ends.tail.head_mem knownName
  have behind := ends.tail.tail
  rw [c.indistinct.value alikeName (by simp [name])]
  refine .bind behind (list _ behind) fun params params' s₁ each run ends₁ => ?_
  refine .bind ends₁ (makes_result isFunction le s₁ ends₁) fun result _ s₂ same run' ends₂ => ?_
  rw [same]
  obtain ⟨split, -, parameters⟩ := (spells_parameterList _).takes params s₁ run
  obtain ⟨split', -, heading⟩ :=
    (spells_result word name parameters _).takes result s₂ run'
  have heads : Heads c.tokens s.head result := by
    refine ⟨_, heading, .trans ⟨[], s₂.tokens, ?_⟩ ends.isInfix⟩
    conv => rhs; rw [Stream.eq_prepend_head known, Stream.eq_prepend_head knownName, split, split']
    simp [Stream.prepend]
  refine Makes.skip (.accept (.skip (.ret ?_)) ?_) s₂ ends₂
  · exact .forward listed inside name each.length_eq (forall₂_zip each) heads
  · refine .bind (makes_locals le) fun _ _ locals => ?_
    refine .bind (statementMakes allows le).compound fun _ _ body => .skip (.ret ?_)
    exact .defined listed inside name each.length_eq (forall₂_zip each) heads
      locals.length_eq (forall₂_zip locals) body

/-! ## Programs -/

/-- Declarations are made section by section. -/
structure MadeSections (c : Comparison) (ds ds' : Declarations) : Prop where
  decls : MadeEach c .declaration ds.decls ds'.decls
  routines : MadeEach c .routine ds.routines ds'.routines

theorem makes_declarations : Makes c (MadeSections c) (declarations neg n) (declarations neg' m) := by
  refine .of_step rfl (fun n m le ih => ?_) le
  have sections {p p' : Pull (List Tree)} (first : Makes c (MadeEach c .declaration) p p') : Makes c (MadeSections c)
        (do let decls ← p; let later ← declarations neg n; pure { later with decls := decls ++ later.decls })
        (do let decls ← p'; let later ← declarations neg' m; pure { later with decls := decls ++ later.decls }) :=
    .bind first fun _ _ decls => .bind ih fun _ _ later =>
      .ret ⟨rel_append decls later.decls, later.routines⟩
  have routines {isFunction : Bool} {s : Stream} (ends : s.Ends c.tokens)
      (word : s.head.kind = routineWord isFunction) {u : Token} (alike : c.alike s.head u) :
      Twin c (MadeSections c) s.tail
        (do let decl ← routine neg isFunction s.head n
            let later ← declarations neg n
            pure { later with routines := decl :: later.routines })
        (do let decl ← routine neg' isFunction u m
            let later ← declarations neg' m
            pure { later with routines := decl :: later.routines }) :=
    .bind ends.tail (makes_routine allows le ends word alike) fun _ _ rest decl _ ends' =>
      Makes.bind ih (fun _ _ later => .ret ⟨later.decls, .cons decl later.routines⟩) rest ends'
  rw [declarations, declarations]
  refine fun s ends => .peek fun u alike => ?_
  rw [c.indistinct.kind alike]
  split
  · exact sections ((makes_vars le).mono fun _ _ decls => decls.imp fun _ _ => .global) s ends
  · exact sections (.skip (makes_definitions le)) s ends
  · next word =>
    have word : s.head.kind = routineWord true := word
    exact .advance (routines ends word alike)
  · next word =>
    have word : s.head.kind = routineWord false := word
    exact .advance (routines ends word alike)
  · exact .ret ⟨.nil, .nil⟩

theorem makes_program : Makes c (Made c .program) (program neg n) (program neg' m) := by
  have sentence : Makes c (Made c .program) (sentence neg n) (sentence neg' m) := by
    refine .expect fun t u _ listed => .name fun x x' inside name same => .skip ?_
    rw [same]
    refine .bind (makes_declarations allows le) fun _ _ ds => ?_
    refine .bind (statementMakes allows le).body fun _ _ main => .skip (.ret ?_)
    exact .program (listed (by decide)) inside.mem name ds.decls.length_eq (forall₂_zip ds.decls)
      ds.routines.length_eq (forall₂_zip ds.routines) main
  exact .bind sentence fun _ _ made => .skip (.ret made)

end Programs

/-- A reader with more depth finds the same fault and passes as many tokens. -/
theorem run_of_deeper (le : n ≤ m) (run : (program neg n).run s = some (.error e)) :
    (program neg m).run s = some (.error e) ∧ (program neg m).passed s = (program neg n).passed s := by
  have makes : Makes (.same s.tokens False) (Made (.same s.tokens False) .program) (program neg n)
    (program neg m) := makes_program (.inl rfl) le
  rcases (makes s suffix_rfl).run (.refl s) run with ⟨impossible, -⟩ | ⟨⟨r', run', answers⟩, passed⟩
  · exact impossible.elim
  · cases answers with
    | error same => exact ⟨by rw [run', same.eq], passed⟩

end Pull

namespace Tree

/-- What is read off streams side by side is made side by side, and so are the faults. -/
theorem answers_read (allows : c.Allows neg neg')
    (ends : s.Ends c.tokens) (streams : s.Matches c.alike s') : c.lax ∧ (∃ e, Tree.read neg s = .error e) ∨
      Pull.Answers c (Made c .program) (Tree.read neg s) (Tree.read neg' s') := by
  have enough : Pull.depth s' ≤ Pull.depth s := Nat.le_of_eq (by rw [Pull.depth, Pull.depth, streams.size_eq])
  have twin := Pull.makes_program allows (Nat.le_refl (Pull.depth s)) s ends
  refine (twin.run streams (Pull.run_program (Nat.le_refl _))).imp_right fun answers => ?_
  obtain ⟨⟨r', run, answers⟩, -⟩ := answers
  rw [Pull.run_program enough] at run
  cases run
  exact answers

/-- A tree that is read is made of the tokens of its stream. -/
theorem made_of_ofTokens (parsed : ofTokens neg s = .ok t)
    (lax : Prop) : Made (.same s.tokens lax) .program t t := by
  unfold ofTokens at parsed
  cases run : Tree.read neg s with
  | error e =>
    rw [run] at parsed
    cases parsed
  | ok r =>
    rw [run] at parsed
    cases parsed
    exact (Pull.makes_program (.inl rfl) le_rfl).of_run (by rw [Pull.run_program le_rfl, run])

end Tree

/-- What can be computed of the result of a reader can be said of a result. -/
theorem exists_ok_of_map {ε α β : Type} {r : Except ε α} {f : α → β} {b : β}
    (found : r.toOption.map f = some b) : ∃ a, r = .ok a ∧ f a = b := by
  cases r with
  | error e => cases found
  | ok a => exact ⟨a, rfl, Option.some.inj found⟩

end MiniPascal
