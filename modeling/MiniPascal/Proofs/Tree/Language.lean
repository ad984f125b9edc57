import MiniPascal.Proofs.Tree.Greedy

/-!
# The language of the reader

Declarations are told apart by their first words, and each but a list of constants ends with a token
of its own. With the two directions at hand, the lists of tokens that are read are the programs of
the grammar (`read_ok_iff_program`).
-/

open List MiniPascal.Stream

namespace MiniPascal

open Kind

namespace Grammar

/-- The tokens of declarations. The flag says that the last of them is a section of constants. -/
inductive Declarations (neg : Bool) : Bool → List Token → Prop
  | none : Declarations neg false []
  | vars : Variables v → Declarations neg c w → Declarations neg c (v ++ w)
  | consts : Constants v → Declarations neg c w → Declarations neg (c || w.isEmpty) (v ++ w)
  | routine : Routine neg v → Declarations neg c w → Declarations neg c (v ++ w)

/-- A block is made of declarations and a statement. If it starts with a name, then the last
declaration is no section of constants. -/
theorem Block.split (h : Block neg w) :
    ∃ c v b, w = v ++ b ∧ Declarations neg c v ∧ Derives neg .statement b ∧
      (c = true → ∀ t, b.head? = some t → t.kind ≠ .identifier) := by
  induction h with
  | @body b statement => exact ⟨false, [], b, rfl, .none, statement, fun last => absurd last Bool.false_ne_true⟩
  | vars first _ ih =>
    obtain ⟨c, v, b, rfl, later, statement, noName⟩ := ih
    exact ⟨c, _, b, (append_assoc ..).symm, .vars first later, statement, noName⟩
  | consts first _ noName' ih =>
    obtain ⟨c, v, b, rfl, later, statement, noName⟩ := ih
    refine ⟨_, _, b, (append_assoc ..).symm, .consts first later, statement, fun last => ?_⟩
    rcases Bool.or_eq_true_iff.mp last with last | empty
    · exact noName last
    · rwa [isEmpty_iff.mp empty] at noName'
  | routine first _ ih =>
    obtain ⟨c, v, b, rfl, later, statement, noName⟩ := ih
    exact ⟨c, _, b, (append_assoc ..).symm, .routine first later, statement, noName⟩

end Grammar

/-- Whether a token behind declarations cannot go on with them. A name goes on with constants. -/
def Kind.endsDeclarations (constants : Bool) : Kind → Bool
  | .kwVar | .kwConst | .kwFunction | .kwProcedure => false
  | .identifier => !constants
  | _ => true

namespace Tree

open Grammar

/-! ## Types and names -/

section Declarations

variable {s rest : Stream} {w v : List Token} {x k : Token} {type : VarType} {ds : List Tree}

theorem reads_signed (h : Signed value w) : Reads readSigned Kind.any value w := by
  intro rest _
  unfold readSigned
  cases h with
  | plain number =>
    rw [prepend_cons, dif_neg (by rw [head_push, number]; decide)]
    exact .expect number fun _ => .ok
  | negative minus number =>
    rw [prepend_cons, prepend_cons, dif_pos (by rw [head_push, minus])]
    exact .expect number fun _ => .ok

theorem readsType_integer (kind : t.kind = .kwInteger) : Reads readType Kind.any .integer [t] := by
  intro rest _
  rw [prepend_cons, readType, dif_pos (by rw [head_push, kind])]
  exact .ok

theorem readsType_array {elem : VarType}
    (kind : a.kind = .kwArray) (opens : l.kind = .lbracket) (first : Signed lower v) (dots : d.kind = .dotDot)
    (last : Signed upper w) (closes : r.kind = .rbracket) (of : o.kind = .kwOf) (ordered : lower ≤ upper)
    (h : Reads readType Kind.any elem u) : Reads readType Kind.any (.array lower upper elem)
      (a :: l :: (v ++ d :: (w ++ r :: o :: u))) := by
  intro rest _
  rw [prepend_cons, prepend_cons, prepend_append, prepend_cons, prepend_append, prepend_cons, prepend_cons, readType,
    dif_neg (by rw [head_push, kind]; decide), dif_pos (by rw [head_push, kind])]
  refine .expect opens fun _ => ?_
  refine (reads_signed first _ rfl).bind fun _ => ?_
  refine .expect dots fun _ => ?_
  refine (reads_signed last _ rfl).bind fun _ => ?_
  refine .expect closes fun _ => ?_
  refine .expect of fun _ => ?_
  refine (h rest rfl).bind fun _ => ?_
  dsimp only
  rw [if_neg (Int64.not_lt.mpr ordered)]
  exact .ok

theorem readsType_of_isType (h : IsType type w) : Reads readType Kind.any type w := by
  induction h with
  | integer kind => exact readsType_integer kind
  | array kind opens lower dots upper closes of _ ordered reads =>
    exact readsType_array kind opens lower dots upper closes of ordered reads

/-- The tokens of names. -/
abbrev ReadsNames : List Token → List Token → Prop := Reads readNames (· != .comma)

theorem readsNames_last (name : x.kind = .identifier) : ReadsNames [x] [x] := by
  intro rest ends
  rw [prepend_cons, prepend_nil, readNames]
  refine .expect name fun _ => ?_
  dsimp only
  rw [dif_neg (bne_iff_ne.mp ends)]
  exact .ok

theorem readsNames_of_names (h : Names w) : ∃ xs, ReadsNames xs w := by
  induction h with
  | last name => exact ⟨_, readsNames_last name⟩
  | @next w x c name comma _ ih =>
    obtain ⟨xs, reads⟩ := ih
    refine ⟨x :: xs, fun rest ends => ?_⟩
    rw [prepend_cons, prepend_cons, readNames]
    refine .expect name fun _ => ?_
    dsimp only
    rw [dif_pos (by rw [head_push, comma])]
    exact (reads rest ends).bind fun _ => .ok

theorem readsGroup_mk (names : ReadsNames xs v) (colon : c.kind = .colon)
    (h : Reads readType Kind.any type (k :: w)) :
    Reads readGroup Kind.any (xs.map fun x => .varDecl x x.value type k) (v ++ c :: k :: w) := by
  intro rest _
  rw [prepend_append, prepend_cons]
  refine (names (Stream.push _ c) (congrArg (· != comma) colon)).bind fun _ => ?_
  refine .expect colon fun _ => ?_
  exact (h rest rfl).bind fun _ => .ok

theorem readsGroup_of_group (h : Group w) : ∃ ds, Reads readGroup Kind.any ds w := by
  obtain ⟨names, colon, type⟩ := h
  obtain ⟨xs, reads⟩ := readsNames_of_names names
  have reads' := readsType_of_isType type
  obtain ⟨k, u, rfl⟩ := (reads' ⟨[], .nowhere⟩ rfl).exists_cons
  exact ⟨_, readsGroup_mk reads colon reads'⟩

theorem group_starts (h : Takes (readGroup s) ds rest) : s.head.kind = .identifier := by
  obtain ⟨xs, mid, names⟩ := h.of_bind
  rw [readNames] at names
  exact names.starts

/-! ## Variables and constants -/

/-- The tokens of constants. -/
abbrev ReadsConstants : List Tree → List Token → Prop := Reads readConstants (· != .identifier)

theorem readsVariables_mk {s : Token} (var : k.kind = .kwVar) (h : Reads readGroup Kind.any ds w)
    (semi : s.kind = .semi) : Reads readVariables Kind.any ds (k :: (w ++ [s])) := by
  intro rest _
  rw [prepend_cons, prepend_append, prepend_cons, prepend_nil]
  refine .expect var fun _ => ?_
  exact (h _ rfl).bind fun _ => .expect semi fun _ => .ok

theorem readsVariables_of_variables (h : Variables w) : ∃ ds, Reads readVariables Kind.any ds w := by
  obtain ⟨var, group, semi⟩ := h
  obtain ⟨ds, reads⟩ := readsGroup_of_group group
  exact ⟨ds, readsVariables_mk var reads semi⟩

theorem variables_starts (h : Takes (readVariables s) ds rest) : s.head.kind = .kwVar := by
  exact h.starts

theorem readsDefinitions_last {s : Token} (name : x.kind = .identifier)
    (equals : e.kind = .eq) (h : Signed value w) (semi : s.kind = .semi) :
    Reads readDefinitions (· != .identifier) [.constDecl x x.value value] (x :: e :: (w ++ [s])) := by
  intro rest ends
  rw [prepend_cons, prepend_cons, prepend_append, prepend_cons, prepend_nil, readDefinitions]
  refine .expect name fun _ => ?_
  refine .expect equals fun _ => ?_
  refine (reads_signed h _ rfl).bind fun _ => ?_
  refine .expect semi fun _ => ?_
  dsimp only
  rw [if_neg (bne_iff_ne.mp ends)]
  exact .ok

theorem definitions_starts (h : Definitions w) : (rest.prepend w).head.kind = .identifier := by
  cases h with
  | last name | next name => exact name

theorem readsDefinitions_of_definitions (h : Definitions w) : ∃ ds, Reads readDefinitions (· != .identifier) ds w := by
  induction h with
  | last name equals value semi => exact ⟨_, readsDefinitions_last name equals value semi⟩
  | @next value w u x e s name equals signed semi later ih =>
    obtain ⟨ds, reads⟩ := ih
    refine ⟨.constDecl x x.value value :: ds, fun rest ends => ?_⟩
    rw [prepend_cons, prepend_cons, prepend_append, prepend_cons, readDefinitions]
    refine .expect name fun _ => ?_
    refine .expect equals fun _ => ?_
    refine (reads_signed signed _ rfl).bind fun _ => ?_
    refine .expect semi fun _ => ?_
    dsimp only
    rw [if_pos (definitions_starts later)]
    exact (reads rest ends).bind fun _ => .ok

theorem readsConstants_mk (const : k.kind = .kwConst) (h : Reads readDefinitions (· != .identifier) ds w) :
    ReadsConstants ds (k :: w) := by
  intro rest ends
  rw [prepend_cons]
  refine .expect const fun _ => ?_
  exact (h rest ends).bind fun _ => .ok

theorem readsConstants_of_constants (h : Constants w) : ∃ ds, ReadsConstants ds w := by
  obtain ⟨const, definitions⟩ := h
  obtain ⟨ds, reads⟩ := readsDefinitions_of_definitions definitions
  exact ⟨ds, readsConstants_mk const reads⟩

/-! ## Routines -/

/-- The tokens of groups of parameters. -/
abbrev ReadsParameters : List Tree → List Token → Prop := Reads readParameters (· == .rparen)

theorem readsParameters_none : ReadsParameters [] [] := by
  intro rest closes
  rw [prepend_nil, readParameters, if_neg (by rw [beq_iff_eq.mp closes]; decide)]
  exact .ok

theorem readsParameters_last (h : Reads readGroup Kind.any ds w) : ReadsParameters ds w := by
  intro rest closes
  have group := h rest rfl
  rw [readParameters, if_pos (group_starts group)]
  refine group.bind fun _ => ?_
  dsimp only
  rw [dif_neg (by rw [beq_iff_eq.mp closes]; decide)]
  exact .ok

theorem readsParameters_next {s : Token} (first : Reads readGroup Kind.any ds v)
    (semi : s.kind = .semi) (h : ReadsParameters es w) : ReadsParameters (ds ++ es) (v ++ s :: w) := by
  intro rest closes
  rw [prepend_append, prepend_cons]
  have group := first ((rest.prepend w).push s) rfl
  rw [readParameters, if_pos (group_starts group)]
  refine group.bind fun _ => ?_
  dsimp only
  rw [dif_pos (by rw [head_push, semi])]
  exact (h rest closes).bind fun _ => .ok

theorem readsParameters_of_groups (h : Groups w) : ∃ ds, ReadsParameters ds w := by
  induction h with
  | last group =>
    obtain ⟨ds, reads⟩ := readsGroup_of_group group
    exact ⟨ds, readsParameters_last reads⟩
  | lastSemi group semi =>
    obtain ⟨ds, reads⟩ := readsGroup_of_group group
    exact ⟨_, readsParameters_next reads semi readsParameters_none⟩
  | next group semi _ ih =>
    obtain ⟨ds, reads⟩ := readsGroup_of_group group
    obtain ⟨es, later⟩ := ih
    exact ⟨_, readsParameters_next reads semi later⟩

theorem readsParameterList_given (opens : l.kind = .lparen) (h : ReadsParameters ds w)
    (closes : r.kind = .rparen) : Reads readParameterList (· != .lparen) ds (l :: (w ++ [r])) := by
  intro rest _
  unfold readParameterList
  rw [prepend_cons, prepend_append, prepend_cons, prepend_nil, dif_pos (by rw [head_push, opens])]
  refine (h (rest.push r) (congrArg (· == rparen) closes)).bind fun _ => ?_
  exact .expect closes fun _ => .ok

theorem readsParameterList_of_parameters (h : Parameters w) : ∃ ds, Reads readParameterList (· != .lparen) ds w := by
  cases h with
  | none =>
    refine ⟨[], fun rest ends => ?_⟩
    rw [prepend_nil, readParameterList, dif_neg (bne_iff_ne.mp ends)]
    exact .ok
  | empty opens closes => exact ⟨[], readsParameterList_given opens readsParameters_none closes⟩
  | given opens groups closes =>
    obtain ⟨ds, reads⟩ := readsParameters_of_groups groups
    exact ⟨ds, readsParameterList_given opens reads closes⟩

theorem readsResult_function (colon : c.kind = .colon) (h : Reads readType Kind.any type w) :
    Reads (readResult true) Kind.any type (c :: w) := by
  intro rest _
  rw [readResult, if_pos rfl, prepend_cons]
  refine .expect colon fun _ => ?_
  exact (h rest rfl).bind fun _ => .ok

theorem readsResult_procedure : Reads (readResult false) Kind.any .void [] := fun _ _ => .ok

theorem result_starts (h : Takes (readResult isFunction s) type rest)
    (semi : rest.head.kind = .semi) : s.head.kind ≠ .lparen := by
  cases isFunction with
  | true =>
    rw [h.starts]
    decide
  | false =>
    obtain ⟨lt, run⟩ := h
    cases run
    rw [semi]
    decide

/-- The tokens of the variables of a routine. -/
abbrev ReadsLocals : List Tree → List Token → Prop := Reads readLocals (· == .kwBegin)

theorem readsLocals_nil : ReadsLocals [] [] := by
  intro rest begins
  rw [prepend_nil, readLocals, if_neg (by rw [beq_iff_eq.mp begins]; decide)]
  exact .ok

theorem readsLocals_cons (first : Reads readVariables Kind.any ds v)
    (later : ReadsLocals es w) : ReadsLocals (ds ++ es) (v ++ w) := by
  intro rest begins
  rw [prepend_append]
  have vars := first (rest.prepend w) rfl
  rw [readLocals, if_pos (variables_starts vars)]
  refine vars.bind fun _ => ?_
  exact (later rest begins).bind fun _ => .ok

theorem readsLocals_of_locals (h : Locals l) : ∃ ds, ReadsLocals ds l := by
  induction h with
  | nil => exact ⟨[], readsLocals_nil⟩
  | cons first _ ih =>
    obtain ⟨ds, reads⟩ := readsVariables_of_variables first
    obtain ⟨es, later⟩ := ih
    exact ⟨_, readsLocals_cons reads later⟩

theorem locals_starts (h : Takes (readLocals s) ds rest) (begins : rest.head.kind = .kwBegin) :
    s.head.kind ≠ .kwForward := by
  intro forward
  obtain ⟨lt, run⟩ := h
  rw [readLocals, if_neg (by rw [forward]; decide)] at run
  cases run
  cases begins.symm.trans forward

/-- The tokens of a routine between its first word and the semicolon. -/
structure ReadsHeading (isFunction : Bool) (name : Token) (params : List Tree) (result : VarType)
    (v u : List Token) : Prop where
  name : name.kind = .identifier
  params : Reads readParameterList (· != .lparen) params v
  result : Reads (readResult isFunction) Kind.any result u

section Routines

variable {neg isFunction : Bool} {t x s e : Token} {params : List Tree} {result : VarType}
variable {v u : List Token}

theorem readsRoutine_forward (h : ReadsHeading isFunction x params result v u)
    (semi : s.kind = .semi) (forward : f.kind = .kwForward) (semi' : e.kind = .semi) :
    Reads (readRoutine neg isFunction t) Kind.any (.routine t x.value params result [] .absent)
      (x :: (v ++ (u ++ [s, f, e]))) := by
  intro rest _
  have returns := h.result (((rest.push e).push f).push s) rfl
  rw [prepend_cons, prepend_append, prepend_append]
  refine .expect h.name fun _ => ?_
  refine (h.params _ (bne_iff_ne.mpr (result_starts returns semi))).bind fun _ => ?_
  refine returns.bind fun _ => ?_
  refine .expect semi fun _ => ?_
  dsimp only
  rw [dif_pos (by rw [head_push, forward])]
  exact .expect semi' fun _ => .ok

theorem readsRoutine_defined
    (h : ReadsHeading isFunction x params result v u) (semi : s.kind = .semi)
    (vars : ReadsLocals locals l) (code : ReadsCompound neg body b) (semi' : e.kind = .semi) :
    Reads (readRoutine neg isFunction t) Kind.any (.routine t x.value params result locals body)
      (x :: (v ++ (u ++ s :: (l ++ (b ++ [e]))))) := by
  intro rest _
  have returns := h.result ((((rest.push e).prepend b).prepend l).push s) rfl
  have compound := code (rest.push e) rfl
  have begins := compound_starts compound
  have front := vars _ (beq_iff_eq.mpr begins)
  rw [prepend_cons, prepend_append, prepend_append, prepend_cons,
    prepend_append, prepend_append, prepend_cons, prepend_nil]
  refine .expect h.name fun _ => ?_
  refine (h.params _ (bne_iff_ne.mpr (result_starts returns semi))).bind fun _ => ?_
  refine returns.bind fun _ => ?_
  refine .expect semi fun _ => ?_
  dsimp only
  rw [dif_neg (locals_starts front begins)]
  refine front.bind fun _ => ?_
  refine compound.bind fun _ => ?_
  exact .expect semi' fun _ => .ok

end Routines

theorem readsHeading_of_heading (heading : Heading result h) :
    ∃ isFunction k x params v u, h = k :: x :: (v ++ u) ∧
      k.kind = routineWord isFunction ∧ ReadsHeading isFunction x params result v u := by
  cases heading with
  | function word name params colon type =>
    obtain ⟨ps, reads⟩ := readsParameterList_of_parameters params
    have reads' := readsType_of_isType type
    exact ⟨true, _, _, ps, _, _, rfl, word, name, reads, readsResult_function colon reads'⟩
  | @procedure v f x word name params =>
    obtain ⟨ps, reads⟩ := readsParameterList_of_parameters params
    exact ⟨false, f, x, ps, v, [], by rw [append_nil], word, name, reads,
      readsResult_procedure⟩

theorem readsRoutine_of_routine (h : Routine neg w) :
    ∃ isFunction k w' routine, w = k :: w' ∧ k.kind = routineWord isFunction ∧
      Reads (readRoutine neg isFunction k) Kind.any routine w' := by
  cases h with
  | forward heading semi forward semi' =>
    obtain ⟨isFunction, k, x, ps, v, u, rfl, word, reads⟩ := readsHeading_of_heading heading
    exact ⟨isFunction, k, _, _, by simp, word, readsRoutine_forward reads semi forward semi'⟩
  | defined heading semi locals body semi' =>
    obtain ⟨isFunction, k, x, ps, v, u, rfl, word, reads⟩ := readsHeading_of_heading heading
    obtain ⟨ls, vars⟩ := readsLocals_of_locals locals
    obtain ⟨code, compound⟩ := reads_of_derives body
    exact ⟨isFunction, k, _, _, by simp, word,
      readsRoutine_defined reads semi vars compound semi'⟩

/-! ## Programs -/

variable {neg c : Bool}

theorem readsDeclarations_none : Reads (readDeclarations neg) (endsDeclarations c) {} [] := by
  intro rest ends
  rw [prepend_nil, readDeclarations]
  split <;> first | exact .ok | (next kind => rw [kind] at ends; cases ends)

/-- Nothing is read as declarations before a name. -/
theorem declarations_starts {ds : Declarations} (h : Takes (readDeclarations neg (rest.prepend w)) ds rest)
    (some : w ≠ []) : (rest.prepend w).head.kind ≠ .identifier := by
  intro name
  obtain ⟨lt, run⟩ := h
  have all : rest.prepend w = rest := by
    rw [readDeclarations] at run
    split at run <;> first
      | (next kind => cases name.symm.trans kind)
      | exact congrArg Parsed.rest (Except.ok.inj run)
  have length := congrArg (fun s : Stream => s.tokens.length) all
  have := length_pos_iff.mpr some
  simp only [Stream.prepend, length_append] at length
  omega

section

variable {ds : List Tree} {later : Declarations} {v w : List Token}
  (reads : Reads (readDeclarations neg) (endsDeclarations c) later w)

include reads

theorem readsDeclarations_vars (first : Reads readVariables Kind.any ds v) :
    Reads (readDeclarations neg) (endsDeclarations c)
      { later with decls := ds ++ later.decls } (v ++ w) := by
  intro rest ends
  have vars := first (rest.prepend w) rfl
  have kind := variables_starts vars
  rw [prepend_append, readDeclarations]
  split <;> first | (next h => cases kind.symm.trans h) | contradiction | skip
  exact vars.bind fun _ => (reads rest ends).bind fun _ => .ok

theorem readsDeclarations_consts (first : ReadsConstants ds v) :
    Reads (readDeclarations neg) (endsDeclarations (c || w.isEmpty))
      { later with decls := ds ++ later.decls } (v ++ w) := by
  intro rest ends
  have weaker : rest.head.kind.endsDeclarations c = true := by
    revert ends
    cases rest.head.kind <;> cases c <;> simp [endsDeclarations]
  -- A name could stand only behind all declarations, where it is excluded.
  have noName : (rest.prepend w).head.kind ≠ .identifier := by
    cases w with
    | nil =>
      intro name
      rw [isEmpty_nil, Bool.or_true, show rest.head.kind = .identifier from name] at ends
      cases ends
    | cons t w => exact declarations_starts (reads rest weaker) (cons_ne_nil t w)
  have constants := first (rest.prepend w) (bne_iff_ne.mpr noName)
  have kind : ((rest.prepend w).prepend v).head.kind = .kwConst := by
    exact constants.starts
  rw [prepend_append, readDeclarations]
  split <;> first | (next h => cases kind.symm.trans h) | contradiction | skip
  exact constants.bind fun _ => (reads rest weaker).bind fun _ => .ok

theorem readsDeclarations_routine {k : Token} {routine : Tree}
    (kind : k.kind = routineWord isFunction) (first : Reads (readRoutine neg isFunction k) Kind.any routine v) :
    Reads (readDeclarations neg) (endsDeclarations c)
      { later with routines := routine :: later.routines } (k :: (v ++ w)) := by
  intro rest ends
  rw [prepend_cons, prepend_append, readDeclarations]
  cases isFunction with
  | true | false =>
    split <;> first | (next h => cases kind.symm.trans h) | contradiction | skip
    exact (first _ rfl).bind fun _ => (reads rest ends).bind fun _ => .ok

end

theorem reads_declarations (h : Grammar.Declarations neg c w) :
    ∃ ds, Reads (readDeclarations neg) (endsDeclarations c) ds w := by
  induction h with
  | none => exact ⟨_, readsDeclarations_none⟩
  | vars first _ ih =>
    obtain ⟨later, reads⟩ := ih
    obtain ⟨ds, vars⟩ := readsVariables_of_variables first
    exact ⟨_, readsDeclarations_vars reads vars⟩
  | consts first _ ih =>
    obtain ⟨later, reads⟩ := ih
    obtain ⟨ds, constants⟩ := readsConstants_of_constants first
    exact ⟨_, readsDeclarations_consts reads constants⟩
  | routine first _ ih =>
    obtain ⟨later, reads⟩ := ih
    obtain ⟨isFunction, k, v, routine, rfl, kind, code⟩ := readsRoutine_of_routine first
    exact ⟨_, readsDeclarations_routine reads kind code⟩

/-- A program is read if its declarations are, and the body behind them. -/
theorem read_of_parts {s : Token} {ds : Declarations} {main : Tree} (program : p.kind = .kwProgram)
    (name : x.kind = .identifier) (semi : s.kind = .semi)
    (declarations : Reads (readDeclarations neg) (endsDeclarations c) ds v)
    (ends : ((rest.push d).prepend w).head.kind.endsDeclarations c = true)
    (body : Takes (readBody neg ((rest.push d).prepend w)) main (rest.push d)) (dot : d.kind = .dot)
    (eof : rest.head.kind = .eof) : Tree.read neg (rest.prepend (p :: x :: s :: (v ++ (w ++ [d])))) =
      .ok (.program p x.value ds.decls ds.routines main, rest.tail) := by
  rw [prepend_cons, prepend_cons, prepend_cons, prepend_append, prepend_append, prepend_cons, prepend_nil]
  refine (Takes.token program).run fun _ => ?_
  refine (Takes.token name).run fun _ => ?_
  refine (Takes.token semi).run fun _ => ?_
  refine (declarations _ ends).run fun _ => ?_
  refine body.run fun _ => ?_
  refine (Takes.token dot).run fun _ => ?_
  dsimp only
  rw [if_neg (not_not.mpr eof)]
  rfl

/-- No token that starts a statement goes on with declarations, but a name with constants. -/
theorem statement_endsDeclarations {v : Tree} (h : Takes (readStatement neg s) v rest)
    (noName : c = true → s.head.kind ≠ .identifier) : s.head.kind.endsDeclarations c = true := by
  have starts := statement_starts h
  revert starts noName
  generalize s.head.kind = k
  cases c <;> cases k <;> simp [endsDeclarations]

end Declarations

/-- A program before the end of input is read. -/
theorem read_of_program {neg : Bool} {w : List Token} (h : Program neg w) {rest : Stream}
    (ends : rest.head.kind = .eof) : ∃ r, Tree.read neg (rest.prepend w) = .ok r := by
  obtain @⟨w, p, x, s, d, program, name, semi, block, dot⟩ := h
  obtain ⟨c, v, b, rfl, declarations, statement, noName⟩ := block.split
  obtain ⟨ds, reads⟩ := reads_declarations declarations
  obtain ⟨takesElse, t, balanced⟩ := reads_of_derives statement
  have body : Takes (readStatement neg ((rest.push d).prepend b)) t (rest.push d) :=
    balanced.takes (congrArg endsStatement dot) fun _ kind => by cases dot.symm.trans kind
  obtain ⟨u, b, rfl⟩ := body.exists_cons
  rw [append_assoc]
  exact ⟨_, read_of_parts program name semi reads
    (statement_endsDeclarations body fun last => noName last u rfl) (takes_body body) dot ends⟩

/-- A stream comes to an end of input behind the tokens before it. -/
theorem prepend_takeWhile (s : Stream) : ∃ rest : Stream,
    s = rest.prepend (s.tokens.takeWhile fun t => t.kind ≠ .eof) ∧ rest.head.kind = .eof := by
  obtain ⟨tokens, closing⟩ := s
  induction tokens with
  | nil => exact ⟨⟨[], closing⟩, rfl, rfl⟩
  | cons t ts ih =>
    by_cases eof : t.kind = .eof
    · refine ⟨⟨t :: ts, closing⟩, ?_, eof⟩
      rw [takeWhile_cons_of_neg (by simpa using eof)]
      rfl
    · obtain ⟨rest, split, ends⟩ := ih
      refine ⟨rest, ?_, ends⟩
      rw [takeWhile_cons_of_pos (by simpa using eof), prepend_cons, ← split]
      rfl

theorem takeWhile_prepend {w : List Token} {rest : Stream} (known : ∀ t ∈ w, t.kind ≠ .eof)
    (ends : rest.head.kind = .eof) : (rest.prepend w).tokens.takeWhile (fun t => t.kind ≠ .eof) = w := by
  have none : rest.tokens.takeWhile (fun t => t.kind ≠ .eof) = [] := by
    obtain ⟨tokens, closing⟩ := rest
    cases tokens with
    | nil => rfl
    | cons t ts =>
      have eof : t.kind = .eof := ends
      exact takeWhile_cons_of_neg (by simpa using eof)
  rw [Stream.prepend, takeWhile_append_of_pos (by simpa using known), none, append_nil]

/-- A list of tokens is read as a program if and only if it is one of the grammar, up to the first
end of input. -/
theorem read_ok_iff_program (neg : Bool) (s : Stream) :
    (∃ r, Tree.read neg s = .ok r) ↔ Program neg (s.tokens.takeWhile fun t => t.kind ≠ .eof) := by
  constructor
  · rintro ⟨r, run⟩
    obtain ⟨w, rest, rfl, known, ends, program⟩ := program_of_read run
    rwa [takeWhile_prepend known ends]
  · intro program
    obtain ⟨rest, split, ends⟩ := prepend_takeWhile s
    rw [split]
    exact read_of_program program ends

end MiniPascal.Tree
