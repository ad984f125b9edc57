import MiniPascal.Proofs.Tree.Language
import MiniPascal.Proofs.Tree.Print
import MiniPascal.Proofs.Tree.Reading

/-!
# Programs are read back from what is written for them

Reading what is written for a well-formed tree gives the tree back, up to the tokens that mark its places in
a text (`Tree.bare`). Each part of a body is read by the reader of its role, whatever stands behind it, if
that cannot go on with it (`Returns`); the parts are put together as the readers put them together.
-/

open List

namespace MiniPascal.Tree

open Token

/-! ## Reading bodies -/

/-- A tree is the given one, up to tokens. -/
def Same (t u : Tree) : Prop := u.bare = t.bare

/-- A part of a body is read back from what is written for it. -/
def Returns (neg : Bool) : Role → Tree → Prop
  | .expression, t => ∃ u, Same t u ∧ ReadsExpression neg u t.printCode
  | .reference, t => ∃ u, Same t u ∧ ¬ IsCall u ∧ ReadsReference neg u t.printCode
  | .call, t => ∃ u, Same t u ∧ IsCall u ∧ ReadsCall neg u t.printCode
  | .statement, t => ∃ u takesElse, Same t u ∧ Balanced neg takesElse u t.printCode
  | .body, t => ∃ u, Same t u ∧ ReadsCompound neg u t.printCode

section Bodies

variable {neg : Bool} {tok : Token}

theorem returns_number (value : Int64) : Returns neg .expression (.number tok value) := by
  by_cases negative : value < 0
  · refine ⟨.number (sign .minus) (- -value), by rw [Int64.neg_neg]; rfl, ?_⟩
    rw [printCode, signed, if_pos negative]
    exact readsExpression_operand (readsOperand_negative rfl rfl)
  · refine ⟨.number (numeral value) value, rfl, ?_⟩
    rw [printCode, signed, if_neg negative]
    exact readsExpression_operand (readsOperand_number rfl)

/-- Trees are read back one after the other, with a sign between them. -/
theorem returns_separated {Q : Tree → List Token → Prop} {R : List Tree → List Token → Prop}
    (last : ∀ {u w}, Q u w → R [u] w) (next : ∀ {u us w v}, Q u w → R us v → R (u :: us) (w ++ sign k :: v))
    {ts : List Tree} (some : ts ≠ []) (each : ∀ t ∈ ts, ∃ u, Same t u ∧ Q u t.printCode) :
    ∃ us, us.map bare = ts.map bare ∧ R us (separated k (ts.map printCode)) := by
  induction ts with
  | nil => exact absurd rfl some
  | cons t ts ih =>
    obtain ⟨⟨u, same, reads⟩, later⟩ := forall_mem_cons.mp each
    by_cases more : ts = []
    · subst more
      refine ⟨[u], by rw [map_cons, map_cons, same], ?_⟩
      rw [map_cons, map_nil, separated_singleton]
      exact last reads
    · obtain ⟨us, sames, rest⟩ := ih more later
      refine ⟨u :: us, by rw [map_cons, map_cons, same, sames], ?_⟩
      rw [map_cons, separated_cons k _ (by simpa using more)]
      exact next reads rest

theorem returns_call {args : List Tree}
    (each : ∀ arg ∈ args, Returns neg .expression arg) : Returns neg .call (.call tok f args) := by
  by_cases some : args = []
  · subst some
    exact ⟨.call (word f) f [], rfl, isCall_call, readsCall_plain rfl rfl rfl⟩
  · obtain ⟨us, same, reads⟩ := returns_separated readsArguments_last
      (fun first later => readsArguments_next first rfl later) some each
    refine ⟨.call (word f) f us, ?_, isCall_call, ?_⟩
    · rw [Same, bare, bare, bareEach_eq_map, bareEach_eq_map, same]
    · rw [printCode_call]
      exact readsCall_with rfl rfl reads rfl

/-! ### Statements -/

theorem isAbsent_of_returns (body : Returns neg .body t) : t.isAbsent = false := by
  obtain ⟨u, -, reads⟩ := body
  cases t with
  | absent => exact absurd (compound_starts (reads ⟨[], .nowhere⟩ rfl)) (by decide)
  | _ => rfl

theorem returns_branchElse {cond : Tree} (test : Returns neg .expression cond)
    (first : Returns neg .body yes) (second : Returns neg .body no) :
    Returns neg .statement (.branch tok cond yes no) := by
  have some := isAbsent_of_returns second
  obtain ⟨c, sameCond, readsCond⟩ := test
  obtain ⟨y, sameYes, readsYes⟩ := first
  obtain ⟨n, sameNo, readsNo⟩ := second
  have whole := Balanced.branchElse (i := sign .kwIf) (t := sign .kwThen) (e := sign .kwElse) rfl
    readsCond rfl (.simple (readsStatement_compound readsYes)) rfl
    (.simple (readsStatement_compound readsNo))
  rw [bodyOf_compound readsYes, bodyOf_compound readsNo] at whole
  refine ⟨.branch (sign .kwIf) c y n, false, ?_, ?_⟩
  · rw [Same, bare, bare, sameCond, sameYes, sameNo]
  · rwa [printCode, some, if_neg Bool.false_ne_true]

/-- The head of a loop and its body. -/
theorem balanced_loop {make : Tree → Tree}
    (head : ReadsHead neg make h) (code : ReadsCompound neg body w) : Balanced neg false (make body) (h ++ w) := by
  have whole := Balanced.loop head (.simple (readsStatement_compound code))
  rwa [bodyOf_compound code] at whole

theorem returns_count
    (first : Returns neg .expression start) (last : Returns neg .expression stop) (inner : Returns neg .body body) :
    Returns neg .statement (.count tok var start stop down body) := by
  obtain ⟨a, sameStart, readsStart⟩ := first
  obtain ⟨b, sameStop, readsStop⟩ := last
  obtain ⟨c, sameBody, readsBody⟩ := inner
  let d := sign (if down then .kwDownto else .kwTo)
  have direction : d.kind = .kwTo ∨ d.kind = .kwDownto := by
    cases down
    · exact .inl rfl
    · exact .inr rfl
  have downward : (d.kind == .kwDownto) = down := by
    cases down <;> rfl
  have head := readsHead_count (f := sign .kwFor) (x := word var) (a := sign .assign)
    (k := sign .kwDo) rfl rfl rfl readsStart direction readsStop rfl
  refine ⟨_, false, ?_, by simpa [printCode] using balanced_loop head readsBody⟩
  rw [Same, bare, bare, sameStart, sameStop, sameBody, downward]
  rfl

theorem returns_block {stmts : List Tree} (each : ∀ s ∈ stmts, Returns neg .statement s) :
    Returns neg .body (.block tok stmts) := by
  by_cases some : stmts = []
  · subst some
    refine ⟨.block (sign .kwBegin) [], rfl, ?_⟩
    exact readsCompound_of_statements rfl (fun s kind => (Closes.ends kind).takes) rfl
  · have balanced : ∀ s ∈ stmts, ∃ u, Same s u ∧ ∃ takesElse, Balanced neg takesElse u s.printCode := fun s member => by
      obtain ⟨u, takesElse, same, reads⟩ := each s member
      exact ⟨u, same, takesElse, reads⟩
    obtain ⟨us, same, reads⟩ := returns_separated (Q := fun u w => ∃ takesElse, Balanced neg takesElse u w)
      (fun h => h.elim fun _ => readsSequence_last)
      (fun first later => first.elim fun _ first => readsSequence_next first (cons_ne_nil (sign .semi) [])
        (forall_mem_singleton.mpr rfl) later) some balanced
    refine ⟨.block (sign .kwBegin) us, ?_, ?_⟩
    · rw [Same, bare, bare, bareEach_eq_map, bareEach_eq_map, same]
    · rw [printCode_block]
      have none : Grammar.Semis [] := forall_mem_nil _
      exact readsCompound_of_sequence rfl none reads none rfl

theorem returns_of_fits (neg : Bool) (h : Fits role t) : Returns neg role t := by
  induction h with
  | @number value tok => exact returns_number value
  | @text tok value =>
    exact ⟨.text (quoted value) value, rfl, readsExpression_operand (readsOperand_text rfl)⟩
  | operand _ ih =>
    obtain ⟨u, same, -, reads⟩ := ih
    exact ⟨u, same, readsExpression_operand (readsOperand_of_reference reads)⟩
  | result _ ih =>
    obtain ⟨u, same, -, reads⟩ := ih
    exact ⟨u, same, readsExpression_operand (readsOperand_of_reference fun rest _ => reads rest rfl)⟩
  | @binary op _ _ tok operator _ _ left right =>
    obtain ⟨l, sameLeft, readsLeft⟩ := left
    obtain ⟨r, sameRight, readsRight⟩ := right
    refine ⟨.binary (sign op) op l r, by rw [Same, bare, bare, sameLeft, sameRight], ?_⟩
    exact readsExpression_binary (readsOperand_parenthesized rfl readsLeft rfl) operator
      (readsOperand_parenthesized rfl readsRight rfl)
  | @name tok x => exact ⟨.name (word x) x, rfl, not_isCall_name, readsReference_name rfl⟩
  | @element _ tok array _ ih =>
    obtain ⟨i, same, reads⟩ := ih
    refine ⟨.element (word array) array i, by rw [Same, bare, bare, same], not_isCall_element, ?_⟩
    exact readsReference_element rfl rfl reads rfl
  | call _ ih => exact returns_call ih
  | mention _ ih =>
    obtain ⟨u, same, noCall, reads⟩ := ih
    exact ⟨u, false, same, .simple (readsStatement_mention noCall reads)⟩
  | perform _ ih =>
    obtain ⟨u, same, isCall, reads⟩ := ih
    exact ⟨u, false, same, .simple (readsStatement_perform isCall reads)⟩
  | assign _ _ target value =>
    obtain ⟨u, sameTarget, noCall, readsTarget⟩ := target
    obtain ⟨v, sameValue, readsValue⟩ := value
    refine ⟨.assign (sign .assign) u v, false, by rw [Same, bare, bare, sameTarget, sameValue], ?_⟩
    exact .simple (readsStatement_assign noCall readsTarget rfl readsValue)
  | branch _ _ cond yes =>
    obtain ⟨c, sameCond, readsCond⟩ := cond
    obtain ⟨y, sameYes, readsYes⟩ := yes
    have whole := Balanced.branch (i := sign .kwIf) (t := sign .kwThen) rfl readsCond rfl
      (.simple (readsStatement_compound readsYes))
    rw [bodyOf_compound readsYes] at whole
    refine ⟨.branch (sign .kwIf) c y .absent, true, ?_, ?_⟩
    · rw [Same, bare, sameCond, sameYes]
      rfl
    · rwa [printCode, if_pos (show Tree.absent.isAbsent = true from rfl), append_nil]
  | branchElse _ _ _ cond yes no => exact returns_branchElse cond yes no
  | count _ _ _ start stop body => exact returns_count start stop body
  | loop _ _ cond body =>
    obtain ⟨c, sameCond, readsCond⟩ := cond
    obtain ⟨b, sameBody, readsBody⟩ := body
    have head := readsHead_loop (l := sign .kwWhile) (k := sign .kwDo) rfl readsCond rfl
    refine ⟨_, false, ?_, by simpa [printCode] using balanced_loop head readsBody⟩
    rw [Same, bare, bare, sameCond, sameBody]
  | leave => exact ⟨.leave (sign .kwBreak), false, rfl, .simple (readsStatement_leave rfl)⟩
  | exit => exact ⟨.exit (sign .kwExit), false, rfl, .simple (readsStatement_exit rfl)⟩
  | compound _ ih =>
    obtain ⟨u, same, reads⟩ := ih
    exact ⟨u, false, same, .simple (readsStatement_compound reads)⟩
  | block _ ih => exact returns_block ih

end Bodies

/-! ## Reading declarations -/

theorem signed_spells (value : Int64) : Grammar.Signed value (signed value) := by
  by_cases negative : value < 0
  · have spelled := Grammar.Signed.negative (m := sign .minus) (t := numeral (-value)) rfl rfl
    rw [show (numeral (-value)).number = -value from rfl, Int64.neg_neg] at spelled
    rwa [signed, if_pos negative]
  · rw [signed, if_neg negative]
    exact Grammar.Signed.plain (t := numeral value) rfl

theorem reads_type (proper : type.Proper) : Reads readType Kind.any type type.print := by
  induction proper with
  | integer => exact readsType_integer rfl
  | @array lower upper elem _ _ ordered _ ih =>
    exact readsType_array rfl rfl (signed_spells lower) rfl (signed_spells upper) rfl rfl
      (Int64.le_iff_toInt_le.mpr ordered) ih

theorem reads_group (h : FitsVariable t) :
    ∃ us, us.map bare = [t.bare] ∧ Reads readGroup Kind.any us t.printGroup := by
  obtain @⟨tok, x, type, typeTok, proper⟩ := h
  have reads := reads_type proper
  obtain ⟨k, w, written⟩ := (reads ⟨[], .nowhere⟩ rfl).exists_cons
  rw [written] at reads
  refine ⟨[.varDecl (word x) x type k], rfl, ?_⟩
  rw [printGroup, written]
  exact readsGroup_mk (readsNames_last rfl) rfl reads

theorem reads_variables (h : FitsVariable t) :
    ∃ us, us.map bare = [t.bare] ∧ Reads readVariables Kind.any us t.printDeclaration := by
  obtain ⟨us, same, group⟩ := reads_group h
  obtain ⟨proper⟩ := h
  exact ⟨us, same, readsVariables_mk rfl group rfl⟩

theorem reads_parameters {params : List Tree} (each : ∀ p ∈ params, FitsVariable p) :
    ∃ us, us.map bare = params.map bare ∧ ReadsParameters us (separated .semi (params.map printGroup)) := by
  induction params with
  | nil => exact ⟨[], rfl, readsParameters_none⟩
  | cons p params ih =>
    obtain ⟨us, same, group⟩ := reads_group (each p mem_cons_self)
    obtain ⟨vs, sames, later⟩ := ih fun p member => each p (mem_cons_of_mem _ member)
    by_cases more : params = []
    · subst more
      refine ⟨us, same, ?_⟩
      rw [map_cons, map_nil, separated_singleton]
      exact readsParameters_last group
    · refine ⟨us ++ vs, by rw [map_append, same, sames]; rfl, ?_⟩
      rw [map_cons, separated_cons .semi _ (by simpa using more)]
      exact readsParameters_next group rfl later

theorem reads_locals {locals : List Tree} (each : ∀ l ∈ locals, FitsVariable l) :
    ∃ us, us.map bare = locals.map bare ∧ ReadsLocals us (locals.flatMap printDeclaration) := by
  induction locals with
  | nil => exact ⟨[], rfl, readsLocals_nil⟩
  | cons l locals ih =>
    obtain ⟨us, same, vars⟩ := reads_variables (each l mem_cons_self)
    obtain ⟨vs, sames, later⟩ := ih fun l member => each l (mem_cons_of_mem _ member)
    exact ⟨us ++ vs, by rw [map_append, same, sames]; rfl, readsLocals_cons vars later⟩

theorem reads_result (h : result = .void ∨ result.Proper) :
    Reads (readResult (decide (result ≠ .void))) Kind.any result (printResult result) := by
  by_cases void : result = .void
  · subst void
    exact readsResult_procedure
  · rw [printResult, if_pos void, decide_eq_true void]
    exact readsResult_function rfl (reads_type (h.resolve_left void))

/-- A routine is read back behind its first word. -/
theorem reads_routine (neg : Bool) (h : FitsRoutine t) :
    ∃ isFunction w u, t.printRoutine = sign (routineWord isFunction) :: w ∧ Same t u ∧
      Reads (readRoutine neg isFunction (sign (routineWord isFunction))) Kind.any u w := by
  cases h with
  | @forward params result tok f fits returns =>
    obtain ⟨ps, sameParams, group⟩ := reads_parameters fits
    refine ⟨_, _, _, rfl, ?_, readsRoutine_forward
      ⟨rfl, readsParameterList_given rfl group rfl, reads_result returns⟩ rfl rfl rfl⟩
    rw [Same, bare_routine, bare_routine, sameParams]
    rfl
  | @defined params result locals body tok f fits returns fits' code =>
    have code := returns_of_fits neg code
    have some := isAbsent_of_returns code
    obtain ⟨b, sameBody, compound⟩ := code
    obtain ⟨ps, sameParams, group⟩ := reads_parameters fits
    obtain ⟨ls, sameLocals, vars⟩ := reads_locals fits'
    rw [printRoutine, some, if_neg Bool.false_ne_true, append_assoc]
    refine ⟨_, _, _, rfl, ?_, readsRoutine_defined
      ⟨rfl, readsParameterList_given rfl group rfl, reads_result returns⟩ rfl vars compound rfl⟩
    rw [Same, bare_routine, bare_routine, sameParams, sameLocals, sameBody]
    rfl

/-! ## Reading programs -/

section Programs

variable (neg : Bool)

/-- Declarations are read back, up to tokens, if no name follows. -/
def ReturnsDeclarations (decls routines : List Tree) (w : List Token) : Prop :=
  ∃ ds : Declarations, ds.decls.map bare = decls.map bare ∧ ds.routines.map bare = routines.map bare ∧
    Reads (readDeclarations neg) (Kind.endsDeclarations true) ds w

theorem returnsDeclarations_routines {routines : List Tree} (each : ∀ r ∈ routines, FitsRoutine r) :
    ReturnsDeclarations neg [] routines (routines.flatMap printRoutine) := by
  induction routines with
  | nil => exact ⟨{}, rfl, rfl, readsDeclarations_none⟩
  | cons r routines ih =>
    obtain ⟨isFunction, w, u, written, same, reads⟩ := reads_routine neg (each r mem_cons_self)
    obtain ⟨ds, none, sames, later⟩ := ih fun r member => each r (mem_cons_of_mem _ member)
    refine ⟨{ ds with routines := u :: ds.routines }, none, ?_, ?_⟩
    · rw [map_cons, map_cons, same, sames]
    · rw [flatMap_cons, written]
      exact readsDeclarations_routine later rfl reads

theorem returnsDeclarations_all {decls routines : List Tree} (each : ∀ d ∈ decls, FitsDeclaration d)
    (each' : ∀ r ∈ routines, FitsRoutine r) : ReturnsDeclarations neg decls routines
      (decls.flatMap printDeclaration ++ routines.flatMap printRoutine) := by
  induction decls with
  | nil => exact returnsDeclarations_routines neg each'
  | cons d decls ih =>
    obtain ⟨ds, sames, sameRoutines, later⟩ := ih fun d member => each d (mem_cons_of_mem _ member)
    rw [flatMap_cons, append_assoc]
    cases each d mem_cons_self with
    | var fits =>
      obtain ⟨us, same, vars⟩ := reads_variables fits
      refine ⟨{ ds with decls := us ++ ds.decls }, ?_, sameRoutines, readsDeclarations_vars later vars⟩
      rw [map_append, same, sames]
      rfl
    | @const value tok x =>
      have constant := readsConstants_mk (k := sign .kwConst) rfl
        (readsDefinitions_last (x := word x) (e := sign .eq) (s := sign .semi) rfl rfl (signed_spells value) rfl)
      refine ⟨{ ds with decls := .constDecl (word x) x value :: ds.decls }, ?_, sameRoutines,
        readsDeclarations_consts later constant⟩
      rw [map_cons, sames]
      rfl

/-- A program is read back from what is written for it. -/
theorem read_print (h : WellFormed t) (neg : Bool) (closing : Token) :
    ∃ r, Tree.read neg ⟨t.print, closing⟩ = .ok r ∧ Same t r.1 := by
  obtain @⟨decls, routines, tok, x, main, each, each', body⟩ := h
  obtain ⟨m, sameMain, reads⟩ := returns_of_fits neg body
  obtain ⟨ds, sameDecls, sameRoutines, declarations⟩ := returnsDeclarations_all neg each each'
  have compound := reads (Stream.push ⟨[], closing⟩ (sign .dot)) rfl
  have begins := compound_starts compound
  have body := takes_body (readsStatement_compound reads (Stream.push ⟨[], closing⟩ (sign .dot)) rfl)
  have run := read_of_parts (p := sign .kwProgram) (x := word x) (s := sign .semi) rfl rfl rfl
    declarations (congrArg (Kind.endsDeclarations true) begins) body rfl rfl
  rw [bodyOf_compound reads] at run
  refine ⟨_, by simpa [print, Stream.prepend] using run, ?_⟩
  rw [Same, bare, bare, bareEach_eq_map, bareEach_eq_map, bareEach_eq_map, bareEach_eq_map, sameDecls,
    sameRoutines, sameMain]
  rfl

end Programs

/-- What is written for a well-formed tree consists of tokens that a text can have, as far as numbers go, and
is read as that tree, up to places; and only well-formed trees are read off texts. -/
theorem wellFormed_read_print : (∀ t : Tree, WellFormed t → Small t.print ∧ ∀ (neg : Bool) (closing : Token),
      ∃ u, ofTokens neg ⟨t.print, closing⟩ = .ok u ∧ u.bare = t.bare) ∧
    ∀ (on : Switches Feature) (neg : Bool) (file : Int) (source : String) (t : Tree),
      ofTokens neg (tokenize on file source) = .ok t → WellFormed t := by
  refine ⟨fun t wellFormed => ⟨small_print wellFormed, fun neg closing => ?_⟩, ?_⟩
  · obtain ⟨r, run, same⟩ := read_print wellFormed neg closing
    exact ⟨r.1, by rw [ofTokens, run]; rfl, same⟩
  · intro on neg file source t parsed
    exact wellFormed_of_isProgram (isProgram_of_ofTokens (lexical_tokenize on file source) parsed)

/-- A program with signs, bodies without `begin`, and an `else` behind two `if`s. -/
def sketch : String :=
  "program p; const n = -3; var a, b : array [-1 .. 2] of integer;
  begin for i := n downto -n do if a[i] < 0 then if b[i] = n then g else a[1] := n - 1 - 2 * f(i) end."

theorem wellFormed_read_print_sketch :
    ∃ t u : Tree, ofTokens true (tokenize Feature.strict 0 sketch) = .ok t ∧ WellFormed t ∧
      ofTokens false ⟨t.print, .nowhere⟩ = .ok u ∧ u.bare = t.bare := by
  have read : (ofTokens true (tokenize Feature.strict 0 sketch)).isOk = true := by
    decide +kernel
  cases run : ofTokens true (tokenize Feature.strict 0 sketch) with
  | error f =>
    rw [run] at read
    cases read
  | ok t =>
    have wellFormed := wellFormed_read_print.2 Feature.strict true 0 sketch t run
    obtain ⟨u, back, same⟩ := (wellFormed_read_print.1 t wellFormed).2 false .nowhere
    exact ⟨t, u, rfl, wellFormed, back, same⟩

end MiniPascal.Tree
