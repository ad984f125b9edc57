import MiniPascal.Proofs.Tree.Language
import MiniPascal.Tree.Format

/-!
# A main body without `begin` and `end`

A program may have a single statement in place of its main body. It is then read as the block of this
statement: up to the token of the block, the tree is that of the program with `begin` and `end`
around the statement. There is one exception. Definitions of constants go on for as long as a name
follows, so behind a section of constants a statement that starts with a name is taken for another
definition, and no program is read (`read_unwrapped`).
-/

open MiniPascal.Stream

namespace MiniPascal.Tree

open Grammar

/-- The first of some tokens is a name. -/
def StartsWithName (w : List Token) : Prop := ∃ t, w.head? = some t ∧ t.kind = .identifier

section Failure

variable {neg c : Bool} {s rest : Stream} {x : Token}

/-! ## A name behind constants -/

/-- No definition is read if a name follows that none starts with. -/
theorem readDefinitions_stuck (name : x.kind = .identifier) (other : s.head.kind ≠ .eq) :
    ∃ f, readDefinitions (s.push x) = .error f := by
  refine ⟨.at_ s Kind.eq.spelling, ?_⟩
  rw [readDefinitions]
  refine (Takes.token name).run fun _ => ?_
  dsimp only
  rw [Stream.expect, dif_neg other]
  rfl

variable {w : List Token}

theorem readDefinitions_cons (name : y.kind = .identifier)
    (equals : e.kind = .eq) (h : Signed value w) (semi : t.kind = .semi)
    (follows : rest.head.kind = .identifier) (failed : readDefinitions rest = .error f) :
    readDefinitions ((((rest.push t).prepend w).push e).push y) = .error f := by
  rw [readDefinitions]
  refine (Takes.token name).run fun _ => ?_
  refine (Takes.token equals).run fun _ => ?_
  refine (reads_signed h _ rfl).run fun _ => ?_
  refine (Takes.token semi).run fun _ => ?_
  dsimp only
  rw [if_pos follows, failed]
  rfl

theorem definitions_fail (h : Definitions w) (name : x.kind = .identifier) (other : s.head.kind ≠ .eq) :
    ∃ f, readDefinitions ((s.push x).prepend w) = .error f := by
  induction h with
  | last name' equals value semi =>
    obtain ⟨f, failed⟩ := readDefinitions_stuck name other
    rw [prepend_cons, prepend_cons, prepend_append]
    exact ⟨f, readDefinitions_cons name' equals value semi name failed⟩
  | next name' equals value semi later ih =>
    obtain ⟨f, failed⟩ := ih
    rw [prepend_cons, prepend_cons, prepend_append]
    exact ⟨f, readDefinitions_cons name' equals value semi (definitions_starts later) failed⟩

theorem constants_fail (h : Constants w) (name : x.kind = .identifier) (other : s.head.kind ≠ .eq) :
    ∃ f, readConstants ((s.push x).prepend w) = .error f := by
  obtain ⟨const, definitions⟩ := h
  obtain ⟨f, failed⟩ := definitions_fail definitions name other
  refine ⟨f, ?_⟩
  rw [prepend_cons]
  refine (Takes.token const).run fun _ => ?_
  dsimp only
  rw [failed]
  rfl

/-- Declarations that end with constants are not read before such a name. -/
theorem declarations_fail (h : Grammar.Declarations neg c w) (last : c = true) (name : x.kind = .identifier)
    (other : s.head.kind ≠ .eq) : ∃ f, readDeclarations neg ((s.push x).prepend w) = .error f := by
  induction h with
  | none => cases last
  | @vars v c w first _ ih =>
    obtain ⟨f, failed⟩ := ih last
    obtain ⟨ds, reads⟩ := readsVariables_of_variables first
    have front := reads ((s.push x).prepend w) rfl
    have kind := variables_starts front
    refine ⟨f, ?_⟩
    rw [prepend_append, readDeclarations]
    split <;> first | (next h => cases kind.symm.trans h) | contradiction | skip
    exact front.run fun _ => by dsimp only; rw [failed]; rfl
  | @consts v c w first later ih =>
    have kind : (((s.push x).prepend w).prepend v).head.kind = .kwConst := by
      obtain ⟨const, -⟩ := first
      exact const
    rw [prepend_append, readDeclarations]
    split <;> first | (next h => cases kind.symm.trans h) | contradiction | skip
    cases w with
    | nil =>
      obtain ⟨f, failed⟩ := constants_fail first name other
      exact ⟨f, by rw [prepend_nil, failed]; rfl⟩
    | cons t w =>
      have last : c = true := by simpa using last
      obtain ⟨f, failed⟩ := ih last
      obtain ⟨ds, reads⟩ := readsConstants_of_constants first
      obtain ⟨es, reads'⟩ := reads_declarations later
      have noName : t.kind ≠ .identifier :=
        declarations_starts (reads' ⟨[], .nowhere⟩ (by cases c <;> rfl)) (List.cons_ne_nil t w)
      refine ⟨f, (reads ((s.push x).prepend (t :: w)) (bne_iff_ne.mpr noName)).run fun _ => ?_⟩
      dsimp only
      rw [failed]
      rfl
  | @routine v c w first _ ih =>
    obtain ⟨f, failed⟩ := ih last
    obtain ⟨isFunction, k, v, routine, rfl, kind, reads⟩ := readsRoutine_of_routine first
    refine ⟨f, ?_⟩
    rw [prepend_append, prepend_cons, readDeclarations]
    cases isFunction with
    | true | false =>
      split <;> first | (next h => cases kind.symm.trans h) | contradiction | skip
      exact (reads _ rfl).run fun _ => by dsimp only; rw [failed]; rfl

theorem read_fails (program : p.kind = .kwProgram)
    (name : y.kind = .identifier) (semi : t.kind = .semi)
    (failed : readDeclarations neg (rest.prepend w) = .error f) :
    Tree.read neg (rest.prepend (p :: y :: t :: w)) = .error f := by
  rw [prepend_cons, prepend_cons, prepend_cons]
  refine (Takes.token program).run fun _ => ?_
  refine (Takes.token name).run fun _ => ?_
  refine (Takes.token semi).run fun _ => ?_
  dsimp only
  rw [failed]
  rfl

/-- No equals sign stands behind the name that a statement starts with. -/
theorem statement_second (h : Takes (readStatement neg (rest.prepend (x :: w))) v rest)
    (name : x.kind = .identifier) (ends : rest.head.kind ≠ .eq) : (rest.prepend w).head.kind ≠ .eq := by
  intro equals
  have alone : Takes (readStatement neg ((rest.prepend w).prepend [x])) (.name x x.value) (rest.prepend w) :=
    takes_mention not_isCall_name (readsReference_name name) (by rw [equals]; rfl)
      (by rw [equals]; decide)
  rw [← (alone.unique h).2] at ends
  exact ends equals

end Failure

/-! ## The two forms of a program -/

section Forms

variable {neg constants : Bool} {p x s b e d : Token} {D S : List Token}

/-- A program with a single statement as its body is read, with the format of the program that has
`begin` and `end` around this statement, unless the statement starts with a name behind constants. -/
theorem read_unwrapped (program : p.kind = .kwProgram) (name : x.kind = .identifier)
    (semi : s.kind = .semi) (declarations : Grammar.Declarations neg constants D)
    (begins : b.kind = .kwBegin) (statement : Derives neg .statement S)
    (single : ∀ t, S.head? = some t → t.kind ≠ .kwBegin) (ends : e.kind = .kwEnd)
    (dot : d.kind = .dot) {rest : Stream} (eof : rest.head.kind = .eof) :
    ∃ decls routines t, Tree.read neg (rest.prepend (p :: x :: s :: (D ++ (b :: (S ++ [e]) ++ [d])))) =
        .ok (.program p x.value decls routines (.block b [t]), rest.tail) ∧
      ((∃ r, Tree.read neg (rest.prepend (p :: x :: s :: (D ++ (S ++ [d])))) = .ok r) ↔
        ¬ (constants = true ∧ StartsWithName S)) ∧
      ∀ r, Tree.read neg (rest.prepend (p :: x :: s :: (D ++ (S ++ [d])))) = .ok r →
        r.1.format = (Tree.program p x.value decls routines (.block b [t])).format := by
  obtain ⟨ds, readsD⟩ := reads_declarations declarations
  obtain ⟨takesElse, t, balanced⟩ := reads_of_derives statement
  have inner : ReadsCompound neg (.block b [t]) (b :: (S ++ [e])) := by
    refine readsCompound_of_statements begins (fun s kind => ?_) ends
    exact readsSequence_last balanced s s [] (.ends kind)
  have body : Takes (readStatement neg ((rest.push d).prepend S)) t (rest.push d) :=
    balanced.takes (congrArg Kind.endsStatement dot) fun _ kind => by cases dot.symm.trans kind
  obtain ⟨u, S, rfl⟩ := body.exists_cons
  have wrapped := read_of_parts program name semi readsD (by rw [Stream.head_prepend, begins]; rfl)
    (takes_body (readsStatement_compound inner (rest.push d) (congrArg Kind.endsStatement dot))) dot eof
  rw [bodyOf_compound inner] at wrapped
  refine ⟨ds.decls, ds.routines, t, wrapped, ?_⟩
  by_cases taken : constants = true ∧ StartsWithName (u :: S)
  · obtain ⟨last, _, ⟨⟩, starts⟩ := id taken
    have other := statement_second body starts (by rw [show (rest.push d).head.kind = .dot from dot]; decide)
    obtain ⟨f, failed⟩ := declarations_fail declarations last starts other
    have none : Tree.read neg (rest.prepend (p :: x :: s :: (D ++ (u :: S ++ [d])))) = .error f := by
      refine read_fails program name semi ?_
      rw [prepend_append, prepend_append]
      exact failed
    rw [none]
    exact ⟨⟨by rintro ⟨r, ⟨⟩⟩, fun free => absurd taken free⟩, by rintro r ⟨⟩⟩
  · have unwrapped := read_of_parts program name semi readsD
      (statement_endsDeclarations body fun last starts => taken ⟨last, u, rfl, starts⟩)
      (takes_body body) dot eof
    rw [bodyOf, if_neg (single u rfl)] at unwrapped
    rw [unwrapped]
    refine ⟨⟨fun _ => taken, fun _ => ⟨_, rfl⟩⟩, ?_⟩
    rintro r ⟨⟩
    rw [format, format, format, format]

end Forms

/-- Constants, and a body that is a single `break`. -/
theorem read_unwrapped_break : ∃ r, Tree.read false ⟨[.kwProgram, .identifier, .semi, .kwConst, .identifier,
    .eq, .number, .semi, .kwBreak, .dot].map Pull.mark, .nowhere⟩ = .ok r := by
  have declared : Grammar.Declarations false true ([.kwConst, .identifier, .eq, .number, .semi].map Pull.mark) :=
    .consts (.mk rfl (.last (w := [Pull.mark .number]) rfl rfl (.plain rfl) rfl)) .none
  have single (t : Token) (first : [Pull.mark .kwBreak].head? = some t) : t.kind ≠ .kwBegin := by
    cases first
    decide
  obtain ⟨_, _, _, _, reads, _⟩ := read_unwrapped (p := Pull.mark .kwProgram) (x := Pull.mark .identifier)
    (s := Pull.mark .semi) (b := Pull.mark .kwBegin) (e := Pull.mark .kwEnd) (d := Pull.mark .dot) rfl rfl rfl declared rfl
    (.leave (t := Pull.mark .kwBreak) rfl) single rfl rfl (show (Stream.mk [] .nowhere).head.kind = .eof from rfl)
  refine reads.mpr ?_
  rintro ⟨-, _, ⟨⟩, ⟨⟩⟩

/-- Behind constants, a body that starts with a name is read only between `begin` and `end`. -/
theorem unwrapped_behind_constants :
    (ofSource Feature.strict "program p; const c = 1; begin writeln(c) end.").toOption.map format =
      some "(program p (decls (const c 1)) (funcs) (begin (call writeln c)))" ∧
    (ofSource Feature.strict "program p; const c = 1; writeln(c).").isOk = false := by
  decide +kernel

end MiniPascal.Tree
