import MiniPascal.Proofs.Tree.Reading

/-!
# The numbers of a program

A literal has a magnitude of at most 2147483648, so that the least integer of 32 bits can be written
with a minus sign. The sign is no part of the literal, and no reader looks at the magnitude again.
So every number of a program has 32 bits, except where the literal 2147483648 stands without a sign
of its own: as an operand, as a constant or as the bound of an array. There the number is 2147483648
itself (`integers_of_text`). Each number is that of the literal at its place, or the negation of the
one behind the minus sign at its place.
-/

open List

namespace MiniPascal

/-- The bounds that a type holds. -/
def VarType.bounds : VarType → List Int64
  | array lower upper elem => lower :: upper :: elem.bounds
  | _ => []

/-- The integers of 32 bits. -/
def IsInt32 (v : Int64) : Prop := -2147483648 ≤ v.toInt ∧ v.toInt ≤ 2147483647

instance (v : Int64) : Decidable (IsInt32 v) := inferInstanceAs (Decidable (_ ∧ _))

namespace Tree

mutual

/-- The nodes of a tree, the tree itself first. A part that is not there has none. -/
def subtrees : Tree → List Tree
  | absent => []
  | t@(element _ _ index) => t :: index.subtrees
  | t@(assign _ target value) => t :: (target.subtrees ++ value.subtrees)
  | t@(binary _ _ left right) => t :: (left.subtrees ++ right.subtrees)
  | t@(call _ _ args) => t :: subtreesEach args
  | t@(branch _ cond yes no) => t :: (cond.subtrees ++ yes.subtrees ++ no.subtrees)
  | t@(count _ _ start stop _ body) => t :: (start.subtrees ++ stop.subtrees ++ body.subtrees)
  | t@(loop _ cond body) => t :: (cond.subtrees ++ body.subtrees)
  | t@(block _ stmts) => t :: subtreesEach stmts
  | t@(routine _ _ params _ locals body) => t :: (subtreesEach params ++ subtreesEach locals ++ body.subtrees)
  | t@(program _ _ decls routines main) => t :: (subtreesEach decls ++ subtreesEach routines ++ main.subtrees)
  | t => [t]

/-- The nodes of each tree of a list. -/
def subtreesEach : List Tree → List Tree
  | [] => []
  | t :: ts => t.subtrees ++ subtreesEach ts

end

/-- The numbers that stand at a node: the value of a number or a constant, and the bounds of a type. -/
def held : Tree → List Int64
  | number _ value => [value]
  | constDecl _ _ value => [value]
  | varDecl _ _ type _ => type.bounds
  | routine _ _ _ result _ _ => result.bounds
  | _ => []

/-- The numbers of a tree. -/
def integers (t : Tree) : List Int64 := t.subtrees.flatMap held

/-! ## Nodes -/

/-- A tree that is made of tokens. -/
def IsMade (c : Comparison) (t : Tree) : Prop := ∃ species t', Made c species t t'

variable {c : Comparison} {species : Species} {t t' : Tree}

theorem isMade_subtreesEach {ts ts' : List Tree} (same : ts.length = ts'.length)
    (each : ∀ {a b}, (a, b) ∈ ts.zip ts' → ∀ s ∈ a.subtrees, IsMade c s) : ∀ s ∈ subtreesEach ts, IsMade c s := by
  have all := forall_of_zip same each
  clear same each
  induction ts with
  | nil => exact forall_mem_nil _
  | cons t ts ih =>
    obtain ⟨first, later⟩ := forall_mem_cons.mp all
    exact forall_mem_append.mpr ⟨first, ih later⟩

/-- The nodes of a tree are made of the tokens of the tree. -/
theorem isMade_subtrees (h : Made c species t t') : ∀ s ∈ t.subtrees, IsMade c s := by
  have self : IsMade c t := ⟨species, t', h⟩
  induction h with
  | operand _ ih | value _ ih | mention _ ih | perform _ ih | block _ ih | global _ ih => exact ih self
  | number | negative | zero | text | name | leave | exit | varDecl | constDecl =>
    simpa only [subtrees, forall_mem_singleton] using self
  | element _ _ made index =>
    exact forall_mem_cons.mpr ⟨self, index ⟨_, _, made⟩⟩
  | binary _ _ madeLeft madeRight left right =>
    simp only [subtrees, forall_mem_cons, forall_mem_append]
    exact ⟨self, left ⟨_, _, madeLeft⟩, right ⟨_, _, madeRight⟩⟩
  | call _ _ same made args =>
    exact forall_mem_cons.mpr ⟨self, isMade_subtreesEach same fun arg => args arg ⟨_, _, made arg⟩⟩
  | assign _ madeTarget madeValue target value =>
    simp only [subtrees, forall_mem_cons, forall_mem_append]
    exact ⟨self, target ⟨_, _, madeTarget⟩, value ⟨_, _, madeValue⟩⟩
  | branch _ madeCond madeYes cond yes =>
    simp only [subtrees, forall_mem_cons, forall_mem_append, append_nil]
    exact ⟨self, cond ⟨_, _, madeCond⟩, yes ⟨_, _, madeYes⟩⟩
  | branchElse _ madeCond madeYes madeNo cond yes no =>
    simp only [subtrees, forall_mem_cons, forall_mem_append]
    exact ⟨self, ⟨cond ⟨_, _, madeCond⟩, yes ⟨_, _, madeYes⟩⟩, no ⟨_, _, madeNo⟩⟩
  | count _ _ _ madeStart madeStop madeBody start stop body =>
    simp only [subtrees, forall_mem_cons, forall_mem_append]
    exact ⟨self, ⟨start ⟨_, _, madeStart⟩, stop ⟨_, _, madeStop⟩⟩, body ⟨_, _, madeBody⟩⟩
  | loop _ madeCond madeBody cond body =>
    simp only [subtrees, forall_mem_cons, forall_mem_append]
    exact ⟨self, cond ⟨_, _, madeCond⟩, body ⟨_, _, madeBody⟩⟩
  | body _ same made stmts =>
    exact forall_mem_cons.mpr ⟨self, isMade_subtreesEach same fun s => stmts s ⟨_, _, made s⟩⟩
  | forward _ _ _ same made _ params =>
    simp only [subtrees, subtreesEach, forall_mem_cons, append_nil]
    exact ⟨self, isMade_subtreesEach same fun p => params p ⟨_, _, made p⟩⟩
  | defined _ _ _ same made _ same' made' madeBody params locals body =>
    simp only [subtrees, forall_mem_cons, forall_mem_append]
    exact ⟨self, ⟨isMade_subtreesEach same fun p => params p ⟨_, _, made p⟩,
      isMade_subtreesEach same' fun l => locals l ⟨_, _, made' l⟩⟩, body ⟨_, _, madeBody⟩⟩
  | program _ _ _ same made same' made' madeMain decls routines main =>
    simp only [subtrees, forall_mem_cons, forall_mem_append]
    exact ⟨self, ⟨isMade_subtreesEach same fun d => decls d ⟨_, _, made d⟩,
      isMade_subtreesEach same' fun r => routines r ⟨_, _, made' r⟩⟩, main ⟨_, _, madeMain⟩⟩

/-! ## Numbers -/

/-- What is known of a number of a program: it has 32 bits, or it is a literal as it stands. -/
def Counted (w : List Token) (v : Int64) : Prop :=
  IsInt32 v ∨ v.toInt = 2147483648 ∧ ∃ t ∈ w, t.kind = .number ∧ t.number = v

section Ranges

variable {w : List Token} (lexical : ∀ t ∈ w, t.Lexical)

include lexical

theorem counted_literal {t : Token} (inside : t ∈ w) (kind : t.kind = .number) : Counted w t.number := by
  obtain ⟨low, high⟩ := (lexical t inside).number kind
  by_cases greatest : t.number.toInt = 2147483648
  · exact .inr ⟨greatest, t, inside, kind, rfl⟩
  · exact .inl ⟨by omega, by omega⟩

/-- Behind a minus sign, every literal makes an integer of 32 bits. -/
theorem isInt32_negative {t : Token} (pair : [m, t] <:+: w) (kind : t.kind = .number) :
    IsInt32 (-t.number) ∧ (-t.number).toInt ≤ 0 := by
  have inside : t ∈ w := pair.subset (mem_cons_of_mem _ mem_cons_self)
  obtain ⟨low, high⟩ := (lexical t inside).number kind
  have exact_ : (-t.number).toInt = -t.number.toInt := by
    rw [Int64.toInt_neg]
    exact Int.bmod_eq_of_le (by omega) (by omega)
  exact ⟨⟨by omega, by omega⟩, by omega⟩

theorem counted_written (h : Written w v) : Counted w v := by
  obtain ⟨u, spelled, inside⟩ := h
  cases spelled with
  | plain kind => exact counted_literal lexical (inside.subset mem_cons_self) kind
  | negative minus kind => exact .inl (isInt32_negative lexical inside kind).1

theorem counted_bounds {type : VarType} (h : type = .void ∨ type.Made w) :
    ∀ v ∈ type.bounds, Counted w v := by
  rcases h with rfl | made
  · exact forall_mem_nil _
  · induction type with
    | integer | void => exact forall_mem_nil _
    | array lower upper elem ih =>
      obtain ⟨first, last, -, made⟩ := made.array
      simp only [VarType.bounds, forall_mem_cons]
      exact ⟨counted_written lexical first, counted_written lexical last, ih made⟩

end Ranges

section Nodes

variable (lexical : ∀ t ∈ c.tokens, t.Lexical)

include lexical

theorem counted_held (h : IsMade c t) : ∀ v ∈ t.held, Counted c.tokens v := by
  obtain ⟨species, t', h⟩ := h
  induction h with
  | number listed kind => exact forall_mem_singleton.mpr (counted_literal lexical listed.mem kind)
  | negative _ minus kind pair =>
    exact forall_mem_singleton.mpr (.inl (isInt32_negative lexical pair kind).1)
  | zero => exact forall_mem_singleton.mpr (.inl (by decide))
  | constDecl _ _ defines => exact forall_mem_singleton.mpr (counted_written lexical defines.written)
  | varDecl _ _ type => exact counted_bounds lexical (.inr type.made)
  | forward _ _ _ _ _ heads | defined _ _ _ _ _ heads => exact counted_bounds lexical heads.result
  | _ => first | assumption | exact forall_mem_nil _

/-- A number starts at its sign or at its literal. -/
theorem number_cases {tok : Token} (h : IsMade c (.number tok v)) :
    tok.kind = .minus ∧ IsInt32 v ∧ v.toInt ≤ 0 ∧
        (v = 0 ∨ ∃ u, u.kind = .number ∧ [tok, u] <:+: c.tokens ∧ v = -u.number) ∨
      tok.kind = .number ∧ v = tok.number := by
  obtain ⟨species, t', h⟩ := h
  generalize node : Tree.number tok v = t at h
  induction h with
  | operand _ ih | value _ ih | mention _ ih | perform _ ih | block _ ih | global _ ih => exact ih node
  | number _ kind =>
    cases node
    exact .inr ⟨kind, rfl⟩
  | @negative _ _ u _ minus kind pair =>
    cases node
    obtain ⟨small, negative⟩ := isInt32_negative lexical pair kind
    exact .inl ⟨minus, small, negative, .inr ⟨u, kind, pair, rfl⟩⟩
  | zero _ minus =>
    cases node
    exact .inl ⟨minus, by decide, by decide, .inl rfl⟩
  | _ => cases node

end Nodes

/-- The numbers that stand in a declaration are those that its tokens spell. -/
def Spelled (w : List Token) : Tree → Prop
  | constDecl tok _ value => Defines w tok value
  | varDecl _ _ type place => type.MadeAt w place
  | routine tok _ _ result _ _ => Heads w tok result
  | _ => True

theorem spelled_of_isMade (h : IsMade c t) : t.Spelled c.tokens := by
  obtain ⟨species, t', h⟩ := h
  induction h with
  | _ => first | assumption | trivial

/-- Every number of a program that was read, under any settings, is an integer of 32 bits or the
literal 2147483648 as it stands. An operand that starts at a minus sign is the negation of the
literal behind it or the 0 from which something else is taken, and another one is a literal without
a sign. The numbers of constants and types are those of the literals in their declarations, negated
behind a minus sign. -/
theorem integers_of_text {on : Switches Feature} {neg : Bool} {file : Int} {source : String}
    {t : Tree} (read : ofTokens neg (tokenize on file source) = .ok t) :
    (∀ v ∈ t.integers, IsInt32 v ∨ v.toInt = 2147483648 ∧
      ∃ u ∈ (tokenize on file source).tokens, u.kind = .number ∧ u.number = v) ∧
    (∀ tok v, .number tok v ∈ t.subtrees →
      tok.kind = .minus ∧ IsInt32 v ∧ v.toInt ≤ 0 ∧ (v = 0 ∨ ∃ u, u.kind = .number ∧
          [tok, u] <:+: (tokenize on file source).tokens ∧ v = -u.number) ∨
        tok.kind = .number ∧ v = tok.number) ∧
    ∀ node ∈ t.subtrees, node.Spelled (tokenize on file source).tokens := by
  have made := isMade_subtrees (made_of_ofTokens read False)
  have lexical : ∀ u ∈ (Comparison.same (tokenize on file source).tokens False).tokens, u.Lexical :=
    lexical_tokenize on file source
  refine ⟨fun v member => ?_, fun tok v node => number_cases lexical (made _ node),
    fun node inside => spelled_of_isMade (made node inside)⟩
  obtain ⟨s, node, stands⟩ := mem_flatMap.mp member
  exact counted_held lexical (made s node) v stands

/-- The least integer with its sign, and the literal behind a minus that is no sign. -/
def extremes : String :=
  "program p; const n = -2147483648; var a : array [-2147483648 .. 2147483647] of integer;
  begin a[-2147483648] := n - 2147483648 end."

theorem integers_of_text_extremes : ∃ t,
    ofTokens false (tokenize Feature.strict 0 extremes) = .ok t ∧
    t.integers = [-2147483648, -2147483648, 2147483647, -2147483648, 2147483648] ∧
    (∀ v ∈ t.integers, IsInt32 v ∨ v.toInt = 2147483648 ∧
      ∃ u ∈ (tokenize Feature.strict 0 extremes).tokens, u.kind = .number ∧ u.number = v) ∧
    ∀ node ∈ t.subtrees, node.Spelled (tokenize Feature.strict 0 extremes).tokens := by
  obtain ⟨t, read, numbers⟩ : ∃ t, ofTokens false (tokenize Feature.strict 0 extremes) = .ok t ∧
      t.integers = [-2147483648, -2147483648, 2147483647, -2147483648, 2147483648] :=
    exists_ok_of_map (by decide +kernel)
  obtain ⟨counted, -, spelled⟩ := integers_of_text read
  exact ⟨t, read, numbers, counted, spelled⟩

/-- The literal without a sign, as a constant, as a bound and as an operand. -/
def unsigned : String :=
  "program p; const n = 2147483648; var a : array [0 .. 2147483648] of integer;
  begin a[0] := 2147483648 end."

/-- Not every number of a program is an integer of 32 bits. -/
theorem integers_beyond_32_bits : ∃ t, ofTokens false (tokenize Feature.strict 0 unsigned) = .ok t ∧
    t.integers = [2147483648, 0, 2147483648, 0, 2147483648] ∧ ¬ ∀ v ∈ t.integers, IsInt32 v := by
  obtain ⟨t, read, numbers⟩ : ∃ t, ofTokens false (tokenize Feature.strict 0 unsigned) = .ok t ∧
      t.integers = [2147483648, 0, 2147483648, 0, 2147483648] := exists_ok_of_map (by decide +kernel)
  refine ⟨t, read, numbers, fun all => ?_⟩
  rw [numbers] at all
  exact absurd (all 2147483648 mem_cons_self) (by decide)

end Tree

end MiniPascal
