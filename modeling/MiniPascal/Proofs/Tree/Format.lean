import MiniPascal.Proofs.Lower.Declaration
import MiniPascal.Proofs.Tree.Print
import MiniPascal.Proofs.Tree.Sexp

/-!
# The written form of a tree

`Tree.format` writes a tree without its places. Nothing else is lost: a tree that was read off a text can be
told from its written form (`format_eq_iff_bare`). The written form is that of an S-expression, `Tree.sexp`.
Trees that were read have legible ones, since the names in a text are identifiers and its strings hold no
quote, and `Sexp.tree` reads the tree back, with no places in it.
-/

open List

namespace MiniPascal

open Sexp

/-! ## S-expressions of trees -/

/-- The S-expression of a type. -/
def VarType.sexp : VarType → Sexp
  | void => .name "void"
  | integer => .name "integer"
  | array lower upper elem => .list .array [.number lower, .number upper, elem.sexp]

namespace Tree

mutual

/-- The S-expression of a tree. -/
def sexp : Tree → Sexp
  | absent => .name "nil"
  | number _ value => .number value
  | text _ value => .quoted value
  | name _ x => .name x
  | element _ array index => .list .index [.name array, index.sexp]
  | assign _ target value => .list .assign [target.sexp, value.sexp]
  | binary _ op left right => .list (.op op) [left.sexp, right.sexp]
  | call _ f args => .list .call (.name f :: sexpEach args)
  | branch _ cond yes no =>
    .list .branch (cond.sexp :: yes.sexp :: if no.isAbsent then [] else [no.sexp])
  | count _ var start stop down body =>
    .list .count [.name var, start.sexp, .name (direction down), stop.sexp, body.sexp]
  | loop _ cond body => .list .loop [cond.sexp, body.sexp]
  | leave _ => .list .leave []
  | exit _ => .list .exit []
  | block _ stmts => .list .block (sexpEach stmts)
  | varDecl _ x type _ => .list .var [.name x, type.sexp]
  | constDecl _ x value => .list .const [.name x, .number value]
  | routine _ f params result locals body =>
    let code := if body.isAbsent then [.name "forward"] else [.list .locals (sexpEach locals), body.sexp]
    if result = .void then .list .procedure (.name f :: .list .params (sexpEach params) :: code)
    else .list .function (.name f :: .list .params (sexpEach params) :: .list .returns [result.sexp] :: code)
  | program _ x decls routines main =>
    .list .program [.name x, .list .decls (sexpEach decls), .list .funcs (sexpEach routines), main.sexp]
  | unknown .. => .list .unknown []

/-- The S-expression of each tree of a list. -/
def sexpEach : List Tree → List Sexp
  | [] => []
  | t :: ts => t.sexp :: sexpEach ts

end

end Tree

namespace Sexp

/-- The type that is written. -/
def type : Sexp → VarType
  | list .array [number lower, number upper, elem] => .array lower upper elem.type
  | name "integer" => .integer
  | _ => .void

mutual

/-- The tree that is written. -/
def tree : Sexp → Tree
  | number value => .number .nowhere value
  | quoted value => .text .nowhere value
  | name x => .name .nowhere x
  | list .index [name array, index] => .element .nowhere array index.tree
  | list .assign [target, value] => .assign .nowhere target.tree value.tree
  | list (.op k) [left, right] => .binary .nowhere k left.tree right.tree
  | list .call (name f :: args) => .call .nowhere f (treeEach args)
  | list .branch [cond, yes] => .branch .nowhere cond.tree yes.tree .absent
  | list .branch [cond, yes, no] => .branch .nowhere cond.tree yes.tree no.tree
  | list .count [name var, start, name dir, stop, body] =>
    .count .nowhere var start.tree stop.tree (dir == "downto") body.tree
  | list .loop [cond, body] => .loop .nowhere cond.tree body.tree
  | list .leave [] => .leave .nowhere
  | list .exit [] => .exit .nowhere
  | list .block stmts => .block .nowhere (treeEach stmts)
  | list .var [name x, type] => .varDecl .nowhere x type.type .nowhere
  | list .const [name x, number value] => .constDecl .nowhere x value
  | list .procedure [name f, list .params params, name _] =>
    .routine .nowhere f (treeEach params) .void [] .absent
  | list .procedure [name f, list .params params, list .locals locals, body] =>
    .routine .nowhere f (treeEach params) .void (treeEach locals) body.tree
  | list .function [name f, list .params params, list .returns [result], name _] =>
    .routine .nowhere f (treeEach params) result.type [] .absent
  | list .function [name f, list .params params, list .returns [result], list .locals locals, body] =>
    .routine .nowhere f (treeEach params) result.type (treeEach locals) body.tree
  | list .program [name x, list .decls decls, list .funcs routines, main] =>
    .program .nowhere x (treeEach decls) (treeEach routines) main.tree
  | _ => .absent

/-- The trees that are written. -/
def treeEach : List Sexp → List Tree
  | [] => []
  | x :: xs => x.tree :: treeEach xs

end

end Sexp

/-! ## The written form is the S-expression -/

theorem VarType.format_toList (type : VarType) : type.format.toList = type.sexp.chars := by
  induction type with
  | void | integer => rfl
  | array lower upper elem ih =>
    rw [format_array_toList, ih]
    simp [sexp]

namespace Tree

variable {c : Comparison} {species : Species} {t t' : Tree}

theorem sexpEach_eq_map (ts : List Tree) : sexpEach ts = ts.map sexp := by
  induction ts with
  | nil => rfl
  | cons t ts ih => rw [sexpEach, ih, map_cons]

mutual

theorem format_toList (t : Tree) : t.format.toList = t.sexp.chars := by
  cases t with
  | branch _ _ _ no =>
    by_cases absent : no.isAbsent = true <;> simp [format, sexp, absent, format_toList]
  | routine _ _ _ result _ body =>
    by_cases void : result = .void <;> by_cases absent : body.isAbsent = true <;>
      simp [format, sexp, void, absent, format_toList, formatItems_toList, VarType.format_toList]
  | _ => simp [format, sexp, format_toList, formatItems_toList, VarType.format_toList]

theorem formatItems_toList (ts : List Tree) : (formatItems ts).toList = itemChars (sexpEach ts) := by
  cases ts <;> simp [formatItems, sexpEach, itemChars, format_toList, formatItems_toList]

end

end Tree

/-! ## Reading a tree back -/

theorem Sexp.type_sexp (type : VarType) : type.sexp.type = type := by
  induction type with
  | void | integer => rfl
  | array lower upper elem ih => rw [VarType.sexp, Sexp.type, ih]

theorem Sexp.treeEach_eq_map (xs : List Sexp) : treeEach xs = xs.map tree := by
  induction xs with
  | nil => rfl
  | cons x xs ih => rw [treeEach, ih, map_cons]

namespace Tree

variable {c : Comparison} {species : Species} {t t' : Tree}

theorem treeEach_sexpEach {ts : List Tree} (each : ∀ t ∈ ts, t.sexp.tree = t.bare) :
    treeEach (sexpEach ts) = bareEach ts := by
  rw [sexpEach_eq_map, treeEach_eq_map, bareEach_eq_map, map_map]
  exact map_congr_left each

theorem tree_sexp (h : Made c species t t') : t.sexp.tree = t.bare := by
  induction h with
  | number | negative | zero | text | name | leave | exit | constDecl => rw [sexp, tree, bare]
  | element _ _ _ index => rw [sexp, tree, bare, index]
  | binary _ _ _ _ left right => rw [sexp, tree, bare, left, right]
  | call _ _ same _ args => rw [sexp, tree, bare, treeEach_sexpEach (forall_of_zip same args)]
  | assign _ _ _ target value => rw [sexp, tree, bare, target, value]
  | branch _ _ _ cond yes =>
    rw [sexp, isAbsent, if_pos rfl, tree, bare, bare, cond, yes]
  | branchElse _ _ _ madeNo cond yes no =>
    rw [sexp, madeNo.isAbsent.1, if_neg Bool.false_ne_true, tree, bare, cond, yes, no]
  | @count _ _ _ _ _ _ _ _ _ down _ _ _ _ _ _ start stop body =>
    rw [sexp, tree, bare, start, stop, body]
    cases down <;> rfl
  | loop _ _ _ cond body => rw [sexp, tree, bare, cond, body]
  | body _ same _ stmts => rw [sexp, tree, bare, treeEach_sexpEach (forall_of_zip same stmts)]
  | varDecl => rw [sexp, tree, bare, type_sexp]
  | forward _ _ _ same _ _ params =>
    have params := treeEach_sexpEach (forall_of_zip same params)
    rw [sexp, isAbsent, if_pos rfl, bare, bare]
    split
    · next void => rw [tree, params, void, bareEach]
    · rw [tree, params, type_sexp, bareEach]
  | defined _ _ _ same _ _ same' _ madeBody params locals body =>
    have params := treeEach_sexpEach (forall_of_zip same params)
    have locals := treeEach_sexpEach (forall_of_zip same' locals)
    rw [sexp, madeBody.isAbsent.1, if_neg Bool.false_ne_true, bare]
    split
    · next void => rw [tree, params, locals, body, void]
    · rw [tree, params, locals, body, type_sexp]
  | program _ _ _ same _ same' _ _ decls routines main =>
    rw [sexp, tree, bare, treeEach_sexpEach (forall_of_zip same decls),
      treeEach_sexpEach (forall_of_zip same' routines), main]
  | _ => assumption

/-! ## The written form leaves out places only -/

mutual

theorem sexp_bare (t : Tree) : t.bare.sexp = t.sexp := by
  cases t <;> simp only [bare, sexp, isAbsent_bare, sexp_bare, sexpEach_bareEach]

theorem sexpEach_bareEach (ts : List Tree) : sexpEach (bareEach ts) = sexpEach ts := by
  cases ts <;> simp only [bareEach, sexpEach, sexp_bare, sexpEach_bareEach]

end

end Tree

/-! ## Trees that were read are legible -/

/-- Words of letters only. -/
theorem isIdentifier_of_letters (letters : (x.toList.all isLetter && x != "") = true) :
    IsIdentifier x := by
  rw [Bool.and_eq_true, all_eq_true] at letters
  refine ⟨⟨by simpa using letters.2, fun c member => ?_⟩, fun c first => ?_⟩
  · simp [isWordChar, letters.1 c member]
  · exact letters.1 c (mem_of_mem_head? first)

theorem VarType.legible_sexp (type : VarType) : type.sexp.Legible := by
  induction type with
  | void | integer => exact .name (isIdentifier_of_letters (by decide))
  | array lower upper elem ih =>
    refine .list (by decide) ?_
    simp [ih, Sexp.Legible.number]

namespace Tree

theorem legible_sexpEach {ts : List Tree} (each : ∀ t ∈ ts, t.sexp.Legible) : ∀ x ∈ sexpEach ts, x.Legible := by
  rw [sexpEach_eq_map]
  exact forall_mem_map.mpr each

theorem legible_group (head : Head) (known : head ∈ Head.all) {ts : List Tree}
    (each : ∀ t ∈ ts, t.sexp.Legible) : (list head (sexpEach ts)).Legible :=
  .list known (legible_sexpEach each)

theorem legible_returns (result : VarType) : (list .returns [result.sexp]).Legible :=
  .list (by decide) (forall_mem_singleton.mpr result.legible_sexp)

theorem legible_sexp {c : Comparison} (lexical : ∀ t ∈ c.tokens, t.Lexical) {t : Tree}
    (h : Made c species t t') : t.sexp.Legible := by
  have legible {t : Token} (listed : t ∈ c.tokens) (kind : t.kind = .identifier) :
      (Sexp.name t.value).Legible := .name ((lexical t listed).name kind)
  have forward : (Sexp.name "forward").Legible := .name (isIdentifier_of_letters (by decide))
  induction h with
  | number | negative | zero =>
    exact .number
  | text listed kind =>
    rw [sexp]
    exact .quoted ((lexical _ listed.mem).text kind)
  | name listed kind =>
    exact legible listed.mem kind
  | element listed kind _ index =>
    rw [sexp]
    exact .list (by decide) (by simp [legible listed.mem kind, index])
  | binary _ binds _ _ left right =>
    have known := mem_operators_of_precedence (Nat.not_le_of_gt binds)
    exact .list (mem_append_right _ (mem_map_of_mem known)) (by simp [left, right])
  | call listed kind same _ args =>
    rw [sexp]
    exact .list (by decide) (forall_mem_cons.mpr ⟨legible listed.mem kind, legible_sexpEach (forall_of_zip same args)⟩)
  | assign _ _ _ target value =>
    exact .list (by decide) (by simp [target, value])
  | branch _ _ _ cond yes =>
    rw [sexp]
    exact .list (by decide) (by simp [isAbsent, cond, yes])
  | branchElse _ _ _ madeNo cond yes no =>
    exact .list (by decide) (by simp [madeNo.isAbsent.1, cond, yes, no])
  | @count _ _ _ _ _ _ _ _ _ down _ inside kind _ _ _ start stop body =>
    have direction : (Sexp.name (direction down)).Legible := by
      cases down <;> exact .name (isIdentifier_of_letters (by decide))
    rw [sexp]
    exact .list (by decide) (by simp [legible inside kind, direction, start, stop, body])
  | loop _ _ _ cond body =>
    exact .list (by decide) (by simp [cond, body])
  | leave | exit =>
    rw [sexp]
    exact .list (by decide) (forall_mem_nil _)
  | body _ same _ stmts =>
    exact legible_group .block (by decide) (forall_of_zip same stmts)
  | @varDecl _ _ _ _ type listed kind =>
    rw [sexp]
    exact .list (by decide) (by simp [legible listed.mem kind, type.legible_sexp])
  | constDecl listed kind =>
    exact .list (by decide) (by simp [legible listed.mem kind, Sexp.Legible.number])
  | forward _ inside kind same _ _ params =>
    have group := legible_group .params (by decide) (forall_of_zip same params)
    rw [sexp]
    split
    · exact .list (by decide) (by simp [isAbsent, legible inside kind, group, forward])
    · exact .list (by decide) (by simp [isAbsent, legible inside kind, group, legible_returns, forward])
  | defined _ inside kind same _ _ same' _ madeBody params locals body =>
    have group := legible_group .params (by decide) (forall_of_zip same params)
    have vars := legible_group .locals (by decide) (forall_of_zip same' locals)
    rw [sexp]
    split
    · exact .list (by decide) (by simp [madeBody.isAbsent.1, legible inside kind, group, vars, body])
    · exact .list (by decide)
        (by simp [madeBody.isAbsent.1, legible inside kind, group, legible_returns, vars, body])
  | program _ inside kind same _ same' _ _ decls routines main =>
    have globals := legible_group .decls (by decide) (forall_of_zip same decls)
    have funcs := legible_group .funcs (by decide) (forall_of_zip same' routines)
    exact .list (by decide) (by simp [legible inside kind, globals, funcs, main])
  | _ => assumption

/-- The written form of a tree that was read tells the tree, up to its places. -/
theorem bare_inj_of_format {c c' : Comparison} (lexical : ∀ t ∈ c.tokens, t.Lexical)
    (lexical' : ∀ t ∈ c'.tokens, t.Lexical) {t : Tree} (ht : Made c .program t t) (hu : Made c' .program u u)
    (same : t.format = u.format) : t.bare = u.bare := by
  have chars : t.sexp.chars = u.sexp.chars := by rw [← format_toList, ← format_toList, same]
  have sexps : t.sexp = u.sexp := chars_inj (legible_sexp lexical ht) (legible_sexp lexical' hu) chars
  rw [← tree_sexp ht, ← tree_sexp hu, sexps]

/-- The written form of a tree does not tell its places. -/
theorem format_congr_bare {t u : Tree} (same : t.bare = u.bare) : t.format = u.format := by
  apply String.toList_inj.mp
  rw [format_toList, format_toList, ← sexp_bare t, ← sexp_bare u, same]

end Tree

/-! ## What the written form tells -/

/-- Trees that were read from texts, under any settings, are written alike if and only if they are the same up
to their places. Types are written alike if and only if they are equal, and so two declarations of a routine
are taken for the same if and only if their parameters are. -/
theorem Tree.format_eq_iff_bare {on on' : Switches Feature} {neg neg' : Bool} {file file' : Int}
    {source source' : String} {t u : Tree} (read : Tree.ofTokens neg (tokenize on file source) = .ok t)
    (read' : Tree.ofTokens neg' (tokenize on' file' source') = .ok u) :
    (t.format = u.format ↔ t.bare = u.bare) ∧ (∀ a b : VarType, a.format = b.format ↔ a = b) ∧
      ∀ (r : Lower.Routine) (params : List VarType) (result : VarType), Lower.sameSignature r params result = true ↔
          r.params = params ∧ (r.result = .void ↔ result = .void) := by
  have made := Tree.made_of_ofTokens read False
  have made' := Tree.made_of_ofTokens read' False
  refine ⟨⟨fun same => ?_, Tree.format_congr_bare⟩, fun a b => ?_, Lower.sameSignature_iff⟩
  · refine Tree.bare_inj_of_format ?_ ?_ made made' same
    · exact lexical_tokenize on file source
    · exact lexical_tokenize on' file' source'
  · exact ⟨VarType.format_inj, congrArg VarType.format⟩

namespace Tree

/-- A program on one line. -/
def oneLine : String :=
  "program p; begin if x < 0 then write('a (b) nil', -1) else for i := 1 to 3 do x[i] := f(i) end."

/-- The same program, with places, brackets and bodies of its own. -/
def indented : String :=
  "program p;
begin
  if (x) < (0) then begin write('a (b) nil', -1) end
  else
    for i := 1 to 3 do
      begin x[(i)] := f(i); end;  # done
end."

/-- The written form of both. -/
def lineForm : String :=
  "(program p (decls) (funcs) (begin (if (< x 0) (begin (call write 'a (b) nil' -1)) " ++
    "(begin (for i 1 to 3 (begin (:= (index x i) (call f i))))))))"

theorem format_eq_iff_bare_lineForm : ∃ t u, ofTokens false (tokenize Feature.strict 0 oneLine) = .ok t ∧
    ofTokens true (tokenize Feature.extended 1 indented) = .ok u ∧ t.format = lineForm ∧
    u.format = lineForm ∧ t.bare = u.bare := by
  obtain ⟨t, read, form⟩ : ∃ t, ofTokens false (tokenize Feature.strict 0 oneLine) = .ok t ∧
      t.format = lineForm := exists_ok_of_map (by decide +kernel)
  obtain ⟨u, read', form'⟩ : ∃ u, ofTokens true (tokenize Feature.extended 1 indented) = .ok u ∧
      u.format = lineForm := exists_ok_of_map (by decide +kernel)
  have same := (format_eq_iff_bare read read').1.mp (form.trans form'.symm)
  exact ⟨t, u, read, read', form, form', same⟩

end Tree

end MiniPascal
