import MiniPascal.Proofs.Token.Tiling
import MiniPascal.Proofs.Tree.Made

/-!
# Reading with and without the extensions

Comments in braces and signed operands extend what can be read. A text that is a program without them
holds no error token, and a brace that is no comment is an error: so its tokens are the same with
them. The readers then find the same tree, for a minus sign in front of an operand other than a
number is a fault without the extension, and a lax comparison leaves faults out.
-/

open List

namespace MiniPascal

/-! ## Streams without errors -/

/-- No token is an error. -/
def Clean (w : List Token) : Prop := ∀ t ∈ w, t.kind ≠ .error

@[simp] theorem clean_nil : Clean [] := by simp [Clean]

@[simp] theorem clean_cons : Clean (t :: w) ↔ t.kind ≠ .error ∧ Clean w := forall_mem_cons

@[simp] theorem clean_append : Clean (v ++ w) ↔ Clean v ∧ Clean w :=
  forall_mem_append

namespace Grammar

theorem Semis.clean (semis : Semis ss) : Clean ss := by
  intro s mem
  rw [semis s mem]
  decide

theorem ne_error_of_operator (op : k ∈ operators) : k ≠ .error := by
  rintro rfl
  exact absurd op (by decide)

variable {neg : Bool} {w : List Token}

theorem Derives.clean (d : Derives neg part w) : Clean w := by
  induction d with
  | operation op _ _ left right => simp [ne_error_of_operator op, left, right]
  | nextStatement _ _ semis _ first rest => simp [semis.clean, first, rest]
  | emptyCompound _ semis => simp [semis.clean, *]
  | compound _ before _ after _ inner => simp [before.clean, after.clean, *]
  | count _ _ _ _ direction => rcases direction with h | h <;> simp [*]
  | _ => simp [*]

theorem Signed.clean (d : Signed value w) : Clean w := by
  cases d <;> simp [*]

theorem IsType.clean (d : IsType type w) : Clean w := by
  induction d with
  | integer => simp [*]
  | array _ _ lower _ upper _ _ _ _ inner => simp [lower.clean, upper.clean, *]

theorem Names.clean (d : Names w) : Clean w := by
  induction d <;> simp [*]

theorem Group.clean (d : Group w) : Clean w := by
  obtain ⟨names, colon, type⟩ := d
  simp [names.clean, type.clean, colon]

theorem Variables.clean (d : Variables w) : Clean w := by
  obtain ⟨var, group, semi⟩ := d
  simp [group.clean, var, semi]

theorem Definitions.clean (d : Definitions w) : Clean w := by
  induction d with
  | last _ _ value | next _ _ value _ _ rest => simp [value.clean, *]

theorem Groups.clean (d : Groups w) : Clean w := by
  induction d with
  | last group => exact group.clean
  | lastSemi group | next group _ _ rest => simp [group.clean, *]

theorem Parameters.clean (d : Parameters w) : Clean w := by
  cases d with
  | given _ groups => simp [groups.clean, *]
  | _ => simp [*]

theorem Heading.clean (d : Heading result w) : Clean w := by
  cases d with
  | function _ _ params _ type => simp [params.clean, type.clean, *]
  | procedure _ _ params => simp [params.clean, *]

theorem Locals.clean (d : Locals w) : Clean w := by
  induction d with
  | nil => simp
  | cons first _ rest => simp [first.clean, rest]

theorem Routine.clean (d : Routine neg w) : Clean w := by
  cases d with
  | forward heading => simp [heading.clean, *]
  | defined heading _ locals body => simp [heading.clean, locals.clean, body.clean, *]

theorem Block.clean (d : Block neg w) : Clean w := by
  induction d with
  | body body => exact body.clean
  | vars vars _ rest => simp [vars.clean, rest]
  | consts consts _ _ rest =>
    obtain ⟨const, definitions⟩ := consts
    simp [definitions.clean, const, rest]
  | routine routine _ rest => simp [routine.clean, rest]

theorem Program.clean (d : Program neg w) : Clean w := by
  obtain ⟨program, name, semi, block, dot⟩ := d
  simp [block.clean, program, name, semi, dot]

end Grammar

/-! ## Braces -/

namespace Cursor

/-- Blanks are skipped alike whether braces are comments or not, unless a brace follows. -/
theorem skipFrom_braces (outside : ∀ opening, mode ≠ .braceComment opening)
    (at_ : Cursor) (rest : at_.rest = cs) : ∃ next, skipFrom false mode at_ cs = .closed next ∧
      (next.rest.head? ≠ some '\x7b' → skipFrom true mode at_ cs = .closed next) := by
  induction cs generalizing mode at_ with
  | nil =>
    cases mode with
    | braceComment opening => exact absurd rfl (outside opening)
    | _ => exact ⟨at_, rfl, fun _ => rfl⟩
  | cons c cs ih =>
    have pass := rest_pass at_ c cs
    unfold skipFrom
    cases mode with
    | braceComment opening => exact absurd rfl (outside opening)
    | lineComment =>
      dsimp only
      split
      · exact ih (by simp) _ pass
      · exact ih (by simp) _ pass
    | space =>
      dsimp only
      by_cases blank : Text.isSpace c = true
      · rw [if_pos blank, if_pos blank]
        exact ih (by simp) _ pass
      rw [if_neg blank, if_neg blank]
      by_cases comment : c = '#'
      · rw [if_pos comment, if_pos comment]
        exact ih (by simp) _ pass
      rw [if_neg comment, if_neg comment, if_neg (by simp)]
      refine ⟨at_, rfl, ?_⟩
      intro noBrace
      rw [rest, head?_cons] at noBrace
      rw [if_neg]
      simpa using noBrace

theorem read_brace (on : Switches Feature) (cs : List Char) : (Lexeme.read on '\x7b' cs).kind = .error :=
  rfl

/-- A token that is no error is read alike where braces are comments. -/
theorem scan_braces {strict lenient : Switches Feature} (noBraces : strict .braceComments = false)
    (sameCase : lenient .caseFold = strict .caseFold) (file : Int) {at_ : Cursor}
    (clean : (at_.scan strict file).1.kind ≠ .error) : at_.scan lenient file = at_.scan strict file := by
  have mode : ∀ opening, Blank.space ≠ .braceComment opening := fun _ => nofun
  obtain ⟨next, gap, same⟩ := skipFrom_braces mode at_ rfl
  have sameRead (c : Char) (cs : List Char) : Lexeme.read lenient c cs = Lexeme.read strict c cs := by
    unfold Lexeme.read
    rw [sameCase]
  have noBrace : next.rest.head? ≠ some '\x7b' := by
    intro brace
    obtain ⟨cs, rest⟩ := head?_eq_some_iff.mp brace
    apply clean
    unfold scan skip
    rw [noBraces, gap]
    dsimp only
    rw [rest]
    exact read_brace strict cs
  have gaps : skipFrom (lenient .braceComments) .space at_ at_.rest = .closed next := by
    cases lenient .braceComments with
    | false => exact gap
    | true => exact same noBrace
  unfold scan skip
  rw [gaps, noBraces, gap]
  dsimp only
  cases next.rest with
  | nil => rfl
  | cons c cs => simp only [sameRead]

end Cursor

theorem tokensFrom_braces {strict lenient : Switches Feature} (noBraces : strict .braceComments = false)
    (sameCase : lenient .caseFold = strict .caseFold) (file : Int) (at_ : Cursor)
    (clean : Clean (tokensFrom strict file at_).tokens) :
    tokensFrom lenient file at_ = tokensFrom strict file at_ := by
  induction at_ using tokensFrom.induct strict file with
  | case1 at_ t next read eof =>
    have same := Cursor.scan_braces noBraces sameCase file (by rw [read, eof]; decide)
    rw [tokensFrom, tokensFrom, same, read]
    simp only [eof, dite_true]
  | case2 at_ t next read notEof ih =>
    rw [tokensFrom, read] at clean
    simp only [notEof, dite_false, clean_cons] at clean
    have same := Cursor.scan_braces noBraces sameCase file (by rw [read]; exact clean.1)
    rw [tokensFrom, tokensFrom, same, read]
    simp only [notEof, dite_false, ih clean.2]

theorem ne_eof_of_mem_tokenize (on : Switches Feature) (file : Int) (source : String) :
    ∀ t ∈ (tokenize on file source).tokens, t.kind ≠ .eof := by
  let r : Reading := ⟨on, file, source⟩
  have stream : tokenize on file source =
      { tokens := (List.range r.count).map r.token, closing := r.token r.count } := r.tokenize_eq
  rw [stream]
  intro t member
  obtain ⟨n, before, rfl⟩ := mem_map.mp member
  exact r.ne_eof_of_lt_count (mem_range.mp before)

/-- The tokens of a text that is read as a program hold no error. -/
theorem clean_of_ofTokens
    (parsed : Tree.ofTokens neg (tokenize on file source) = .ok t) : Clean (tokenize on file source).tokens := by
  unfold Tree.ofTokens at parsed
  cases read : Tree.read neg (tokenize on file source) with
  | error f =>
    rw [read] at parsed
    cases parsed
  | ok r =>
    obtain ⟨w, rest, split, -, ends, program⟩ := Tree.program_of_read read
    have tokens : (tokenize on file source).tokens = w ++ rest.tokens := by
      rw [split]
      rfl
    have none : rest.tokens = [] := by
      cases left : rest.tokens with
      | nil => rfl
      | cons t ts =>
        have eof : t.kind = .eof := by simpa [Stream.head, left] using ends
        exact absurd eof (ne_eof_of_mem_tokenize on file source t (by simp [tokens, left]))
    rw [tokens, none, append_nil]
    exact program.clean

/-! ## Signed operands -/

/-- A program of the strict dialect is read as the same program with signed operands allowed. -/
theorem Tree.extends_ofTokens (parsed : ofTokens false s = .ok t) :
    ofTokens true s = .ok t := by
  have allows : (Comparison.same s.tokens True).Allows false true := .inr ⟨trivial, rfl⟩
  unfold ofTokens at parsed ⊢
  rcases answers_read allows suffix_rfl (.refl s) with ⟨-, e, failed⟩ | answers
  · rw [failed] at parsed
    cases parsed
  · generalize Tree.read false s = strict at parsed answers
    generalize Tree.read true s = extended at answers
    cases answers with
    | error => cases parsed
    | ok made =>
      cases parsed
      exact congrArg Except.ok made.eq_of_same

end MiniPascal
