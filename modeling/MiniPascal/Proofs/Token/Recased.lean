import MiniPascal.Proofs.Token.Describe

/-!
# Texts in upper and lower case

Where case is folded, a text is cut into tokens as the same text in lower case is. The tokens differ only
in the contents of strings and in the spelling of numbers (`Reading.alike_token`). So two texts that differ
only in the case of letters outside of strings have the same tokens up to the spelling of numbers
(`Recased.alike_token`).
-/

open List

namespace MiniPascal

/-! ## Characters -/

variable {c : Char}

theorem foldCase_eq_self (other : isLetter c = false) : foldCase c = c := by
  unfold foldCase
  rw [if_neg]
  intro upper
  simp [isLetter, upper] at other

/-- A test that treats all letters alike does not tell the cases of a letter apart. -/
theorem test_foldCase {p : Char → Bool} (letters : ∀ c, isLetter c = true → p c = b) (c : Char) :
    p (foldCase c) = p c := by
  cases letter : isLetter c with
  | true => rw [letters c letter, letters _ (isLetter_foldCase letter)]
  | false => rw [foldCase_eq_self letter]

theorem test_isLetter (c : Char) : isLetter (foldCase c) = isLetter c := test_foldCase (fun _ letter => letter) c

theorem isDigit_of_isLetter (letter : isLetter c = true) : isDigit c = false := by
  rw [isLetter_iff] at letter
  rw [Bool.eq_false_iff, Ne, isDigit_iff]
  omega

theorem test_isDigit (c : Char) : isDigit (foldCase c) = isDigit c := test_foldCase (fun _ => isDigit_of_isLetter) c

theorem test_isWordChar (c : Char) : isWordChar (foldCase c) = isWordChar c :=
  test_foldCase (fun c letter => by rw [isWordChar, letter]; rfl) c

theorem test_isLetterOrDigit (c : Char) : isLetterOrDigit (foldCase c) = isLetterOrDigit c :=
  test_foldCase (fun c letter => by rw [isLetterOrDigit, letter]; rfl) c

theorem visible_of_isLetter (letter : isLetter c = true) : Visible c := by
  rw [isLetter_iff] at letter
  exact visible_of_code (by omega)

theorem test_isSpace (c : Char) : Text.isSpace (foldCase c) = Text.isSpace c :=
  test_foldCase (fun _ letter => (visible_of_isLetter letter).space) c

theorem foldCase_eq_iff (other : isLetter d = false) : foldCase c = d ↔ c = d := by
  have same := test_foldCase (p := fun c => decide (c = d)) (fun c letter => by
    rw [decide_eq_false_iff_not]
    rintro rfl
    exact absurd letter (by rw [other]; exact Bool.false_ne_true)) c
  simpa using same

theorem isOctal_of_isLetter (letter : isLetter c = true) : Radix.octal.isDigit c = false := by
  rw [isLetter_iff] at letter
  rw [Bool.eq_false_iff]
  intro digit
  simp only [Radix.isDigit, Bool.and_eq_true, decide_eq_true_eq] at digit
  have high : c.toNat ≤ 55 := digit.2
  omega

theorem test_radix (radix : Radix) (c : Char) : radix.isDigit (foldCase c) = radix.isDigit c := by
  cases radix with
  | decimal => exact test_isDigit c
  | octal => exact test_foldCase (fun _ => isOctal_of_isLetter) c
  | hexadecimal =>
    -- the letters that are digits are so in either case
    by_cases upper : ('A' ≤ c && c ≤ 'Z') = true
    · simp only [Bool.and_eq_true, decide_eq_true_eq] at upper
      have low : 65 ≤ c.toNat := upper.1
      have high : c.toNat ≤ 90 := upper.2
      rw [← Char.ofNat_toNat c]
      generalize c.toNat = n at low high
      interval_cases n <;> decide
    · rw [show foldCase c = c from if_neg upper]

theorem digitValue_foldCase (c : Char) : digitValue (foldCase c) = digitValue c := by
  unfold digitValue
  rw [test_isDigit, foldCase_foldCase]
  split
  · next digit =>
    have other : isLetter c = false := by
      rw [Bool.eq_false_iff]
      intro letter
      rw [isDigit_of_isLetter letter] at digit
      cases digit
    rw [foldCase_eq_self other]
  · rfl

/-! ## Texts -/

/-- A text in lower case. -/
def folded (cs : List Char) : List Char := cs.map foldCase

@[simp] theorem folded_nil : folded [] = [] := rfl

@[simp] theorem folded_cons (c : Char) (cs : List Char) : folded (c :: cs) = foldCase c :: folded cs := rfl

@[simp] theorem length_folded (cs : List Char) : (folded cs).length = cs.length := length_map _

theorem folded_folded (cs : List Char) : folded (folded cs) = folded cs := by
  simp [folded, Function.comp_def, foldCase_foldCase]

theorem head?_folded (other : isLetter d = false) (cs : List Char) :
    (folded cs).head? = some d ↔ cs.head? = some d := by
  cases cs with
  | nil => rfl
  | cons c cs => simpa using foldCase_eq_iff other

section While

variable {p : Char → Bool} (blind : ∀ c, p (foldCase c) = p c)

include blind

theorem takeWhile_folded (cs : List Char) : (folded cs).takeWhile p = folded (cs.takeWhile p) := by
  rw [folded, takeWhile_map, show p ∘ foldCase = p from funext blind, folded]

theorem dropWhile_folded (cs : List Char) : (folded cs).dropWhile p = folded (cs.dropWhile p) := by
  rw [folded, dropWhile_map, show p ∘ foldCase = p from funext blind, folded]

end While

theorem digitsValue_folded (base : Nat) (ds : List Char) : digitsValue base (folded ds) = digitsValue base ds := by
  rw [digitsValue, folded, foldl_map]
  simp only [digitValue_foldCase]
  rfl

/-! ## Lexemes -/

namespace Lexeme

/-- Two lexemes that may differ in the contents of a string and in the spelling of a number. -/
structure Alike (x y : Lexeme) : Prop where
  kind : y.kind = x.kind
  number : y.number = x.number
  more : y.more = x.more
  value : x.kind ≠ .string → x.kind ≠ .number → y.value = x.value

theorem Alike.refl (x : Lexeme) : x.Alike x := ⟨rfl, rfl, rfl, fun _ _ => rfl⟩

theorem word_folded (c : Char) (cs : List Char) : word true (foldCase c) (folded cs) = word true c cs := by
  unfold word
  simp only [if_true, takeWhile_folded test_isWordChar, map_cons, foldCase_foldCase, length_folded]
  rw [show (folded (cs.takeWhile isWordChar)).map foldCase = (cs.takeWhile isWordChar).map foldCase from
    folded_folded _]

theorem alike_numeral (radix : Radix) (lead ds : List Char) :
    (numeral radix lead ds).Alike (numeral radix lead (folded ds)) := by
  have empty (cs : List Char) : (folded cs).isEmpty = cs.isEmpty := by cases cs <;> rfl
  unfold numeral
  simp only [takeWhile_folded (test_radix radix), dropWhile_folded (test_radix radix),
    takeWhile_folded test_isLetterOrDigit, length_folded, digitsValue_folded, empty]
  split
  · exact .refl _
  · split
    · exact .refl _
    · split
      · exact .refl _
      · exact ⟨rfl, rfl, rfl, fun _ other => absurd rfl other⟩

/-- A character that a string can hold. -/
def isInside (c : Char) : Bool := c != '\'' && c != '\n'

theorem test_isInside (c : Char) : isInside (foldCase c) = isInside c :=
  test_foldCase (b := true) (fun c letter => by
    simp only [isInside, Bool.and_eq_true, bne_iff_ne]
    constructor
    · rintro rfl
      exact absurd letter (by decide)
    · rintro rfl
      exact absurd letter (by decide)) c

theorem quoted_eq (cs : List Char) : quoted cs = if (cs.dropWhile isInside).head? = some '\'' then
      { kind := .string, value := String.ofList (cs.takeWhile isInside), more := (cs.takeWhile isInside).length + 1 }
    else error "unterminated string literal" (cs.takeWhile isInside).length := by
  unfold quoted
  dsimp only
  rw [show (fun c : Char => c != '\'' && c != '\n') = isInside from rfl]
  cases cs.dropWhile isInside with
  | nil => rfl
  | cons c rest =>
    by_cases quote : c = '\''
    · subst quote
      rfl
    · simp [quote]

theorem alike_quoted (cs : List Char) : (quoted cs).Alike (quoted (folded cs)) := by
  have closed := head?_folded (d := '\'') (by decide) (cs.dropWhile isInside)
  rw [quoted_eq, quoted_eq, takeWhile_folded test_isInside, dropWhile_folded test_isInside, length_folded]
  by_cases quote : (cs.dropWhile isInside).head? = some '\''
  · rw [if_pos quote, if_pos (closed.mpr quote)]
    exact ⟨rfl, rfl, rfl, fun other => absurd rfl other⟩
  · rw [if_neg quote, if_neg (mt closed.mp quote)]
    exact .refl _

/-- Only the next character counts behind the first one of a symbol, -/
theorem symbol_cons (c d : Char) (ds es : List Char) : symbol c (d :: ds) = symbol c (d :: es) := by
  unfold symbol
  split <;> simp_all

/-- and a letter counts as no character. -/
theorem symbol_letter (c : Char) (letter : isLetter d = true) (ds : List Char) :
    symbol c (d :: ds) = symbol c [] := by
  have other {e : Char} (h : isLetter e = false) : d ≠ e := by
    rintro rfl
    rw [h] at letter
    cases letter
  have eq : d ≠ '=' := other (by decide)
  have dot : d ≠ '.' := other (by decide)
  have gt : d ≠ '>' := other (by decide)
  unfold symbol
  split <;> simp_all

theorem symbol_folded (c : Char) (cs : List Char) : symbol c (folded cs) = symbol c cs := by
  cases cs with
  | nil => rfl
  | cons d ds =>
    rw [folded_cons]
    cases letter : isLetter d with
    | true => rw [symbol_letter c letter, symbol_letter c (isLetter_foldCase letter)]
    | false => rw [foldCase_eq_self letter, symbol_cons]

variable {on : Switches Feature}

theorem alike_read (fold : on .caseFold = true) (c : Char) (cs : List Char) :
    (read on c cs).Alike (read on (foldCase c) (folded cs)) := by
  unfold read
  rw [fold, test_isLetter, test_isDigit]
  cases letter : isLetter c with
  | true =>
    rw [if_pos rfl, if_pos rfl, word_folded]
    exact .refl _
  | false =>
    rw [if_neg Bool.false_ne_true, if_neg Bool.false_ne_true]
    have kept := foldCase_eq_self letter
    by_cases digit : isDigit c = true
    · rw [if_pos digit, if_pos digit]
      exact alike_numeral .decimal [] (c :: cs)
    rw [if_neg digit, if_neg digit, kept]
    by_cases octal : c = '&'
    · rw [if_pos octal, if_pos octal]
      exact alike_numeral .octal [c] cs
    rw [if_neg octal, if_neg octal]
    by_cases hex : c = '$'
    · rw [if_pos hex, if_pos hex]
      exact alike_numeral .hexadecimal [c] cs
    rw [if_neg hex, if_neg hex]
    by_cases quote : c = '\''
    · rw [if_pos quote, if_pos quote]
      exact alike_quoted cs
    rw [if_neg quote, if_neg quote, symbol_folded]
    exact .refl _

theorem quoted_of_string {c : Char} (string : (read on c cs).kind = .string) :
    c = '\'' ∧ read on c cs = quoted cs := by
  by_cases quote : c = '\''
  · subst quote
    exact ⟨rfl, rfl⟩
  exfalso
  have digits {radix : Radix} {lead ds : List Char} (string : (numeral radix lead ds).kind = .string) : False := by
    obtain ⟨_, -, -, -, number⟩ := numeral_cases (by rw [string]; decide)
    rw [number] at string
    cases string
  unfold read at string
  rw [if_neg quote] at string
  split at string
  · unfold word at string
    dsimp only at string
    split at string
    · next k keyword =>
      obtain rfl : k = .string := string
      exact absurd (Kind.keyword?_mem keyword) (by decide)
    · cases string
  · split_ifs at string
    · exact digits string
    · exact digits string
    · exact digits string
    · unfold symbol at string
      split at string <;> cases string

/-- The text of a string is its contents between quotes. -/
theorem text_of_string {c : Char} {cs : List Char} (string : (read on c cs).kind = .string) :
    (c :: cs).take ((read on c cs).more + 1) = '\'' :: ((read on c cs).value.toList ++ ['\'']) := by
  obtain ⟨rfl, same⟩ := quoted_of_string string
  rw [same] at string ⊢
  rw [quoted_eq] at string ⊢
  split at string
  · next closed =>
    obtain ⟨later, rest⟩ := head?_eq_some_iff.mp closed
    rw [if_pos closed]
    have split := takeWhile_append_dropWhile (p := isInside) (l := cs)
    rw [rest] at split
    rw [String.toList_ofList]
    generalize cs.takeWhile isInside = contents at split
    have text : cs = contents ++ ['\''] ++ later := by rw [← split, append_assoc]; rfl
    rw [text, take_succ_cons, take_left' (by simp)]
  · cases string

end Lexeme

/-! ## Places -/

namespace Cursor

/-- A reader of the text in lower case. -/
def folded (at_ : Cursor) : Cursor := { at_ with rest := MiniPascal.folded at_.rest }

@[simp] theorem rest_folded (at_ : Cursor) : at_.folded.rest = MiniPascal.folded at_.rest := rfl

theorem folded_pass (at_ : Cursor) (c : Char) (cs : List Char) :
    (at_.pass c cs).folded = at_.folded.pass (foldCase c) (MiniPascal.folded cs) := by
  have newline : foldCase c = '\n' ↔ c = '\n' := foldCase_eq_iff (by decide)
  unfold pass
  simp only [newline]
  split <;> rfl

theorem folded_advance (at_ : Cursor) (n : Nat) : (at_.advance n).folded = at_.folded.advance n := by
  induction n generalizing at_ with
  | zero => rfl
  | succ n ih =>
    cases rest : at_.rest with
    | nil => rw [advance_nil rest, advance_nil (by rw [rest_folded, rest]; rfl)]
    | cons c cs =>
      have rest' : at_.folded.rest = foldCase c :: MiniPascal.folded cs := by rw [rest_folded, rest]; rfl
      rw [advance_cons rest, advance_cons rest', ih, folded_pass]

/-- What follows the blanks of the text in lower case. -/
def Gap.folded : Gap → Gap
  | .closed next => .closed next.folded
  | .unclosed opening => .unclosed opening.folded

/-- The blank that is passed in the text in lower case. -/
def Blank.folded : Blank → Blank
  | .braceComment opening => .braceComment opening.folded
  | mode => mode

theorem skipFrom_folded (braces : Bool) (mode : Blank) (at_ : Cursor) (cs : List Char) :
    skipFrom braces mode.folded at_.folded (MiniPascal.folded cs) = (skipFrom braces mode at_ cs).folded := by
  induction cs generalizing mode at_ with
  | nil => cases mode <;> rfl
  | cons c cs ih =>
    have eq_iff {d : Char} (other : isLetter d = false) : foldCase c = d ↔ c = d := foldCase_eq_iff other
    rw [folded_cons]
    unfold skipFrom
    rw [← folded_pass]
    cases mode with
    | space =>
      dsimp only [Blank.folded]
      rw [test_isSpace]
      by_cases space : Text.isSpace c = true
      · rw [if_pos space, if_pos space]
        exact ih .space _
      rw [if_neg space, if_neg space]
      by_cases hash : c = '#'
      · rw [if_pos hash, if_pos ((eq_iff (by decide)).mpr hash)]
        exact ih .lineComment _
      rw [if_neg hash, if_neg (mt (eq_iff (by decide)).mp hash)]
      by_cases brace : c = '\x7b'
      · rw [decide_eq_true brace, decide_eq_true ((eq_iff (by decide)).mpr brace)]
        split
        · exact ih (.braceComment at_) _
        · rfl
      · rw [decide_eq_false brace, decide_eq_false (mt (eq_iff (by decide)).mp brace)]
        rfl
    | lineComment =>
      dsimp only [Blank.folded]
      by_cases newline : c = '\n'
      · rw [if_pos newline, if_pos ((eq_iff (by decide)).mpr newline)]
        exact ih .space _
      · rw [if_neg newline, if_neg (mt (eq_iff (by decide)).mp newline)]
        exact ih .lineComment _
    | braceComment opening =>
      dsimp only [Blank.folded]
      by_cases brace : c = '\x7d'
      · rw [if_pos brace, if_pos ((eq_iff (by decide)).mpr brace)]
        exact ih .space _
      · rw [if_neg brace, if_neg (mt (eq_iff (by decide)).mp brace)]
        exact ih (.braceComment opening) _

end Cursor

/-! ## Tokens -/

/-- Two tokens at one place that may differ in their value if they are of one of some kinds. -/
structure Token.Alike (loose : List Kind) (t u : Token) : Prop where
  kind : u.kind = t.kind
  file : u.file = t.file
  line : u.line = t.line
  column : u.column = t.column
  length : u.length = t.length
  number : u.number = t.number
  value : t.kind ∉ loose → u.value = t.value

theorem Cursor.alike_token (alike : x.Alike y) (at_ : Cursor) (file : Int) :
    Token.Alike [.string, .number] (at_.token file x) (at_.folded.token file y) where
  kind := alike.kind
  file := rfl
  line := rfl
  column := rfl
  length := congrArg (fun n : Nat => (n : Int) + 1) alike.more
  number := alike.number
  value other := by
    rw [mem_pair, not_or] at other
    exact alike.value other.1 other.2

/-- A text in lower case is read like the text. -/
theorem Cursor.scan_folded (fold : on .caseFold = true) (file : Int) (at_ : Cursor) :
    Token.Alike [.string, .number] (at_.scan on file).1 (at_.folded.scan on file).1 ∧
      (at_.folded.scan on file).2 = (at_.scan on file).2.folded := by
  have gap : at_.folded.skip (on .braceComments) = (at_.skip (on .braceComments)).folded :=
    skipFrom_folded (on .braceComments) .space at_ at_.rest
  unfold scan
  rw [gap]
  cases at_.skip (on .braceComments) with
  | unclosed opening =>
    dsimp only [Gap.folded]
    rw [rest_folded, length_folded, ← folded_advance]
    exact ⟨alike_token (.refl _) opening file, rfl⟩
  | closed next =>
    dsimp only [Gap.folded]
    rw [rest_folded]
    cases next.rest with
    | nil => exact ⟨⟨rfl, rfl, rfl, rfl, rfl, rfl, fun _ => rfl⟩, rfl⟩
    | cons c cs =>
      have alike := Lexeme.alike_read fold c cs
      refine ⟨alike_token alike next file, ?_⟩
      rw [folded_advance, ← alike.more]
      rfl

/-- The text of a string token is its contents between quotes. -/
theorem Cursor.text_of_string {on : Switches Feature} {file : Int} {at_ : Cursor}
    (string : (at_.scan on file).1.kind = .string) :
    (at_.next (on .braceComments)).rest.take (at_.scan on file).1.length.toNat =
      '\'' :: ((at_.scan on file).1.value.toList ++ ['\'']) := by
  unfold next scan at *
  cases gap : at_.skip (on .braceComments) with
  | unclosed opening =>
    rw [gap] at string
    cases string
  | closed next =>
    rw [gap] at string
    dsimp only [Gap.place] at string ⊢
    cases rest : next.rest with
    | nil =>
      rw [rest] at string
      cases string
    | cons c cs =>
      rw [rest] at string
      exact Lexeme.text_of_string string

namespace Reading

/-- The reading of the text in lower case. -/
def folded (r : Reading) : Reading := { r with source := String.ofList (MiniPascal.folded r.source.toList) }

variable {r : Reading}

theorem reader_folded (fold : r.on .caseFold = true) (n : Nat) : r.folded.reader n = (r.reader n).folded := by
  induction n with
  | zero => simp [reader, folded, Cursor.start, Cursor.folded]
  | succ n ih =>
    have step := (Cursor.scan_folded fold r.file (r.reader n)).2
    rw [← ih] at step
    exact step

/-- The tokens of a text are like those of the text in lower case. -/
theorem alike_token (fold : r.on .caseFold = true) (n : Nat) :
    Token.Alike [.string, .number] (r.token n) (r.folded.token n) := by
  have alike := (Cursor.scan_folded fold r.file (r.reader n)).1
  rw [← reader_folded fold] at alike
  exact alike

theorem stop_folded (fold : r.on .caseFold = true) (n : Nat) : r.folded.stop n = r.stop n := by
  rw [stop, stop, reader_folded fold]
  simp [folded, String.length_toList]

theorem start_eq (some : (r.token n).kind ≠ .eof) :
    r.start n = r.stop (n + 1) - (r.token n).length.toNat := by
  have := r.of_ne_eof some
  omega

/-- The characters of a string token are its contents between quotes. -/
theorem text_of_string {n : Nat} (string : (r.token n).kind = .string) :
    (r.source.toList.drop (r.start n)).take (r.token n).length.toNat =
      '\'' :: ((r.token n).value.toList ++ ['\'']) := by
  rw [← (r.at_place n).2.rest]
  exact Cursor.text_of_string string

/-- A character is part of a string. -/
def InString (r : Reading) (i : Nat) : Prop := ∃ n, (r.token n).kind = .string ∧ r.start n ≤ i ∧ i < r.stop (n + 1)

/-- Two texts differ only in the case of letters outside of strings. -/
structure Recased (r r' : Reading) : Prop where
  on : r'.on = r.on
  file : r'.file = r.file
  folded : MiniPascal.folded r'.source.toList = MiniPascal.folded r.source.toList
  strings : ∀ i, r.InString i → r'.source.toList[i]? = r.source.toList[i]?

namespace Recased

variable {r r' : Reading} (recased : Recased r r')

include recased

theorem folded_eq : r'.folded = r.folded := by
  unfold Reading.folded
  rw [recased.on, recased.file, recased.folded]

variable (fold : r.on .caseFold = true)

include fold

theorem stop_eq (n : Nat) : r'.stop n = r.stop n := by
  rw [← stop_folded fold, ← recased.folded_eq, stop_folded (recased.on ▸ fold)]

/-- The texts have the same tokens up to the spelling of numbers. -/
theorem alike_token (n : Nat) : Token.Alike [.number] (r.token n) (r'.token n) := by
  have alike := Reading.alike_token fold n
  have alike' := Reading.alike_token (r := r') (recased.on ▸ fold) n
  rw [recased.folded_eq] at alike'
  have kind : (r'.token n).kind = (r.token n).kind := alike'.kind.symm.trans alike.kind
  have length : (r'.token n).length = (r.token n).length := alike'.length.symm.trans alike.length
  refine
    { kind, length
      file := alike'.file.symm.trans alike.file
      line := alike'.line.symm.trans alike.line
      column := alike'.column.symm.trans alike.column
      number := alike'.number.symm.trans alike.number
      value := fun other => ?_ }
  by_cases string : (r.token n).kind = .string
  · have some : (r.token n).kind ≠ .eof := by rw [string]; exact Kind.noConfusion
    have start : r'.start n = r.start n := by
      rw [start_eq some, start_eq (by rw [kind]; exact some), length, recased.stop_eq fold]
    have inside := r.of_ne_eof some
    have text : (r'.source.toList.drop (r.start n)).take (r.token n).length.toNat =
        (r.source.toList.drop (r.start n)).take (r.token n).length.toNat := by
      apply ext_getElem?
      intro i
      rw [getElem?_take, getElem?_take]
      split
      · next low =>
        rw [getElem?_drop, getElem?_drop]
        exact recased.strings _ ⟨n, string, by omega, by omega⟩
      · rfl
    have text' := text_of_string (r := r') (kind.trans string)
    rw [start, length, text, text_of_string string] at text'
    have contents := append_cancel_right (List.cons.inj text').2
    exact (String.toList_inj.mp contents).symm
  · have other : (r.token n).kind ∉ [Kind.string, .number] := by
      rw [mem_singleton] at other
      rw [mem_pair, not_or]
      exact ⟨string, other⟩
    exact (alike'.value (by rw [kind]; exact other)).symm.trans (alike.value other)

theorem count_eq : r'.count = r.count := by
  refine Nat.find_congr' fun {n} => ?_
  rw [(recased.alike_token fold n).kind]

end Recased

end Reading

end MiniPascal
