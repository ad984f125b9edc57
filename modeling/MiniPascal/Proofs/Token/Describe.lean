import MiniPascal.Proofs.Token.Tiling

/-!
# Tokens are read back from their texts

Diagnostics quote a token by its text. The texts of the tokens of a program, with spaces between them, are
a program of the same tokens: each text is read to its end and no further if a space or nothing follows
(`Rereads`), and a space alone is passed over.
-/

open List

namespace MiniPascal

/-- What a token says, apart from where it stands. -/
def Token.payload (t : Token) : Kind × String × String × Int64 × String :=
  (t.kind, t.value, t.identifierText, t.numericValue, t.stringValue)

/-! ## Separators -/

/-- A text starts with a space or is empty. -/
def Separated (rest : List Char) : Prop := ∀ d ∈ rest.head?, d = ' '

namespace Separated

variable {rest : List Char} {p : Char → Bool}

theorem takeWhile_eq_nil (h : Separated rest) (space : p ' ' = false) : rest.takeWhile p = [] := by
  cases rest with
  | nil => rfl
  | cons d rest =>
    obtain rfl := h d rfl
    exact takeWhile_cons_of_neg (by simp [space])

theorem dropWhile_eq_self (h : Separated rest) (space : p ' ' = false) : rest.dropWhile p = rest := by
  cases rest with
  | nil => rfl
  | cons d rest =>
    obtain rfl := h d rfl
    exact dropWhile_cons_of_neg (by simp [space])

/-- A longest run ends at a separator. -/
theorem takeWhile_append (h : Separated rest) (space : p ' ' = false) {w : List Char}
    (all : ∀ c ∈ w, p c = true) : (w ++ rest).takeWhile p = w := by
  rw [takeWhile_append_of_pos all, h.takeWhile_eq_nil space, append_nil]

theorem dropWhile_append (h : Separated rest) (space : p ' ' = false) {w : List Char}
    (all : ∀ c ∈ w, p c = true) : (w ++ rest).dropWhile p = rest := by
  rw [dropWhile_append_of_pos all, h.dropWhile_eq_self space]

end Separated

/-! ## Characters -/

/-- A character that starts no blank. -/
structure Visible (c : Char) : Prop where
  space : Text.isSpace c = false
  hash : c ≠ '#'
  brace : c ≠ '\x7b'

variable {c : Char}

theorem isLetter_iff : isLetter c = true ↔ 97 ≤ c.toNat ∧ c.toNat ≤ 122 ∨ 65 ≤ c.toNat ∧ c.toNat ≤ 90 := by
  simp only [isLetter, Bool.or_eq_true, Bool.and_eq_true, decide_eq_true_eq]
  rfl

theorem isDigit_iff : isDigit c = true ↔ 48 ≤ c.toNat ∧ c.toNat ≤ 57 := by
  simp only [isDigit, Bool.and_eq_true, decide_eq_true_eq]
  rfl

theorem visible_of_code (h : 48 ≤ c.toNat ∧ c.toNat ≤ 122) : Visible c where
  space := by
    simp only [Text.isSpace, Bool.or_eq_false_iff, Bool.and_eq_false_iff, decide_eq_false_iff_not, beq_eq_false_iff_ne]
    omega
  hash := by
    rintro rfl
    exact absurd h (by decide)
  brace := by
    rintro rfl
    exact absurd h (by decide)

theorem foldCase_foldCase (c : Char) : foldCase (foldCase c) = foldCase c := by
  by_cases upper : ('A' ≤ c && c ≤ 'Z') = true
  · rw [foldCase.eq_def c, if_pos upper]
    simp only [Bool.and_eq_true, decide_eq_true_eq] at upper
    have low : 65 ≤ c.toNat := upper.1
    have high : c.toNat ≤ 90 := upper.2
    generalize c.toNat = n at low high
    interval_cases n <;> decide
  · rw [show foldCase c = c from if_neg upper]
    exact if_neg upper

/-! ## Texts of lexemes -/

/-- A text is read as a lexeme of the given contents if a separator follows. -/
def Rereads (on : Switches Feature) (kind : Kind) (value : String) (number : Int64) (text : List Char) : Prop :=
  ∃ c cs, text = c :: cs ∧ Visible c ∧ ∀ rest, Separated rest →
    Lexeme.read on c (cs ++ rest) = { kind, value, number, more := cs.length }

namespace Lexeme

/-- A lexeme is read back from the text that quotes it. -/
def Rereads (on : Switches Feature) (x : Lexeme) : Prop :=
  MiniPascal.Rereads on x.kind x.value x.number ({ kind := x.kind, value := x.value : Token }).describe.toList

/-! ### Words -/

/-- The letters of a word as they count. -/
def spelled (fold : Bool) (cs : List Char) : List Char := if fold then cs.map foldCase else cs

/-- What a word is. -/
def classified (cs : List Char) (more : Nat) : Lexeme :=
  match Kind.keyword? (String.ofList cs) with
  | some k => { kind := k, more }
  | none => { kind := .identifier, value := String.ofList cs, more }

theorem word_eq_classified (fold : Bool) (c : Char) (cs : List Char) : word fold c cs =
      classified (spelled fold (c :: cs.takeWhile isWordChar)) (cs.takeWhile isWordChar).length := rfl

theorem classified_more : classified cs n = { classified cs m with more := n } := by
  unfold classified
  split <;> rfl

/-- A word is quoted as it counts. -/
theorem describe_classified (cs : List Char) (more : Nat) :
    ({ kind := (classified cs more).kind, value := (classified cs more).value : Token }).describe.toList =
      cs := by
  unfold classified
  split
  · next k keyword =>
    have spelling : k.spelling = String.ofList cs := by simpa using find?_some keyword
    have quoted : ({ kind := k : Token }).describe = k.spelling := by
      have all : ∀ k ∈ Kind.keywords, ({ kind := k : Token }).describe = k.spelling := by decide
      exact all k (Kind.keyword?_mem keyword)
    rw [quoted, spelling, String.toList_ofList]
  · exact String.toList_ofList

variable {radix : Radix} {lead ds cs : List Char}

/-- A word that is spelled as it counts is spelled so again. -/
theorem spelled_word (fold : Bool) {tail : List Char} (letter : isLetter c = true)
    (inside : ∀ d ∈ tail, isWordChar d = true) : ∃ d ds, spelled fold (c :: tail) = d :: ds ∧
    isLetter d = true ∧ (∀ e ∈ ds, isWordChar e = true) ∧ spelled fold (d :: ds) = d :: ds := by
  cases fold with
  | false => exact ⟨c, tail, rfl, letter, inside, rfl⟩
  | true =>
    refine ⟨foldCase c, tail.map foldCase, rfl, isLetter_foldCase letter, ?_, ?_⟩
    · intro e member
      obtain ⟨d, inTail, rfl⟩ := mem_map.mp member
      exact isWordChar_foldCase (inside d inTail)
    · simp [spelled, foldCase_foldCase]

theorem rereads_word (on : Switches Feature) (letter : isLetter c = true) (cs : List Char) :
    (word (on .caseFold) c cs).Rereads on := by
  obtain ⟨d, ds, spelling, letter', inside, fixed⟩ := spelled_word (on .caseFold) letter
    fun d (member : d ∈ cs.takeWhile isWordChar) => mem_takeWhile_imp member
  rw [word_eq_classified, Rereads, describe_classified, spelling]
  refine ⟨d, ds, rfl, visible_of_code ?_, fun rest separated => ?_⟩
  · have := isLetter_iff.mp letter'
    omega
  · rw [read, if_pos letter', word_eq_classified, separated.takeWhile_append (by decide) inside, fixed]
    exact classified_more

/-! ### Numbers -/

/-- A number that is read has digits, and no letter or digit behind them. -/
theorem numeral_cases (number : (numeral radix lead ds).kind ≠ .error) :
    ∃ digits, digits ≠ [] ∧ (∀ d ∈ digits, radix.isDigit d = true) ∧ digitsValue radix.size digits ≤ maxLiteral ∧
      numeral radix lead ds = { kind := .number, value := String.ofList (lead ++ digits)
                                number := Int64.ofNat (digitsValue radix.size digits)
                                more := lead.length + digits.length - 1 } := by
  unfold numeral at number ⊢
  dsimp only at number ⊢
  split at number
  · exact absurd rfl number
  · next some =>
    split at number
    · exact absurd rfl number
    · next plain =>
      split at number
      · exact absurd rfl number
      · next small =>
        refine ⟨ds.takeWhile radix.isDigit, by simpa using some, fun d member =>
          mem_takeWhile_imp member, Nat.le_of_not_lt small, ?_⟩
        rw [if_neg some, if_neg plain, if_neg small]

/-- Digits in front of a separator are a number. -/
theorem numeral_append {digits : List Char} (some : digits ≠ [])
    (inside : ∀ d ∈ digits, radix.isDigit d = true) (small : digitsValue radix.size digits ≤ maxLiteral)
    (separated : Separated rest) :
    numeral radix lead (digits ++ rest) = { kind := .number, value := String.ofList (lead ++ digits)
                                            number := Int64.ofNat (digitsValue radix.size digits)
                                            more := lead.length + digits.length - 1 } := by
  have space : radix.isDigit ' ' = false := by cases radix <;> rfl
  unfold numeral
  dsimp only
  rw [separated.takeWhile_append space inside, separated.dropWhile_append space inside,
    separated.takeWhile_eq_nil (by decide), if_neg (by simpa using some), if_neg (by simp),
    if_neg (Nat.not_lt.mpr small)]

/-- The digits of a number, with the sign of its base in front, are read back. -/
theorem rereads_numeral (on : Switches Feature) (number : (numeral radix lead ds).kind ≠ .error)
    (starts : ∀ digits, digits ≠ [] → (∀ d ∈ digits, radix.isDigit d = true) →
      ∃ c cs, lead ++ digits = c :: cs ∧ Visible c ∧
        ∀ rest, read on c (cs ++ rest) = numeral radix lead (digits ++ rest)) :
    (numeral radix lead ds).Rereads on := by
  obtain ⟨digits, some, inside, small, same⟩ := numeral_cases number
  obtain ⟨c, cs, text, visible, reads⟩ := starts digits some inside
  have length : cs.length = lead.length + digits.length - 1 := by
    have := congrArg List.length text
    rw [length_append, length_cons] at this
    omega
  rw [same, Rereads]
  refine ⟨c, cs, by rw [← text]; exact String.toList_ofList, visible, fun rest separated => ?_⟩
  rw [reads, numeral_append some inside small separated, length]

theorem rereads_decimal (on : Switches Feature) (number : (numeral .decimal [] ds).kind ≠ .error) :
    (numeral .decimal [] ds).Rereads on := by
  refine rereads_numeral on number fun digits some inside => ?_
  obtain ⟨c, cs, rfl⟩ := exists_cons_of_ne_nil some
  have digit : isDigit c = true := inside c mem_cons_self
  have code := isDigit_iff.mp digit
  have noLetter : ¬ isLetter c = true := by
    rw [isLetter_iff]
    omega
  refine ⟨c, cs, rfl, visible_of_code (by omega), fun rest => ?_⟩
  rw [read, if_neg noLetter, if_pos digit]
  rfl

theorem rereads_octal (on : Switches Feature) (number : (numeral .octal ['&'] ds).kind ≠ .error) :
    (numeral .octal ['&'] ds).Rereads on :=
  rereads_numeral on number fun digits _ _ =>
    ⟨'&', digits, rfl, ⟨by decide, by decide, by decide⟩, fun _ => rfl⟩

theorem rereads_hexadecimal (on : Switches Feature) (number : (numeral .hexadecimal ['$'] ds).kind ≠ .error) :
    (numeral .hexadecimal ['$'] ds).Rereads on :=
  rereads_numeral on number fun digits _ _ =>
    ⟨'$', digits, rfl, ⟨by decide, by decide, by decide⟩, fun _ => rfl⟩

/-! ### Strings and operators -/

/-- A string that is read has a closing quote. -/
theorem quoted_cases (string : (quoted cs).kind ≠ .error) :
    ∃ contents, (∀ c ∈ contents, (c != '\'' && c != '\n') = true) ∧
      quoted cs = { kind := .string, value := String.ofList contents, more := contents.length + 1 } := by
  unfold quoted at string ⊢
  dsimp only at string ⊢
  split at string
  · next later closed =>
    refine ⟨cs.takeWhile fun c => c != '\'' && c != '\n', fun c member =>
      mem_takeWhile_imp (p := fun c => c != '\'' && c != '\n') member, ?_⟩
    rfl
  · exact absurd rfl string

theorem rereads_quoted (on : Switches Feature) (string : (quoted cs).kind ≠ .error) : (quoted cs).Rereads on := by
  obtain ⟨contents, inside, same⟩ := quoted_cases string
  rw [same, Rereads]
  refine ⟨'\'', contents ++ ['\''], by simp [Token.describe], ⟨by decide, by decide, by decide⟩,
    fun rest _ => ?_⟩
  have taken : (contents ++ '\'' :: rest).takeWhile (fun c => c != '\'' && c != '\n') = contents := by
    rw [takeWhile_append_of_pos inside, takeWhile_cons_of_neg (by decide), append_nil]
  have left : (contents ++ '\'' :: rest).dropWhile (fun c => c != '\'' && c != '\n') = '\'' :: rest := by
    rw [dropWhile_append_of_pos inside, dropWhile_cons_of_neg (by decide)]
  change quoted (contents ++ ['\''] ++ rest) = _
  rw [append_assoc, singleton_append, quoted]
  rw [taken, left, length_append]
  rfl

/-- The kinds of operators and punctuation. -/
def symbols : List Kind :=
  [.plus, .minus, .star, .eq, .ne, .lt, .le, .gt, .ge, .lparen, .rparen, .lbracket, .rbracket, .assign,
    .colon, .comma, .semi, .dot, .dotDot]

theorem symbol_cases (c : Char) (cs : List Char) : (symbol c cs).kind = .error ∨
    (symbol c cs).kind ∈ symbols ∧ (symbol c cs).value = "" ∧ (symbol c cs).number = 0 := by
  unfold symbol
  split <;> simp [symbols, error]

theorem rereads_of_spelling
    (text : k.spelling.toList = c :: cs) (visible : Visible c)
    (alone : read on c (cs ++ []) = { kind := k, more := cs.length })
    (before : ∀ rest, read on c (cs ++ ' ' :: rest) = { kind := k, more := cs.length }) :
    MiniPascal.Rereads on k "" 0 k.spelling.toList := by
  refine ⟨c, cs, text, visible, fun rest separated => ?_⟩
  cases rest with
  | nil => exact alone
  | cons d rest =>
    obtain rfl := separated d rfl
    exact before rest

theorem rereads_symbol (on : Switches Feature) (known : (symbol c cs).kind ≠ .error) : (symbol c cs).Rereads on := by
  obtain ⟨member, value, number⟩ := (symbol_cases c cs).resolve_left known
  rw [Rereads, value, number]
  generalize (symbol c cs).kind = k at member
  simp only [symbols, mem_cons, not_mem_nil, or_false] at member
  rcases member with rfl | rfl | rfl | rfl | rfl | rfl | rfl | rfl | rfl | rfl | rfl | rfl | rfl | rfl |
    rfl | rfl | rfl | rfl | rfl
  all_goals exact rereads_of_spelling rfl ⟨by decide, by decide, by decide⟩ rfl fun _ => rfl

/-- A lexeme that is no error is read back. -/
theorem rereads_read (on : Switches Feature) (known : (read on c cs).kind ≠ .error) : (read on c cs).Rereads on := by
  revert known
  unfold read
  split
  · next letter => exact fun _ => rereads_word on letter cs
  · split
    · exact rereads_decimal on
    · split
      · next sign =>
        subst sign
        exact rereads_octal on
      · split
        · next sign =>
          subst sign
          exact rereads_hexadecimal on
        · split
          · exact rereads_quoted on
          · exact rereads_symbol on

end Lexeme

/-! ## Texts of tokens -/

namespace Token

/-- A token is read back from the text that quotes it. -/
def Rereads (on : Switches Feature) (t : Token) : Prop :=
  MiniPascal.Rereads on t.kind t.value t.number t.describe.toList

theorem payload_congr {t u : Token} (kind : t.kind = u.kind) (value : t.value = u.value)
    (number : t.number = u.number) : t.payload = u.payload := by
  simp only [payload, identifierText, numericValue, stringValue, kind, value, number]

end Token

namespace Cursor

variable {on : Switches Feature} {file : Int} {at_ next : Cursor}

theorem rereads_scan (run : at_.scan on file = (t, next)) (some : t.kind ≠ .eof)
    (known : t.kind ≠ .error) : t.Rereads on := by
  unfold scan at run
  split at run
  · cases run
    exact absurd rfl known
  · split at run
    · cases run
      exact absurd rfl some
    · cases run
      exact Lexeme.rereads_read on known

theorem scan_nil (rest : at_.rest = []) :
    at_.scan on file = ({ kind := .eof, file, line := at_.line, column := at_.column }, at_) := by
  have skipped : at_.skip (on .braceComments) = .closed at_ := by
    rw [skip, rest]
    rfl
  rw [scan, skipped]
  dsimp only
  rw [rest]

/-- Reading starts behind a space. -/
theorem scan_space (rest : at_.rest = ' ' :: cs) :
    at_.scan on file = (at_.pass ' ' cs).scan on file := by
  have skipped : at_.skip (on .braceComments) = (at_.pass ' ' cs).skip (on .braceComments) := by
    rw [skip, skip, rest, rest_pass]
    rfl
  rw [scan, skipped]
  rfl

theorem skip_visible {braces : Bool} {c : Char} (rest : at_.rest = c :: cs)
    (visible : Visible c) : at_.skip braces = .closed at_ := by
  rw [skip, rest, skipFrom]
  simp [visible.space, visible.hash, visible.brace]

/-- The text of a token is read as that token. -/
theorem scan_of_rereads (file : Int) {t : Token} {rest : List Char} (back : t.Rereads on)
    (text : at_.rest = t.describe.toList ++ rest) (separated : Separated rest) :
    ∃ u next, at_.scan on file = (u, next) ∧ u.kind = t.kind ∧ u.payload = t.payload ∧ next.rest = rest := by
  obtain ⟨c, cs, spelling, visible, reads⟩ := back
  rw [spelling, cons_append] at text
  let x : Lexeme := { kind := t.kind, value := t.value, number := t.number, more := cs.length }
  refine ⟨at_.token file x, at_.advance (cs.length + 1), ?_, rfl, Token.payload_congr rfl rfl rfl, ?_⟩
  · rw [scan, skip_visible text visible]
    dsimp only
    rw [text]
    dsimp only
    rw [reads rest separated]
  · rw [rest_advance, text, drop_succ_cons, drop_left]

end Cursor

section Joined

variable {on : Switches Feature} {file : Int} {at_ next : Cursor}

theorem tokensFrom_of_scan (run : at_.scan on file = (t, next)) (some : t.kind ≠ .eof) :
    (tokensFrom on file at_).tokens = t :: (tokensFrom on file next).tokens := by
  rw [tokensFrom, run]
  dsimp only
  rw [dif_neg some]

theorem tokensFrom_space (rest : at_.rest = ' ' :: cs) :
    tokensFrom on file at_ = tokensFrom on file (at_.pass ' ' cs) := by
  rw [tokensFrom, Cursor.scan_space rest]
  exact (tokensFrom.eq_def on file _).symm

/-- Texts with spaces between them. -/
def joined (ts : List Token) : List Char := [' '].intercalate (ts.map fun t => t.describe.toList)

theorem joined_cons (t : Token) (ts : List Token) : ∃ rest, joined (t :: ts) = t.describe.toList ++ rest ∧
    (ts = [] ∧ rest = [] ∨ ts ≠ [] ∧ rest = ' ' :: joined ts) := by
  cases ts with
  | nil => exact ⟨[], by simp [joined], .inl ⟨rfl, rfl⟩⟩
  | cons u ts =>
    exact ⟨' ' :: joined (u :: ts), by simp [joined, intercalate_cons_cons], .inr ⟨by simp, rfl⟩⟩

/-- The texts of tokens with spaces between them are read as those tokens. -/
theorem tokensFrom_joined {ts : List Token} (some : ∀ t ∈ ts, t.kind ≠ .eof)
    (back : ∀ t ∈ ts, t.Rereads on) (text : at_.rest = joined ts) :
    (tokensFrom on file at_).tokens.map Token.payload = ts.map Token.payload := by
  induction ts generalizing at_ with
  | nil =>
    rw [tokensFrom, Cursor.scan_nil text]
    rfl
  | cons t ts ih =>
    obtain ⟨rest, split, shape⟩ := joined_cons t ts
    have separated : Separated rest := by
      rcases shape with ⟨-, rfl⟩ | ⟨-, rfl⟩ <;> simp [Separated]
    obtain ⟨u, next, run, kind, payload, behind⟩ := Cursor.scan_of_rereads file
      (back t mem_cons_self) (text.trans split) separated
    rw [tokensFrom_of_scan run (kind ▸ some t mem_cons_self), map_cons, map_cons, payload]
    have later {place : Cursor} (text : place.rest = joined ts) :=
      ih (fun t later => some t (mem_cons_of_mem _ later)) (fun t later => back t (mem_cons_of_mem _ later)) text
    rcases shape with ⟨rfl, rfl⟩ | ⟨-, rfl⟩
    · rw [later behind]
    · rw [tokensFrom_space behind, later (Cursor.rest_pass _ _ _)]

end Joined

namespace Reading

theorem payload_ending (r : Reading) : (r.token r.count).payload = (.eof, "", "", 0, "") := by
  rw [r.token_of_eof (r.eof_of_count_le (Nat.le_refl _))]
  rfl

end Reading

/-- What the tokens of a text say is read again from their texts with spaces between them. -/
theorem tokenize_joined_texts (on : Switches Feature) (file file' : Int) (source : String)
    (clean : ∀ t ∈ (tokenize on file source).tokens, t.kind ≠ .error) :
    let first := tokenize on file source
    let again := tokenize on file' (" ".intercalate (first.tokens.map Token.describe))
    (again.tokens ++ [again.closing]).map Token.payload = (first.tokens ++ [first.closing]).map Token.payload ∧
      again.closing.kind = .eof := by
  intro first again
  let r : Reading := ⟨on, file, source⟩
  let r' : Reading := ⟨on, file', " ".intercalate (first.tokens.map Token.describe)⟩
  have stream : first = { tokens := (List.range r.count).map r.token, closing := r.token r.count } := r.tokenize_eq
  have stream' : again = { tokens := (List.range r'.count).map r'.token, closing := r'.token r'.count } :=
    r'.tokenize_eq
  have some : ∀ t ∈ first.tokens, t.kind ≠ .eof := by
    rw [stream]
    intro t member
    obtain ⟨n, before, rfl⟩ := mem_map.mp member
    exact r.ne_eof_of_lt_count (mem_range.mp before)
  have back : ∀ t ∈ first.tokens, t.Rereads on := by
    intro t member
    have call : ∃ n, r.token n = t := by
      rw [stream] at member
      exact (mem_map.mp member).imp fun _ => And.right
    obtain ⟨n, rfl⟩ := call
    exact Cursor.rereads_scan (rfl : (r.reader n).scan on file = (r.token n, r.reader (n + 1)))
      (some _ member) (clean _ member)
  have tokens : again.tokens.map Token.payload = first.tokens.map Token.payload := by
    refine tokensFrom_joined some back ?_
    rw [Cursor.start, String.toList_intercalate, map_map]
    rfl
  refine ⟨?_, ?_⟩
  · rw [map_append, map_append, tokens, stream, stream']
    simp only [map_cons, map_nil, r.payload_ending, r'.payload_ending]
  · rw [stream']
    exact r'.eof_of_count_le (Nat.le_refl _)

/-- A text with comments, capital letters, a string and numbers in other bases. -/
def listing : String := "Begin \x7b say \x7d WriteLn('it:=' , $fF<>&17); # done\nend."

theorem tokenize_joined_texts_listing :
    let first := tokenize (fun _ => true) 0 listing
    let again := tokenize (fun _ => true) 1 "begin writeln ( 'it:=' , $fF <> &17 ) ; end ."
    (∀ t ∈ first.tokens, t.kind ≠ .error) ∧ (again.tokens ++ [again.closing]).map Token.payload =
        (first.tokens ++ [first.closing]).map Token.payload ∧
      again.closing.kind = .eof := by
  have clean : ∀ t ∈ (tokenize (fun _ => true) 0 listing).tokens, t.kind ≠ .error := by
    decide +kernel
  have texts : " ".intercalate ((tokenize (fun _ => true) 0 listing).tokens.map Token.describe) =
      "begin writeln ( 'it:=' , $fF <> &17 ) ; end ." := by
    decide +kernel
  have back := tokenize_joined_texts (fun _ => true) 0 1 listing clean
  dsimp only at back
  rw [texts] at back
  exact ⟨clean, back⟩

end MiniPascal
