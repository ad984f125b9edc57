import Mathlib.Data.List.DropRight
import Mathlib.Data.List.TakeWhile
import MiniPascal.Proofs.Tree.Shape

/-!
# Places in a text

A reader keeps a line and a column while it passes characters. `Cursor.Behind` says which text it has
passed to be there: the line counts the line breaks of that text, the column the characters behind the
last of them.

`Blanks` is the text that may stand between tokens, and skipping passes such text and nothing else
(`Cursor.blanks_next`). A token takes at least one character and, unless it is a comment without end, it
does not go on to another line (`Cursor.scan_cases`).
-/

open List

namespace MiniPascal

/-! ## Lines and columns -/

/-- The line behind a text, counted from 1. -/
def lineBehind (before : List Char) : Nat := 1 + before.count '\n'

/-- The column behind a text: the characters since its last line break, and one more. -/
def columnBehind (before : List Char) : Nat := 1 + (before.rtakeWhile (· != '\n')).length

namespace Cursor

/-- A reader has the line and the column behind a text. -/
structure Behind (before : List Char) (at_ : Cursor) : Prop where
  line : at_.line = lineBehind before
  column : at_.column = columnBehind before

theorem behind_start (source : String) : (start source).Behind [] := ⟨rfl, rfl⟩

theorem Behind.pass {before : List Char} {at_ : Cursor} (h : at_.Behind before) (c : Char)
    (cs : List Char) : (at_.pass c cs).Behind (before ++ [c]) := by
  unfold Cursor.pass
  split
  · next newline =>
    subst newline
    refine ⟨?_, ?_⟩
    · simp only [lineBehind, count_append, count_singleton_self, h.line]
      omega
    · rw [columnBehind, rtakeWhile_concat_neg _ _ _ (by simp)]
      rfl
  · next other =>
    refine ⟨?_, ?_⟩
    · simp only [lineBehind, count_append, h.line]
      rw [count_singleton, if_neg (by simpa using other), Nat.add_zero]
    · rw [columnBehind, rtakeWhile_concat_pos _ _ _ (by simpa using other), length_append,
        h.column, columnBehind]
      rfl

theorem advance_cons {at_ : Cursor} {c : Char} {cs : List Char} (rest : at_.rest = c :: cs) (n : Nat) :
    at_.advance (n + 1) = (at_.pass c cs).advance n := by
  rw [advance, rest]

theorem advance_nil {at_ : Cursor} (rest : at_.rest = []) (n : Nat) : at_.advance n = at_ := by
  cases n with
  | zero => rfl
  | succ n => rw [advance, rest]

theorem Behind.advance {before : List Char} {at_ : Cursor} (h : at_.Behind before) (n : Nat) :
    (at_.advance n).Behind (before ++ at_.rest.take n) := by
  induction n generalizing before at_ with
  | zero => simpa [Cursor.advance] using h
  | succ n ih =>
    cases rest : at_.rest with
    | nil => simpa [advance_nil rest] using h
    | cons c cs =>
      have later := ih (h.pass c cs)
      rw [rest_pass, append_assoc] at later
      rw [advance_cons rest]
      exact later

theorem advance_add (at_ : Cursor) (n m : Nat) : at_.advance (n + m) = (at_.advance n).advance m := by
  induction n generalizing at_ with
  | zero => rw [Nat.zero_add]; rfl
  | succ n ih =>
    cases rest : at_.rest with
    | nil => rw [advance_nil rest, advance_nil rest, advance_nil rest]
    | cons c cs => rw [Nat.add_right_comm, advance_cons rest, advance_cons rest, ih]

end Cursor

/-! ## Blanks -/

/-- A text is blanks in front of `rest`: white space, comments that go to the end of a line and, if
`braces` is set, comments in braces. -/
inductive Blanks (braces : Bool) : List Char → List Char → Prop
  | none : Blanks braces rest rest
  | space : Text.isSpace c = true → Blanks braces text rest → Blanks braces (c :: text) rest
  | lineComment :
    '\n' ∉ body → (∀ c ∈ text.head?, c = '\n') → Blanks braces text rest → Blanks braces ('#' :: (body ++ text)) rest
  | braceComment :
    braces = true → '\x7d' ∉ body → Blanks braces text rest → Blanks braces ('\x7b' :: (body ++ '\x7d' :: text)) rest

namespace Cursor

/-- What is passed from inside a blank: the rest of a comment, and blanks behind it. -/
def Passes (braces : Bool) : Blank → List Char → List Char → Prop
  | .space, text, rest => Blanks braces text rest
  | .lineComment, text, rest => ∃ body later, text = body ++ later ∧ '\n' ∉ body ∧
    (∀ c ∈ later.head?, c = '\n') ∧ Blanks braces later rest
  | .braceComment _, text, rest =>
    ∃ body later, text = body ++ '\x7d' :: later ∧ '\x7d' ∉ body ∧ Blanks braces later rest

/-- The place at which the next token starts. -/
def next (braces : Bool) (at_ : Cursor) : Cursor := (at_.skip braces).place

/-- Skipping passes the rest of the blank that it starts in and further blanks, or it finds no end of
that blank. -/
theorem passes_skipFrom (braces : Bool) (mode : Blank) (at_ : Cursor) {cs : List Char} (rest : at_.rest = cs) :
    (∃ k, (skipFrom braces mode at_ cs).place = at_.advance k ∧ Passes braces mode cs (cs.drop k)) ∨
      ∃ opening, mode = .braceComment opening ∧ skipFrom braces mode at_ cs = .unclosed opening := by
  induction cs generalizing mode at_ with
  | nil =>
    cases mode with
    | space => exact .inl ⟨0, rfl, .none⟩
    | lineComment => exact .inl ⟨0, rfl, [], [], rfl, not_mem_nil, by simp, .none⟩
    | braceComment opening => exact .inr ⟨opening, rfl, rfl⟩
  | cons c cs ih =>
    have step (mode : Blank) := ih mode (at_.pass c cs) (rest_pass at_ c cs)
    have behind (k : Nat) : (at_.pass c cs).advance k = at_.advance (k + 1) := (advance_cons rest k).symm
    unfold skipFrom
    cases mode with
    | space =>
      dsimp only
      split
      · next space =>
        obtain ⟨k, place, passed⟩ | ⟨_, ⟨⟩, _⟩ := step .space
        exact .inl ⟨k + 1, place.trans (behind k), .space space passed⟩
      · split
        · next hash =>
          subst hash
          obtain ⟨k, place, body, later, rfl, oneLine, ends, passed⟩ | ⟨_, ⟨⟩, _⟩ := step .lineComment
          exact .inl ⟨k + 1, place.trans (behind k), .lineComment oneLine ends passed⟩
        · split
          · next brace =>
            obtain ⟨rfl, allowed⟩ : c = '\x7b' ∧ braces = true := by simpa using brace
            obtain ⟨k, place, body, later, rfl, open_, passed⟩ | ⟨_, ⟨⟩, unclosed⟩ := step (.braceComment at_)
            · exact .inl ⟨k + 1, place.trans (behind k), .braceComment allowed open_ passed⟩
            · exact .inl ⟨0, by rw [unclosed]; rfl, .none⟩
          · exact .inl ⟨0, rfl, .none⟩
    | lineComment =>
      dsimp only
      split
      · next newline =>
        subst newline
        obtain ⟨k, place, passed⟩ | ⟨_, ⟨⟩, _⟩ := step .space
        exact .inl ⟨k + 1, place.trans (behind k), [], '\n' :: cs, rfl, not_mem_nil, by simp,
          .space (by decide) passed⟩
      · next other =>
        obtain ⟨k, place, body, later, rfl, oneLine, ends, passed⟩ | ⟨_, ⟨⟩, _⟩ := step .lineComment
        refine .inl ⟨k + 1, place.trans (behind k), c :: body, later, rfl, ?_, ends, passed⟩
        simpa [Ne.symm other] using oneLine
    | braceComment opening =>
      dsimp only
      split
      · next brace =>
        subst brace
        obtain ⟨k, place, passed⟩ | ⟨_, ⟨⟩, _⟩ := step .space
        exact .inl ⟨k + 1, place.trans (behind k), [], cs, rfl, not_mem_nil, passed⟩
      · next other =>
        obtain ⟨k, place, body, later, rfl, open_, passed⟩ | ⟨_, ⟨⟩, unclosed⟩ := step (.braceComment opening)
        · refine .inl ⟨k + 1, place.trans (behind k), c :: body, later, rfl, ?_, passed⟩
          simpa [Ne.symm other] using open_
        · exact .inr ⟨_, rfl, unclosed⟩

/-- Between two tokens there are blanks. -/
theorem blanks_next (braces : Bool) (at_ : Cursor) :
    ∃ k, at_.next braces = at_.advance k ∧ Blanks braces at_.rest (at_.next braces).rest := by
  obtain ⟨k, place, passed⟩ | ⟨_, ⟨⟩, _⟩ := passes_skipFrom braces .space at_ rfl
  refine ⟨k, place, ?_⟩
  rw [show at_.next braces = at_.advance k from place, rest_advance]
  exact passed

end Cursor

/-! ## Lexemes -/

namespace Lexeme

/-- A lexeme takes characters of the text that it is read off, all of them on one line. -/
structure Spans (x : Lexeme) (text : List Char) : Prop where
  more_lt : x.more < text.length
  oneLine : '\n' ∉ text.take (x.more + 1)

/-- A lexeme that takes the first of two parts of a text. -/
theorem Spans.of_split {x : Lexeme} {text : List Char} (taken rest : List Char)
    (split : text = taken ++ rest) (length : x.more + 1 = taken.length) (oneLine : '\n' ∉ taken) :
    x.Spans text where
  more_lt := by
    rw [split, length_append]
    omega
  oneLine := by rwa [split, length, take_left]

theorem not_mem_takeWhile {p : Char → Bool} (h : p '\n' = false) (cs : List Char) :
    '\n' ∉ cs.takeWhile p := fun member => by
  rw [mem_takeWhile_imp member] at h
  cases h

theorem spans_word (fold : Bool) {c : Char} (letter : isLetter c = true) (cs : List Char) :
    (word fold c cs).Spans (c :: cs) := by
  have more : (word fold c cs).more = (cs.takeWhile isWordChar).length := by
    unfold word
    dsimp only
    split <;> rfl
  refine .of_split (c :: cs.takeWhile isWordChar) (cs.dropWhile isWordChar) (by simp)
    (by rw [more]; rfl) ?_
  rw [mem_cons, not_or]
  refine ⟨?_, not_mem_takeWhile (by decide) cs⟩
  rintro rfl
  exact absurd letter (by decide)

theorem spans_numeral (radix : Radix) (lead ds : List Char) (oneLine : '\n' ∉ lead)
    (some : lead ++ ds.takeWhile radix.isDigit ≠ []) : (numeral radix lead ds).Spans (lead ++ ds) := by
  have noBreak : '\n' ∉ lead ++ ds.takeWhile radix.isDigit :=
    not_mem_append oneLine (not_mem_takeWhile (by cases radix <;> decide) ds)
  have length := length_pos_iff.mpr some
  rw [length_append] at length
  have digits (x : Lexeme) (more : x.more = lead.length + (ds.takeWhile radix.isDigit).length - 1) :
      x.Spans (lead ++ ds) := by
    refine .of_split _ (ds.dropWhile radix.isDigit) (by simp) ?_ noBreak
    rw [more, length_append]
    omega
  unfold numeral
  dsimp only
  split
  · exact digits _ rfl
  · split
    · -- The letters and digits behind the number belong to the error.
      have visible : '\n' ∉ (ds.dropWhile radix.isDigit).takeWhile isLetterOrDigit := not_mem_takeWhile (by decide) _
      refine .of_split _ ((ds.dropWhile radix.isDigit).dropWhile isLetterOrDigit) (by simp) ?_
        (not_mem_append noBreak visible)
      rw [length_append, length_append]
      dsimp only [error]
      omega
    · split <;> exact digits _ rfl

theorem spans_quoted (cs : List Char) : (quoted cs).Spans ('\'' :: cs) := by
  unfold quoted
  dsimp only
  generalize inside : (fun c => c != '\'' && c != '\n') = isInside
  have noBreak : '\n' ∉ cs.takeWhile isInside := not_mem_takeWhile (by rw [← inside]; decide) cs
  have whole := takeWhile_append_dropWhile (p := isInside) (l := cs)
  split
  · next later closed =>
    rw [closed] at whole
    exact .of_split ('\'' :: (cs.takeWhile isInside ++ ['\''])) later (by simpa using whole.symm)
      (by simp) (by simpa using noBreak)
  · exact .of_split ('\'' :: cs.takeWhile isInside) (cs.dropWhile isInside) (by simp) rfl
      (by simpa using noBreak)

theorem spans_symbol (visible : c ≠ '\n') (cs : List Char) : (symbol c cs).Spans (c :: cs) := by
  have more : (symbol c cs).more = 0 ∨ ∃ d later, cs = d :: later ∧ d ≠ '\n' ∧ (symbol c cs).more = 1 := by
    unfold symbol
    split <;> simp [error]
  rcases more with one | ⟨d, later, rfl, visible', two⟩
  · exact .of_split [c] cs rfl (by rw [one]; rfl) (by simpa using visible.symm)
  · exact .of_split [c, d] later rfl (by rw [two]; rfl) (by simpa using ⟨visible.symm, visible'.symm⟩)

/-- What is read at a character that is no blank. -/
theorem spans_read (on : Switches Feature) (visible : c ≠ '\n') (cs : List Char) :
    (read on c cs).Spans (c :: cs) := by
  have alone : '\n' ∉ [c] := by simpa using visible.symm
  unfold read
  split
  · next letter => exact spans_word _ letter cs
  · split
    · next digit =>
      refine spans_numeral .decimal [] (c :: cs) not_mem_nil ?_
      rw [nil_append, takeWhile_cons_of_pos (p := Radix.decimal.isDigit) digit]
      exact cons_ne_nil _ _
    · split
      · exact spans_numeral .octal [c] cs alone (cons_ne_nil _ _)
      · split
        · exact spans_numeral .hexadecimal [c] cs alone (cons_ne_nil _ _)
        · split
          · next quote => exact quote ▸ spans_quoted cs
          · exact spans_symbol visible cs

end Lexeme

/-! ## Tokens -/

namespace Cursor

/-- Skipping stops in front of what is no white space. -/
theorem visible_of_closed {braces : Bool} {next : Cursor}
    (rest : at_.rest = cs) (closed : skipFrom braces mode at_ cs = .closed next) :
    ∀ c ∈ next.rest.head?, Text.isSpace c = false := by
  induction cs generalizing mode at_ with
  | nil =>
    cases mode with
    | braceComment opening => cases closed
    | _ =>
      cases closed
      simp [rest]
  | cons c cs ih =>
    have step {mode : Blank} (closed : skipFrom braces mode (at_.pass c cs) cs = .closed next) :=
      ih (rest_pass at_ c cs) closed
    unfold skipFrom at closed
    cases mode with
    | space =>
      dsimp only at closed
      split at closed
      · exact step closed
      · next visible =>
        split at closed
        · exact step closed
        · split at closed
          · exact step closed
          · cases closed
            simpa [rest] using visible
    | lineComment | braceComment opening =>
      dsimp only at closed
      split at closed <;> exact step closed

/-- The complaint about a comment that is never closed. -/
def unclosedComment : String := "unterminated comment"

/-- Reading finds the end of the text, or a lexeme that takes characters from where it starts on. A
lexeme stays on one line if it is not the rest of the text, as a comment without end. -/
theorem scan_cases (on : Switches Feature) (file : Int) (at_ : Cursor) :
    let c := at_.next (on .braceComments)
    (c.rest = [] ∧ at_.scan on file = ({ kind := .eof, file, line := c.line, column := c.column }, c)) ∨
      ∃ x : Lexeme, x.kind ≠ .eof ∧ x.more < c.rest.length ∧
        (x.kind = .error ∧ x.value = unclosedComment ∨ '\n' ∉ c.rest.take (x.more + 1)) ∧
        at_.scan on file = (c.token file x, c.advance (x.more + 1)) := by
  intro c
  have place : (at_.skip (on .braceComments)).place = c := rfl
  unfold scan
  cases gap : at_.skip (on .braceComments) with
  | unclosed opening =>
    obtain rfl : opening = c := by rw [← place, gap]; rfl
    have some := (skipFrom_bounds (on .braceComments) .space at_ rfl (Nat.le_refl _) (by simp)).2 _ gap
    refine .inr ⟨.error unclosedComment (c.rest.length - 1), Kind.noConfusion, ?_, .inl ⟨rfl, rfl⟩, ?_⟩
    · exact Nat.sub_lt some Nat.one_pos
    · rw [show (Lexeme.error unclosedComment (c.rest.length - 1)).more + 1 = c.rest.length from
        Nat.sub_add_cancel some]
      rfl
  | closed next =>
    obtain rfl : next = c := by rw [← place, gap]; rfl
    have visible := visible_of_closed rfl gap
    dsimp only
    split
    · next ended => exact .inl ⟨ended, rfl⟩
    · next d cs more =>
      have shown : d ≠ '\n' := by
        rintro rfl
        exact absurd (visible '\n' (by rw [more]; rfl)) (by decide)
      have spans := Lexeme.spans_read on shown cs
      rw [← more] at spans
      exact .inr ⟨_, (Lexeme.lexical_read on d cs).notEof, spans.more_lt, .inr spans.oneLine, rfl⟩

end Cursor

end MiniPascal
