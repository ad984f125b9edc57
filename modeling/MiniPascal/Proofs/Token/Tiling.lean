import Mathlib.Order.Nat
import MiniPascal.Proofs.Token.Place

/-!
# Tokens tile the text

A text is read by calls for the next token. `Reading.token n` is the token of call `n`, `Reading.start n`
the offset at which it starts and `Reading.stop n` the offset that the calls before it have come to. Each call
passes blanks and takes its token, so the tokens lie in the text in order and with nothing but blanks
between them, until the end is found, and found again by every later call (`tokens_tile_text`).
-/

namespace MiniPascal

/-! ## Offsets -/

/-- A reader of a text that has passed so many of its characters. -/
structure Cursor.At (source : String) (i : Nat) (at_ : Cursor) : Prop where
  le : i ≤ source.length
  eq : at_ = (Cursor.start source).advance i

namespace Cursor.At

variable {source : String} {i : Nat} {at_ : Cursor}

theorem start (source : String) : At source 0 (.start source) := ⟨Nat.zero_le _, rfl⟩

theorem rest (h : At source i at_) : at_.rest = source.toList.drop i := by
  rw [h.eq, rest_advance]
  rfl

theorem length_rest (h : At source i at_) : at_.rest.length = source.length - i := by
  rw [h.rest, List.length_drop, String.length_toList]

theorem offset (h : At source i at_) : source.length - at_.rest.length = i := by
  have := h.le
  rw [h.length_rest]
  omega

theorem behind (h : At source i at_) : at_.Behind (source.toList.take i) := by
  have := (behind_start source).advance i
  rwa [← h.eq] at this

/-- A reader that goes on stays in the text. -/
theorem advance (h : At source i at_) (inside : n ≤ at_.rest.length) : At source (i + n) (at_.advance n) where
  le := by
    have := h.le
    rw [h.length_rest] at inside
    omega
  eq := by rw [h.eq, ← advance_add]

theorem exists_advance (h : At source i at_) (n : Nat) : ∃ j, i ≤ j ∧ At source j (at_.advance n) := by
  by_cases inside : n ≤ at_.rest.length
  · exact ⟨i + n, Nat.le_add_right _ _, h.advance inside⟩
  · -- Going further than to the end is going to the end.
    have ended : (at_.advance at_.rest.length).rest = [] := by rw [rest_advance, List.drop_length]
    have same : at_.advance n = at_.advance at_.rest.length := by
      rw [← Nat.add_sub_of_le (Nat.le_of_not_le inside), advance_add, advance_nil ended]
    exact ⟨i + at_.rest.length, Nat.le_add_right _ _, same ▸ h.advance (Nat.le_refl _)⟩

end Cursor.At

/-! ## Calls -/

/-- A text that is read by calls for the next token. -/
structure Reading where
  on : Switches Feature
  file : Int
  source : String

namespace Reading

/-- The reader after so many calls. -/
def reader (r : Reading) : Nat → Cursor
  | 0 => .start r.source
  | n + 1 => ((r.reader n).scan r.on r.file).2

/-- The token of a call; calls count from 0. -/
def token (r : Reading) (n : Nat) : Token := ((r.reader n).scan r.on r.file).1

/-- The place at which the token of a call starts. -/
def place (r : Reading) (n : Nat) : Cursor := (r.reader n).next (r.on .braceComments)

/-- The offset that the calls before one have come to. -/
def stop (r : Reading) (n : Nat) : Nat := r.source.length - (r.reader n).rest.length

/-- The offset at which the token of a call starts. -/
def start (r : Reading) (n : Nat) : Nat := r.source.length - (r.place n).rest.length

variable (r : Reading)

/-- The end of the text, as a token at the place of a call. -/
def ending (n : Nat) : Token :=
  { kind := .eof, file := r.file, line := (r.place n).line, column := (r.place n).column }

theorem blanks_place (n : Nat) : ∃ k, r.place n = (r.reader n).advance k ∧
    Blanks (r.on .braceComments) (r.reader n).rest (r.place n).rest :=
  Cursor.blanks_next (r.on .braceComments) (r.reader n)

/-- A call finds the end of the text or takes a lexeme. -/
theorem call_cases (n : Nat) : (r.place n).rest = [] ∧ r.token n = r.ending n ∧ r.reader (n + 1) = r.place n ∨
    ∃ x : Lexeme, x.kind ≠ .eof ∧ x.more < (r.place n).rest.length ∧
      (x.kind = .error ∧ x.value = Cursor.unclosedComment ∨ '\n' ∉ (r.place n).rest.take (x.more + 1)) ∧
      r.token n = (r.place n).token r.file x ∧ r.reader (n + 1) = (r.place n).advance (x.more + 1) := by
  rcases Cursor.scan_cases r.on r.file (r.reader n) with ⟨ended, run⟩ | ⟨x, kind, short, oneLine, run⟩
  · exact .inl ⟨ended, congrArg Prod.fst run, congrArg Prod.snd run⟩
  · exact .inr ⟨x, kind, short, oneLine, congrArg Prod.fst run, congrArg Prod.snd run⟩

theorem token_file (n : Nat) : (r.token n).file = r.file := by
  rcases r.call_cases n with ⟨-, token, -⟩ | ⟨x, -, -, -, token, -⟩
  · rw [token]
    rfl
  · rw [token]
    rfl

theorem token_of_eof (eof : (r.token n).kind = .eof) : r.token n = r.ending n := by
  rcases r.call_cases n with ⟨-, token, -⟩ | ⟨x, kind, -, -, token, -⟩
  · exact token
  · rw [token] at eof
    exact absurd eof kind

theorem exists_at_reader (n : Nat) : ∃ i, Cursor.At r.source i (r.reader n) := by
  induction n with
  | zero => exact ⟨0, .start r.source⟩
  | succ n ih =>
    obtain ⟨i, here⟩ := ih
    obtain ⟨k, place, -⟩ := r.blanks_place n
    obtain ⟨j, -, there⟩ := here.exists_advance k
    rw [← place] at there
    rcases r.call_cases n with ⟨-, -, next⟩ | ⟨x, -, -, -, -, next⟩
    · exact ⟨j, next ▸ there⟩
    · obtain ⟨j', -, beyond⟩ := there.exists_advance (x.more + 1)
      exact ⟨j', next ▸ beyond⟩

theorem at_reader (n : Nat) : Cursor.At r.source (r.stop n) (r.reader n) := by
  obtain ⟨i, here⟩ := r.exists_at_reader n
  rw [stop, here.offset]
  exact here

theorem at_place (n : Nat) : r.stop n ≤ r.start n ∧ Cursor.At r.source (r.start n) (r.place n) := by
  obtain ⟨k, place, -⟩ := r.blanks_place n
  obtain ⟨j, le, there⟩ := (r.at_reader n).exists_advance k
  rw [← place] at there
  rw [start, there.offset]
  exact ⟨le, there⟩

/-- Between the calls before one and its token there are blanks. -/
theorem blanks_between (n : Nat) : Blanks (r.on .braceComments) (r.source.toList.drop (r.stop n))
    (r.source.toList.drop (r.start n)) := by
  obtain ⟨k, -, blanks⟩ := r.blanks_place n
  rwa [(r.at_reader n).rest, (r.at_place n).2.rest] at blanks

/-- The token of a call has the line and column of the place at which it starts. -/
theorem token_place (n : Nat) : (r.token n).line = lineBehind (r.source.toList.take (r.start n)) ∧
    (r.token n).column = columnBehind (r.source.toList.take (r.start n)) := by
  have behind := (r.at_place n).2.behind
  rw [← behind.line, ← behind.column]
  rcases r.call_cases n with ⟨-, token, -⟩ | ⟨x, -, -, -, token, -⟩
  · rw [token]
    exact ⟨rfl, rfl⟩
  · rw [token]
    exact ⟨rfl, rfl⟩

/-- A call that finds the end of the text leaves the next one to find it at the same place. -/
theorem of_eof (eof : (r.token n).kind = .eof) :
    (r.token n).length = 0 ∧ r.start n = r.source.length ∧ r.stop (n + 1) = r.source.length ∧
      r.token (n + 1) = r.token n := by
  rcases r.call_cases n with ⟨ended, token, next⟩ | ⟨x, kind, -, -, token, -⟩
  · have start : r.start n = r.source.length := by
      rw [Reading.start, ended]
      rfl
    have again : r.place (n + 1) = r.place n := by
      rw [place, next, Cursor.next, Cursor.skip, ended]
      rfl
    refine ⟨by rw [token]; rfl, start, by rw [stop, next]; exact start, ?_⟩
    rcases r.call_cases (n + 1) with ⟨-, token', -⟩ | ⟨x, -, short, -⟩
    · rw [token', token, ending, again]
      rfl
    · rw [again, ended] at short
      cases short
  · rw [token] at eof
    exact absurd eof kind

/-- A call that does not find the end takes characters. -/
theorem of_ne_eof (some : (r.token n).kind ≠ .eof) :
    1 ≤ (r.token n).length ∧ (r.stop (n + 1) : Int) = r.start n + (r.token n).length := by
  rcases r.call_cases n with ⟨-, token, -⟩ | ⟨x, -, short, -, token, next⟩
  · rw [token] at some
    exact absurd rfl some
  · have beyond := (r.at_place n).2.advance short
    rw [← next] at beyond
    have length : (r.token n).length = x.more + 1 := by rw [token]; rfl
    rw [length, stop, beyond.offset]
    omega

/-- The text of a token is on one line, unless it is a comment without end. -/
theorem oneLine_token (n : Nat) : (r.token n).kind = .error ∧ (r.token n).value = Cursor.unclosedComment ∨
      '\n' ∉ (r.source.toList.drop (r.start n)).take (r.token n).length.toNat := by
  rcases r.call_cases n with ⟨ended, token, -⟩ | ⟨x, -, -, oneLine, token, -⟩
  · right
    rw [← (r.at_place n).2.rest, ended]
    simp
  · rw [token, ← (r.at_place n).2.rest]
    exact oneLine

/-! ## The end of a text -/

theorem le_stop {n : Nat} (some : ∀ m < n, (r.token m).kind ≠ .eof) : n ≤ r.stop n := by
  induction n with
  | zero => exact Nat.zero_le _
  | succ n ih =>
    have before := ih fun m earlier => some m (Nat.lt_succ_of_lt earlier)
    have := r.of_ne_eof (some n (Nat.lt_succ_self n))
    have := (r.at_place n).1
    omega

theorem exists_eof : ∃ n, (r.token n).kind = .eof := by
  by_contra none
  have some := not_exists.mp none
  have := r.le_stop (n := r.source.length + 1) fun m _ => some m
  have := (r.at_reader (r.source.length + 1)).le
  omega

/-- The number of calls before the end of the text. -/
def count : Nat := Nat.find r.exists_eof

theorem ne_eof_of_lt_count (before : n < r.count) : (r.token n).kind ≠ .eof :=
  Nat.find_min r.exists_eof before

theorem count_le_length : r.count ≤ r.source.length :=
  (r.le_stop fun _ => r.ne_eof_of_lt_count).trans (r.at_reader r.count).le

theorem token_eq_of_count_le (behind : r.count ≤ n) : r.token n = r.token r.count := by
  induction n, behind using Nat.le_induction with
  | base => rfl
  | succ n _ ih =>
    have eof : (r.token n).kind = .eof := by
      rw [ih]
      exact Nat.find_spec r.exists_eof
    rw [(r.of_eof eof).2.2.2, ih]

theorem eof_of_count_le (behind : r.count ≤ n) : (r.token n).kind = .eof := by
  rw [r.token_eq_of_count_le behind]
  exact Nat.find_spec r.exists_eof

/-- A character in front of a token is in the text of an earlier one or in the blanks in front of one. -/
theorem covered_of_lt_start {n : Nat} (before : i < r.start n) :
    (∃ m < n, r.start m ≤ i ∧ i < r.stop (m + 1)) ∨ ∃ m ≤ n, r.stop m ≤ i ∧ i < r.start m := by
  induction n with
  | zero =>
    have first : r.stop 0 = 0 := (Cursor.At.start r.source).offset
    exact .inr ⟨0, Nat.le_refl _, by omega, before⟩
  | succ n ih =>
    by_cases blank : r.stop (n + 1) ≤ i
    · exact .inr ⟨n + 1, Nat.le_refl _, blank, before⟩
    · by_cases inside : r.start n ≤ i
      · exact .inl ⟨n, Nat.lt_succ_self n, inside, Nat.lt_of_not_le blank⟩
      · rcases ih (Nat.lt_of_not_le inside) with ⟨m, earlier, at_⟩ | ⟨m, earlier, at_⟩
        · exact .inl ⟨m, Nat.lt_succ_of_lt earlier, at_⟩
        · exact .inr ⟨m, Nat.le_succ_of_le earlier, at_⟩

/-- The stream of a text has the tokens of the calls. -/
theorem tokensFrom_reader (left : n + d = r.count) : tokensFrom r.on r.file (r.reader n) =
      { tokens := (List.range' n d).map r.token, closing := r.token r.count } := by
  have read : (r.reader n).scan r.on r.file = (r.token n, r.reader (n + 1)) := rfl
  rw [tokensFrom, read]
  dsimp only
  induction d generalizing n with
  | zero =>
    obtain rfl : n = r.count := left
    rw [dif_pos (r.eof_of_count_le (Nat.le_refl _))]
    rfl
  | succ d ih =>
    have read' : (r.reader (n + 1)).scan r.on r.file = (r.token (n + 1), r.reader (n + 2)) := rfl
    have later := ih (n := n + 1) (by omega) read'
    rw [dif_neg (r.ne_eof_of_lt_count (by omega)), tokensFrom, read']
    dsimp only
    rw [later]
    rfl

theorem tokenize_eq : tokenize r.on r.file r.source =
    { tokens := (List.range r.count).map r.token, closing := r.token r.count } := by
  rw [List.range_eq_range']
  exact r.tokensFrom_reader (Nat.zero_add _)

/-- How the tokens of a text lie in it, if `count` calls come before the end. -/
structure Tiling (r : Reading) (count : Nat) : Prop where
  first : r.stop 0 = 0
  gap : ∀ n, r.stop n ≤ r.start n ∧
    Blanks (r.on .braceComments) (r.source.toList.drop (r.stop n)) (r.source.toList.drop (r.start n))
  token : ∀ n < count, (r.token n).kind ≠ .eof ∧ 1 ≤ (r.token n).length ∧
    (r.stop (n + 1) : Int) = r.start n + (r.token n).length
  ending : ∀ n, count ≤ n → r.token n = r.token count ∧ (r.token n).kind = .eof ∧
    (r.token n).length = 0 ∧ r.start n = r.source.length
  covered : ∀ i < r.source.length, (∃ n < count, r.start n ≤ i ∧ i < r.stop (n + 1)) ∨
    ∃ n ≤ count, r.stop n ≤ i ∧ i < r.start n
  line : ∀ n, (r.token n).line = lineBehind (r.source.toList.take (r.start n))
  column : ∀ n, (r.token n).column = columnBehind (r.source.toList.take (r.start n))
  stream : tokenize r.on r.file r.source =
    { tokens := (List.range count).map r.token, closing := r.token count }

/-- The tokens of a text lie in it one behind the other with blanks between them, and the end is found
after at most as many calls as there are characters. -/
theorem tokens_tile_text : ∃ count ≤ r.source.length, r.Tiling count := by
  refine ⟨r.count, r.count_le_length, ?_⟩
  have start : r.start r.count = r.source.length := (r.of_eof (r.eof_of_count_le (Nat.le_refl _))).2.1
  exact {
    first := (Cursor.At.start r.source).offset
    gap := fun n => ⟨(r.at_place n).1, r.blanks_between n⟩
    token := fun n before =>
      ⟨r.ne_eof_of_lt_count before, r.of_ne_eof (r.ne_eof_of_lt_count before)⟩
    ending := fun n behind => by
      have eof := r.eof_of_count_le behind
      exact ⟨r.token_eq_of_count_le behind, eof, (r.of_eof eof).1, (r.of_eof eof).2.1⟩
    covered := fun i inside => r.covered_of_lt_start (by omega)
    line := fun n => (r.token_place n).1
    column := fun n => (r.token_place n).2
    stream := r.tokenize_eq }

end Reading

end MiniPascal
