import MiniPascal.Compile
import MiniPascal.Proofs.Lower.Paired

/-!
# Diagnostics point at the offending text

A diagnostic is shown with a line of the source and an underline below it. The line is the one in
which the token of the diagnostic starts, for a token has the number of that line, and the underline
starts below the token, for it has that column. The tokens of the diagnostics are those that reading
the source returned, and no token but a comment without end goes on to another line. So what is
underlined is the text of the token. Only the end of the source has no text, and a caret all the
same: it stands behind the last line.
-/

open List

namespace MiniPascal

open Display

/-! ## Lines -/

namespace Display

theorem lines_eq_splitOn (cs : List Char) : lines cs = cs.splitOn '\n' := by
  induction cs with
  | nil => rfl
  | cons c cs ih =>
    rw [lines, splitOn_cons_eq_if_modifyHead, ih]
    by_cases newline : c = '\n'
    · rw [if_pos newline, if_pos (by simpa using newline)]
    · rw [if_neg newline, if_neg (by simpa using newline)]
      cases split : cs.splitOn '\n' with
      | nil => exact absurd split (splitOn_ne_nil _ _)
      | cons l ls => rfl

theorem lines_append_newline (cs ds : List Char) : lines (cs ++ '\n' :: ds) = lines cs ++ lines ds := by
  simp only [lines_eq_splitOn, splitOn_append_cons_self]

theorem length_lines (cs : List Char) : (lines cs).length = cs.count '\n' + 1 := by
  induction cs with
  | nil => rfl
  | cons c cs ih =>
    rw [lines_eq_splitOn] at ih ⊢
    rw [splitOn_cons_eq_if_modifyHead, count_cons]
    split
    · rw [length_cons, ih]
    · rw [length_modifyHead, ih]

theorem head_lines (cs : List Char) : (lines cs)[0]? = some (cs.takeWhile (· != '\n')) := by
  induction cs with
  | nil => rfl
  | cons c cs ih =>
    rw [lines_eq_splitOn] at ih ⊢
    rw [splitOn_cons_eq_if_modifyHead, takeWhile_cons]
    by_cases newline : c = '\n'
    · simp [newline]
    · simp [newline, ih]

/-- The line that goes on behind some text is numbered by the line breaks of that text. -/
theorem lines_behind (before rest : List Char) : (lines (before ++ rest))[before.count '\n']? =
    some (before.rtakeWhile (· != '\n') ++ rest.takeWhile (· != '\n')) := by
  -- The induction takes characters from the end of the text, where the line is.
  induction before using List.reverseRecOn generalizing rest with
  | nil => exact head_lines rest
  | append_singleton before c ih =>
    rw [append_assoc, singleton_append]
    by_cases newline : c = '\n'
    · subst newline
      have count : (before ++ ['\n']).count '\n' = (lines before).length := by
        rw [length_lines, count_append, count_singleton_self]
      rw [lines_append_newline, count, getElem?_append_right (Nat.le_refl _), Nat.sub_self, head_lines,
        rtakeWhile_concat_neg _ _ _ (by simp)]
      rfl
    · have other : (c != '\n') = true := by simpa using newline
      have count : (before ++ [c]).count '\n' = before.count '\n' := by
        rw [count_append, count_singleton, if_neg (by simpa using newline), Nat.add_zero]
      rw [count, ih, takeWhile_cons, if_pos other, rtakeWhile_concat_pos _ _ _ (by simpa using newline),
        append_assoc, singleton_append]

/-- A line that the source has is shown. -/
theorem sourceLine_of_getElem?
    (found : (lines source.toList)[(line - 1).toNat]? = some l) : sourceLine source line = String.ofList l := by
  obtain ⟨inside, -⟩ := List.getElem?_eq_some_iff.mp found
  unfold sourceLine
  dsimp only
  rw [Nat.min_eq_left (Nat.le_sub_one_of_lt inside), found]
  rfl

end Display

/-! ## Tokens in their lines -/

namespace Reading

variable (r : Reading) (n : Nat)

/-- The line in which the token of a call starts: what stands in front of the token, and the rest. -/
def line : List Char :=
  (r.source.toList.take (r.start n)).rtakeWhile (· != '\n') ++ (r.source.toList.drop (r.start n)).takeWhile (· != '\n')

theorem line_pos : 1 ≤ (r.token n).line := by
  rw [(r.token_place n).1, lineBehind]
  omega

theorem column_pos : 1 ≤ (r.token n).column := by
  rw [(r.token_place n).2, columnBehind]
  omega

theorem lines_line : (lines r.source.toList)[((r.token n).line - 1).toNat]? = some (r.line n) := by
  have behind := lines_behind (r.source.toList.take (r.start n)) (r.source.toList.drop (r.start n))
  rw [take_append_drop] at behind
  have number : ((r.token n).line - 1).toNat = (r.source.toList.take (r.start n)).count '\n' := by
    rw [(r.token_place n).1, lineBehind]
    omega
  rw [number, behind, line]

/-- The column of a token tells how much of its line is in front of it. -/
theorem column_sub_one : ((r.token n).column - 1).toNat =
    ((r.source.toList.take (r.start n)).rtakeWhile (· != '\n')).length := by
  rw [(r.token_place n).2, columnBehind]
  omega

theorem drop_line : (r.line n).drop ((r.token n).column - 1).toNat =
    (r.source.toList.drop (r.start n)).takeWhile (· != '\n') := by
  rw [line, column_sub_one, drop_left]

theorem length_line : (r.line n).length = ((r.token n).column - 1).toNat +
    ((r.source.toList.drop (r.start n)).takeWhile (· != '\n')).length := by
  rw [line, column_sub_one, length_append]

theorem length_token : 0 ≤ (r.token n).length ∧
    (r.token n).length.toNat ≤ (r.source.toList.drop (r.start n)).length := by
  by_cases eof : (r.token n).kind = .eof
  · rw [(r.of_eof eof).1]
    exact ⟨Int.le_refl _, Nat.zero_le _⟩
  · have := r.of_ne_eof eof
    have := (r.at_reader (n + 1)).le
    rw [length_drop, String.length_toList]
    omega

/-- The text of a token on one line lies in its line, from its column on. -/
theorem text_in_line (oneLine : '\n' ∉ (r.source.toList.drop (r.start n)).take (r.token n).length.toNat) :
    ((r.line n).drop ((r.token n).column - 1).toNat).take (r.token n).length.toNat =
        (r.source.toList.drop (r.start n)).take (r.token n).length.toNat ∧
      (r.token n).column - 1 + (r.token n).length ≤ (r.line n).length := by
  obtain ⟨length, inside⟩ := r.length_token n
  have lineLength := r.length_line n
  rw [r.drop_line n]
  generalize r.source.toList.drop (r.start n) = text at *
  generalize size : (r.token n).length.toNat = k at *
  have visible : ∀ c ∈ text.take k, (c != '\n') = true := by
    intro c member
    simpa using ne_of_mem_of_not_mem member oneLine
  have whole : text.takeWhile (· != '\n') = text.take k ++ (text.drop k).takeWhile (· != '\n') := by
    rw [← takeWhile_append_of_pos visible, take_append_drop]
  have taken : (text.take k).length = k := length_take_of_le inside
  rw [whole] at lineLength ⊢
  refine ⟨take_left' taken, ?_⟩
  rw [length_append, taken] at lineLength
  omega

/-- The end of the text is behind its last line. -/
theorem column_of_eof {n : Nat} (eof : (r.token n).kind = .eof) : (r.token n).column = (r.line n).length + 1 := by
  have column := r.column_pos n
  have length := r.length_line n
  rw [(r.of_eof eof).2.1, drop_of_length_le (Nat.le_of_eq String.length_toList)] at length
  rw [takeWhile_nil, length_nil] at length
  omega

end Reading

/-! ## Tokens of diagnostics -/

theorem SyntaxFault.tok_diagnostic (f : SyntaxFault) : f.diagnostic.tok = f.token := by
  cases f <;> rfl

theorem Failure.partsOfAll_diagnostics (ds : List Diagnostic) : partsOfAll (ds.map diagnostic) = ds.map diagnostic := by
  induction ds with
  | nil => rfl
  | cons d ds ih => rw [map_cons, partsOfAll, ih]; rfl

/-- A source that is not lowered has diagnostics, each at a token that reading the source returned. -/
theorem diagnostics_of_lowerSource
    (failed : (lowerSource settings source).result = .error f) :
    ∃ ds : List Diagnostic, ds ≠ [] ∧ f.parts = ds.map .diagnostic ∧
      ∀ d ∈ ds, ∃ n, d.tok = Reading.token ⟨settings.features, 0, source⟩ n := by
  rcases (Reading.Counterpart.refl ⟨settings.features, 0, source⟩).compare (settings.features .negExpr)
    settings with ⟨e, e', parsed, -, same⟩ | ⟨t, t', parsed, parsed', -, code, -⟩
  · have read : Tree.ofSource settings.features source = .error e := parsed
    unfold lowerSource parseSource at failed
    rw [read] at failed
    cases failed
    obtain ⟨n, token, -⟩ := same.token
    refine ⟨[e.diagnostic], cons_ne_nil _ _, rfl, List.forall_mem_singleton.mpr ⟨n, ?_⟩⟩
    rw [SyntaxFault.tok_diagnostic, token]
  · have read : Tree.ofSource settings.features source = .ok t := parsed
    unfold lowerSource parseSource at failed
    rw [read] at failed
    dsimp only [Except.mapError, lowerTree] at failed
    cases parsed.symm.trans parsed'
    rcases code with ⟨p, lowered, -⟩ | ⟨ds, ds', lowered, lowered', some, -, each⟩
    · rw [lowered] at failed
      cases failed
    · rw [lowered] at failed
      cases failed
      cases lowered.symm.trans lowered'
      refine ⟨ds, some, Failure.partsOfAll_diagnostics ds, fun d member => ?_⟩
      obtain ⟨n, token, -⟩ := (List.forall₂_same.mp each d member).tok
      exact ⟨n, token⟩

/-! ## Reports -/

theorem Display.pushn_eq (s : String) (c : Char) (n : Nat) : s.pushn c n = s ++ String.ofList (List.replicate n c) := by
  induction n with
  | zero => simp [String.pushn, Nat.repeat]
  | succ n ih =>
    have step : s.pushn c (n + 1) = (s.pushn c n).push c := rfl
    rw [step, ih, replicate_succ', String.ofList_append, ← String.append_assoc]
    rfl

/-- Of a diagnostic at the token of a call, a display shows a line of the source and an underline
below the text of the token in that line. -/
structure PointsAt (v : Display) (name : String) (r : Reading) (d : Diagnostic) (n : Nat)
    (shown : List Char) (bar : String) : Prop where
  token : d.tok = r.token n
  line_pos : 1 ≤ d.tok.line
  column_pos : 1 ≤ d.tok.column
  line : (r.source.toList.splitOn '\n')[(d.tok.line - 1).toNat]? = some shown
  underline : bar = "^" ++ String.ofList (List.replicate (d.tok.length - 1).toNat '~')
  report : v.reportPart (.diagnostic d) =
    name ++ ":" ++ toString d.tok.line ++ ":" ++ toString d.tok.column ++ ": " ++
      v.paint "31;1" (d.category.label ++ ":") ++ " " ++ d.message ++ "\n" ++
      ("  " ++ String.ofList shown ++ "\n" ++
        ("  " ++ String.ofList (List.replicate (d.tok.column - 1).toNat ' ')) ++
          v.paint "32" bar ++ "\n")
  /-- A token that is no comment without end lies in the line, from its column on. -/
  text : ¬ (d.tok.kind = .error ∧ d.tok.value = Cursor.unclosedComment) →
    (shown.drop (d.tok.column - 1).toNat).take d.tok.length.toNat =
        (r.source.toList.drop (r.start n)).take d.tok.length.toNat ∧
      d.tok.column - 1 + d.tok.length ≤ shown.length
  /-- The underline is as long as the token, and not longer than the line, unless the token is the
  end of the source. -/
  within : d.tok.kind ≠ .eof → 1 ≤ d.tok.length ∧ bar.length = d.tok.length ∧
    (¬ (d.tok.kind = .error ∧ d.tok.value = Cursor.unclosedComment) →
      d.tok.column - 1 + bar.length ≤ shown.length)
  /-- The end of the source has no text. The caret for it is right behind the last line. -/
  ending : d.tok.kind = .eof → d.tok.length = 0 ∧ d.tok.column = shown.length + 1 ∧ bar = "^"

section Points

variable {v : Display} {name : String} {r : Reading} {n : Nat}

theorem Display.file?_token (file : r.file = 0) (quoted : v.files[0]? = some ⟨name, r.source⟩) :
    v.file? (r.token n) = some ⟨name, r.source⟩ := by
  rw [file?, r.token_file, file]
  exact quoted

theorem Display.excerpt_token (found : v.file? (r.token n) = some ⟨name, r.source⟩) :
    v.excerpt (r.token n) = "  " ++ String.ofList (r.line n) ++ "\n" ++
      ("  " ++ String.ofList (List.replicate ((r.token n).column - 1).toNat ' ')) ++
        v.paint "32" ("^" ++ String.ofList (List.replicate ((r.token n).length - 1).toNat '~')) ++ "\n" := by
  have line := r.line_pos n
  have indent (k : Nat) : "".pushn ' ' (2 + k) = "  " ++ String.ofList (List.replicate k ' ') := by
    rw [pushn_eq, replicate_add, String.ofList_append, String.empty_append]
    rfl
  unfold excerpt
  rw [found]
  dsimp only
  rw [if_neg (by omega), sourceLine_of_getElem? (r.lines_line n), indent, underline, pushn_eq]

theorem Display.reportPart_diagnostic (d : Diagnostic)
    (found : v.file? d.tok = some ⟨name, source⟩) : v.reportPart (.diagnostic d) =
      name ++ ":" ++ toString d.tok.line ++ ":" ++ toString d.tok.column ++ ": " ++
        v.paint "31;1" (d.category.label ++ ":") ++ " " ++ d.message ++ "\n" ++ v.excerpt d.tok := by
  unfold reportPart
  dsimp only [Failure.diagnostic?]
  rw [place, found]

/-- The underline of a token with text is as long as the token. -/
theorem length_bar {length : Int} (some : 1 ≤ length) :
    (("^" ++ String.ofList (List.replicate (length - 1).toNat '~')).length : Int) = length := by
  have width : ("^" ++ String.ofList (List.replicate (length - 1).toNat '~')).length =
      1 + (length - 1).toNat := by
    simp
    rfl
  omega

/-- A diagnostic at a token points at the token. -/
theorem pointsAt_token (file : r.file = 0) (quoted : v.files[0]? = some ⟨name, r.source⟩)
 (token : d.tok = r.token n) : PointsAt v name r d n (r.line n)
      ("^" ++ String.ofList (List.replicate (d.tok.length - 1).toNat '~')) := by
  have found : v.file? (r.token n) = some ⟨name, r.source⟩ := file?_token file quoted
  have report := reportPart_diagnostic d (token ▸ found)
  rw [token, excerpt_token found, ← token] at report
  have inLine (closed : ¬ (d.tok.kind = .error ∧ d.tok.value = Cursor.unclosedComment)) :
      (((r.line n).drop (d.tok.column - 1).toNat).take d.tok.length.toNat =
          (r.source.toList.drop (r.start n)).take d.tok.length.toNat) ∧
        d.tok.column - 1 + d.tok.length ≤ (r.line n).length := by
    rw [token] at closed ⊢
    exact r.text_in_line n ((r.oneLine_token n).resolve_left closed)
  refine { token, report, underline := rfl, text := inLine, line_pos := ?_, column_pos := ?_,
           line := ?_, within := fun other => ?_, ending := fun eof => ?_ }
  · exact token ▸ r.line_pos n
  · exact token ▸ r.column_pos n
  · rw [← lines_eq_splitOn, token]
    exact r.lines_line n
  · have some : 1 ≤ d.tok.length := by
      rw [token] at other ⊢
      exact (r.of_ne_eof other).1
    refine ⟨some, length_bar some, fun closed => ?_⟩
    rw [length_bar some]
    exact (inLine closed).2
  · rw [token] at eof ⊢
    obtain ⟨none, -⟩ := r.of_eof eof
    exact ⟨none, r.column_of_eof eof, by rw [none]; rfl⟩

end Points

/-- A source that is not read or not lowered is reported by diagnostics, each at a token that reading
the source returned and with that token underlined in its line. -/
theorem report_points_at_text {settings : Settings} {source name : String} {f : Failure}
    {v : Display} (failed : (lowerSource settings source).result = .error f)
    (quoted : v.files[0]? = some ⟨name, source⟩) :
    ∃ ds : List Diagnostic, ds ≠ [] ∧ f.parts = ds.map .diagnostic ∧
      v.report f = String.join (ds.map fun d => v.reportPart (.diagnostic d)) ∧
      ∀ d ∈ ds, ∃ n shown bar, PointsAt v name ⟨settings.features, 0, source⟩ d n shown bar := by
  obtain ⟨ds, some, parts, returned⟩ := diagnostics_of_lowerSource failed
  refine ⟨ds, some, parts, ?_, fun d member => ?_⟩
  · rw [report, parts, map_map]
    rfl
  · obtain ⟨n, token⟩ := returned d member
    exact ⟨n, _, _, pointsAt_token rfl quoted token⟩

/-- A program that uses two variables it does not declare. -/
def undeclared : String := "program p;\nbegin\n  x := y\nend."

theorem report_points_at_text_undeclared : ∃ f ds, (lowerSource {} undeclared).result = .error f ∧
    f.parts = ds.map .diagnostic ∧ ds ≠ [] ∧
    ∀ d ∈ ds, ∃ n shown bar, PointsAt ⟨[⟨"p.pas", undeclared⟩], false⟩ "p.pas"
      ⟨Feature.extended, 0, undeclared⟩ d n shown bar := by
  have fails : (lowerSource {} undeclared).result.toOption.isNone = true := by decide +kernel
  cases result : (lowerSource {} undeclared).result with
  | ok p =>
    rw [result] at fails
    cases fails
  | error f =>
    obtain ⟨ds, some, parts, -, points⟩ :=
      report_points_at_text (v := ⟨[⟨"p.pas", undeclared⟩], false⟩) result rfl
    exact ⟨f, ds, rfl, parts, some, points⟩

/-- A program without its dot. -/
def cutOff : String := "program p; begin end"

/-- The caret for the end of a source is in column 21 of a line of 20 characters. -/
theorem report_points_behind_line : cutOff.length = 20 ∧ ∃ f,
    (lowerSource {} cutOff).result = .error f ∧
    Display.report ⟨[⟨"p.pas", cutOff⟩], false⟩ f =
      "p.pas:1:21: syntax error: expected '.', got 'EOF'\n" ++ ("  program p; begin end\n" ++
        "                      ^\n") := by
  refine ⟨rfl, ?_⟩
  have shown : ((lowerSource {} cutOff).result.mapError
      (Display.report ⟨[⟨"p.pas", cutOff⟩], false⟩)).map (fun _ => ()) = .error
        ("p.pas:1:21: syntax error: expected '.', got 'EOF'\n" ++ ("  program p; begin end\n" ++
          "                      ^\n")) := by
    decide +kernel
  cases result : (lowerSource {} cutOff).result with
  | ok p =>
    rw [result] at shown
    cases shown
  | error f =>
    rw [result] at shown
    exact ⟨f, rfl, Except.error.inj shown⟩

end MiniPascal
