import MiniPascal.Proofs.Lower.Matched
import MiniPascal.Proofs.Token.Tiling

/-!
# Texts side by side

A text is a counterpart of another one if the tokens of the same calls agree in all that reading and lowering
look at. Then both have the same fault, at tokens of the same call, or both are read; and they are lowered to
the same code or with the same complaints, each again at tokens of the same call (`Counterpart.compare`). A
text is its own counterpart, so the tokens of its faults are tokens that reading it returned.
-/

namespace MiniPascal.Reading

/-- Tokens that two texts return at the same call. -/
def Paired (r r' : Reading) (t u : Token) : Prop := ∃ n, t = r.token n ∧ u = r'.token n

/-- A text with as many tokens, which cannot be told apart but for places within lines and the spelling of
numbers. -/
structure Counterpart (r r' : Reading) : Prop where
  count : r'.count = r.count
  indistinct : Indistinct (Paired r r')

theorem Counterpart.refl (r : Reading) : Counterpart r r := by
  have same {t u : Token} (paired : Paired r r t u) : u = t := by
    obtain ⟨n, rfl, rfl⟩ := paired
    rfl
  refine ⟨rfl, ⟨fun paired => ?_, fun paired => ?_, fun paired => ?_, fun paired _ => ?_⟩⟩
  all_goals rw [same paired]

variable {r r' : Reading}

theorem ending_tokenize (r : Reading) : (tokenize r.on r.file r.source).ending = r.token r.count := by
  rw [r.tokenize_eq]
  rw [r.token_of_eof (r.eof_of_count_le (Nat.le_refl _))]
  rfl

namespace Counterpart

variable (h : Counterpart r r')

include h

theorem matches_tokenize :
    (tokenize r.on r.file r.source).Matches (Paired r r') (tokenize r'.on r'.file r'.source) := by
  constructor
  · rw [r.tokenize_eq, r'.tokenize_eq, h.count]
    refine List.forall₂_map_left_iff.mpr (List.forall₂_map_right_iff.mpr (List.forall₂_same.mpr fun n _ => ?_))
    exact ⟨n, rfl, rfl⟩
  · rw [ending_tokenize, ending_tokenize, h.count]
    exact ⟨r.count, rfl, rfl⟩

/-- Both texts have a fault, or both are lowered alike. -/
theorem compare (neg : Bool) (d : Settings) :
    (∃ e e', Tree.ofTokens neg (tokenize r.on r.file r.source) = .error e ∧
      Tree.ofTokens neg (tokenize r'.on r'.file r'.source) = .error e' ∧ e.Matches (Paired r r') e') ∨
    ∃ t t', Tree.ofTokens neg (tokenize r.on r.file r.source) = .ok t ∧
      Tree.ofTokens neg (tokenize r'.on r'.file r'.source) = .ok t' ∧ t'.format = t.format ∧
      ((∃ p, (Lower.lower d t).code = .ok p ∧ (Lower.lower d t').code = .ok p) ∨
        ∃ ds ds', (Lower.lower d t).code = .error ds ∧ (Lower.lower d t').code = .error ds' ∧ ds ≠ [] ∧
          (∀ d ∈ ds, d.category = .semantic) ∧ List.Forall₂ (Diagnostic.Matches (Paired r r')) ds ds') ∧
      List.Forall₂ (Remark.Matches (Paired r r')) (Lower.lower d t).remarks (Lower.lower d t').remarks := by
  let c : Comparison :=
    { alike := Paired r r'
      tokens := (tokenize r.on r.file r.source).tokens
      lax := False
      indistinct := h.indistinct
      refl := False.elim }
  have allows (on : Bool) : c.Allows on on := .inl rfl
  have shaped (r : Reading) (t : Tree) (parsed : Tree.ofTokens neg (tokenize r.on r.file r.source) = .ok t) :
      t.IsProgram ∧ Remark.enabled d.warnings (Lower.lower d t).remarks = (Lower.lower d t).remarks := by
    have program := Tree.isProgram_of_ofTokens (lexical_tokenize r.on r.file r.source) parsed
    exact ⟨program, Lower.enabled_remarks program (Tree.made_of_ofTokens parsed False) d⟩
  have first := shaped r
  have second := shaped r'
  unfold Tree.ofTokens at first second ⊢
  rcases Tree.answers_read (allows neg) List.suffix_rfl h.matches_tokenize with ⟨none, -⟩ | answers
  · exact none.elim
  · generalize Tree.read neg (tokenize r.on r.file r.source) = read at answers first
    generalize Tree.read neg (tokenize r'.on r'.file r'.source) = read' at answers second
    cases answers with
    | error same => exact .inl ⟨_, _, rfl, rfl, same⟩
    | ok made =>
      obtain ⟨program, enabled⟩ := first _ rfl
      obtain ⟨program', enabled'⟩ := second _ rfl
      obtain ⟨code, remarks⟩ := (Lower.lower_made program program' made (allows (d.features .multiWrite))
        rfl).resolve_left And.left
      rw [enabled, enabled'] at remarks
      exact .inr ⟨_, _, rfl, rfl, made.format, code, remarks⟩

end Counterpart

end MiniPascal.Reading
