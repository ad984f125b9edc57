import MiniPascal.Proofs.Tree.Made
import MiniPascal.Proofs.Tree.Language

/-!
# Faults are found at the first token that cannot stand

A reader that fails has passed tokens that some program starts with (`viable_program`), and the grammar
spells only what is read, so that program is accepted. The reader has seen no token behind the fault, so all
lists of tokens that go so far are faulty in the same way.
-/

namespace MiniPascal.Pull

open Tree Grammar

/-- The tokens of a faulty program in front of its fault start some program. -/
theorem viable_of_fault (enough : depth s ≤ n)
    (fault : Tree.read neg s = .error e) (noArray : ∀ t l u, e ≠ .emptyArray t l u)
    (ordered : Ordered ((program neg n).taken s)) :
    ∃ u, ∀ closing, ∃ r, Tree.read neg ⟨(program neg n).taken s ++ u, closing⟩ = .ok r := by
  have run : (program neg n).run s = some (.error e) := by rw [run_program enough, fault]
  obtain ⟨u, derives⟩ := viable_program run noArray ordered
  refine ⟨u, fun closing => ?_⟩
  have ends : (Stream.mk [] closing).head.kind = .eof := rfl
  have read := read_of_program derives ends
  rwa [Stream.prepend, List.append_nil] at read

/-- Reading ends on every list of tokens, and a fault other than that of an array is found at the first
token that cannot stand. When it is found, the token has been handed to the reader and none behind it
has. All lists of tokens that go that far are faulty in the same way. If the arrays in front of the token
have their bounds in order, then what is in front of it starts a program. -/
theorem read_stops_at_first_fault (neg : Bool) (s : Stream) (n : Nat) (enough : depth s ≤ n) :
    (program neg n).run s = some (Tree.read neg s) ∧
    ∀ e, Tree.read neg s = .error e → (∀ t l u, e ≠ .emptyArray t l u) →
      ∃ k ≤ s.size, e.token = s.token k ∧ (program neg n).handed s = k + 1 ∧
        (∀ s' : Stream, (∀ i ≤ k, s'.token i = s.token i) → Tree.read neg s' = .error e) ∧
        (Ordered (s.tokens.take k) → ∃ u, ∀ closing, ∃ r, Tree.read neg ⟨s.tokens.take k ++ u, closing⟩ = .ok r) := by
  refine ⟨run_program enough, fun e fault noArray => ?_⟩
  have run : (program neg n).run s = some (.error e) := by rw [run_program enough, fault]
  refine ⟨(program neg n).passed s, passed_program_le enough fault, token_of_fault run noArray, rfl, ?_,
    viable_of_fault enough fault noArray⟩
  -- The other list may be longer, so both are read with the depth that it needs.
  intro s' agree
  obtain ⟨run', passed⟩ := run_of_deeper (le_max_left n (depth s')) run
  have other := run_of_agree run' (passed ▸ agree)
  rw [run_program (le_max_right n (depth s'))] at other
  exact Option.some.inj other

/-! ## An array without `of` -/

theorem Ordered.nil : Ordered [] := by
  intro x a l d lower upper v u y split
  cases x <;> cases split

theorem Ordered.cons {t : Token} {w : List Token} (h : Ordered w) (kind : t.kind ≠ .kwArray) : Ordered (t :: w) := by
  intro x a l d lower upper v u y split array
  cases x with
  | nil =>
    cases split
    exact absurd array kind
  | cons t' x => exact h x a l d lower upper v u y (List.cons.inj split).2 array

theorem Ordered.cons_array (h : Ordered (l :: m :: d :: n :: w))
    (lower : m.kind = .number) (upper : n.kind = .number) (le : m.number ≤ n.number) :
    Ordered (a :: l :: m :: d :: n :: w) := by
  intro x a' l' d' i j v u y split array opens hv dots hu
  cases x with
  | cons t x => exact h x a' l' d' i j v u y (List.cons.inj split).2 array opens hv dots hu
  | nil =>
    cases hv with
    | negative minus =>
      cases split
      cases lower.symm.trans minus
    | plain =>
      cases hu with
      | negative minus =>
        cases split
        cases upper.symm.trans minus
      | plain =>
        cases split
        exact le

/-- The tokens of `program p; var a: array[1..2] integer`, which lack an `of`. -/
def withoutOf : Stream where
  tokens := [mark .kwProgram, mark .identifier, mark .semi, mark .kwVar, mark .identifier, mark .colon,
    mark .kwArray, mark .lbracket, numeral 1, mark .dotDot, numeral 2, mark .rbracket, mark .kwInteger]

theorem read_stops_at_missing_of :
    depth withoutOf ≤ 56 ∧ ∃ e, Tree.read false withoutOf = .error e ∧ e.token = withoutOf.token 12 ∧
      (program false 56).handed withoutOf = 13 ∧
      (∀ s' : Stream, (∀ i ≤ 12, s'.token i = withoutOf.token i) → Tree.read false s' = .error e) ∧
      ∃ u, ∀ closing, ∃ r, Tree.read false ⟨withoutOf.tokens.take 12 ++ u, closing⟩ = .ok r := by
  have enough : depth withoutOf ≤ 56 := by decide
  obtain ⟨run, faults⟩ := read_stops_at_first_fault false withoutOf 56 enough
  have evaluated : (program false 56).run withoutOf =
      some (.error (.unexpected (mark .kwInteger) Kind.kwOf.spelling)) := rfl
  have fault := Option.some.inj (run.symm.trans evaluated)
  have noArray : ∀ t l u, SyntaxFault.unexpected (mark .kwInteger) Kind.kwOf.spelling ≠ .emptyArray t l u := by
    rintro t l u ⟨⟩
  obtain ⟨k, -, token, handed, same, goes⟩ := faults _ fault noArray
  have passed : (program false 56).handed withoutOf = 13 := by decide +kernel
  obtain rfl : 12 = k := Nat.succ.inj (passed.symm.trans handed)
  refine ⟨enough, _, fault, token, passed, same, goes ?_⟩
  iterate 6 refine .cons ?_ (by decide)
  refine .cons_array ?_ rfl rfl (by decide)
  iterate 5 refine .cons ?_ (by decide)
  exact .nil

end MiniPascal.Pull
