import MiniPascal.Proofs.Pull.Follow
import Mathlib.Data.List.Forall2
import Mathlib.Data.List.Infix

/-!
# Readers side by side

For reading and lowering little counts of a token: its kind, the name or the string it holds, its number
and its line. A `Comparison` says which tokens of one text stand for which of another; they have to be equal
in these. Streams and faults match if they are the same but for such tokens.

`Twin c V s p q` says that the reader `q` does on tokens that stand for those of `s` what `p` does on `s`, as
long as `p` is not stuck, and returns a value that `V` relates to that of `p`. If the comparison is lax, then
`q` is free where `p` fails. `Makes c V p q` says this of all streams along the tokens of the comparison, and
has a rule for each step a reader takes.
-/

open List

namespace MiniPascal

open Pull

/-- Related tokens differ at most in their place within a line and in how a number is spelled. -/
structure Indistinct (R : Token → Token → Prop) : Prop where
  kind {t u : Token} : R t u → u.kind = t.kind
  number {t u : Token} : R t u → u.number = t.number
  line {t u : Token} : R t u → u.line = t.line
  value {t u : Token} : R t u → t.kind ≠ .number → u.value = t.value

theorem indistinct_eq : Indistinct (· = ·) where
  kind same := by rw [same]
  number same := by rw [same]
  line same := by rw [same]
  value same _ := by rw [same]

/-- Two runs set side by side: which tokens of the second stand for those of the first, along which tokens
the first one goes, and whether the second is free where the first one fails. It can be free only if the
tokens stand for themselves. -/
structure Comparison where
  alike : Token → Token → Prop
  tokens : List Token
  lax : Prop
  indistinct : Indistinct alike
  refl : lax → ∀ t, alike t t

namespace Comparison

/-- Two runs on the same tokens. -/
def same (w : List Token) (lax : Prop) : Comparison := ⟨(· = ·), w, lax, indistinct_eq, fun _ _ => rfl⟩

/-- A token of the first run, and the one that stands for it in the second. -/
structure Listed (c : Comparison) (t u : Token) : Prop where
  mem : t ∈ c.tokens
  alike : c.alike t u

/-- A lax comparison allows the second run an extension that the first has not. -/
def Allows (c : Comparison) (on on' : Bool) : Prop := on' = on ∨ c.lax ∧ on = false

end Comparison

/-! ## Streams and faults -/

section Matches

variable {R : Token → Token → Prop}

/-- The tokens of two streams are related one by one. -/
structure Stream.Matches (R : Token → Token → Prop) (s s' : Stream) : Prop where
  tokens : Forall₂ R s.tokens s'.tokens
  ending : R s.ending s'.ending

/-- Lists that are related one by one can be taken apart. -/
theorem forall₂_headD_tail {α : Type} {V : α → α → Prop} {l l' : List α} (h : Forall₂ V l l') {a b : α}
    (default : V a b) : V (l.headD a) (l'.headD b) ∧ Forall₂ V l.tail l'.tail := by
  cases h with
  | nil => exact ⟨default, .nil⟩
  | cons first later => exact ⟨first, later⟩

namespace Stream.Matches

variable {s s' : Stream}

theorem head (h : s.Matches R s') : R s.head s'.head := (forall₂_headD_tail h.tokens h.ending).1

theorem tail (h : s.Matches R s') : s.tail.Matches R s'.tail :=
  ⟨(forall₂_headD_tail h.tokens h.ending).2, h.ending⟩

theorem size_eq (h : s.Matches R s') : s'.size = s.size := h.tokens.length_eq.symm

theorem refl (s : Stream) : s.Matches (· = ·) s := ⟨forall₂_refl _, rfl⟩

end Stream.Matches

/-- Two faults are the same but for their tokens. -/
inductive SyntaxFault.Matches (R : Token → Token → Prop) : SyntaxFault → SyntaxFault → Prop
  | lexical : R t u → Matches R (.lexical t) (.lexical u)
  | unexpected : R t u → Matches R (.unexpected t expected) (.unexpected u expected)
  | emptyArray : R t u → Matches R (.emptyArray t lower upper) (.emptyArray u lower upper)

namespace SyntaxFault.Matches

variable {e e' : SyntaxFault}

theorem token (h : e.Matches R e') : R e.token e'.token := by
  cases h <;> assumption

theorem eq (h : e.Matches (· = ·) e') : e' = e := by
  cases h <;> next same => rw [same]

theorem at_ (indistinct : Indistinct R) (h : s.Matches R s') (expected : String) :
    (SyntaxFault.at_ s expected).Matches R (SyntaxFault.at_ s' expected) := by
  unfold SyntaxFault.at_
  rw [indistinct.kind h.head]
  split
  · exact .lexical h.head
  · exact .unexpected h.head

end SyntaxFault.Matches

end Matches

/-- What is left of a stream is the end of a list of tokens. -/
def Stream.Ends (s : Stream) (w : List Token) : Prop := s.tokens <:+ w

namespace Stream.Ends

variable {s : Stream} {w : List Token}

theorem tail (h : s.Ends w) : s.tail.Ends w := (tail_suffix s.tokens).trans h

theorem head_mem (h : s.Ends w) (known : s.head.kind ≠ .eof) : s.head ∈ w := by
  obtain ⟨tokens, closing⟩ := s
  cases tokens with
  | nil => exact absurd rfl known
  | cons t ts => exact h.subset mem_cons_self

/-- Two tokens that are read one after the other stand side by side. -/
theorem pair (h : s.Ends w) (known : s.head.kind ≠ .eof) (known' : s.tail.head.kind ≠ .eof) :
    [s.head, s.tail.head] <:+: w := by
  obtain ⟨tokens, closing⟩ := s
  cases tokens with
  | nil => exact absurd rfl known
  | cons t tokens =>
    cases tokens with
    | nil => exact absurd rfl known'
    | cons u rest => exact (prefix_append [t, u] rest).isInfix.trans h.isInfix

end Stream.Ends

namespace Pull

/-! ## Twins -/

/-- A reader does on tokens that stand for those of `s` what another one does on `s`. -/
inductive Twin (c : Comparison) {α : Type} (V : α → α → Prop) : Stream → Pull α → Pull α → Prop
  | ret : V a b → Twin c V s (.ret a) (.ret b)
  | fail : Twin c V s (.fail expected) (.fail expected)
  | lax : c.lax → Twin c V s (.fail expected) q
  | refuse : c.alike t u → Twin c V s (.refuse t lower upper) (.refuse u lower upper)
  | stuck : Twin c V s .stuck q
  | look : (∀ u, c.alike s.head u → Twin c V s (f s.head) (f' u)) → Twin c V s (.look f) (.look f')
  | pass : Twin c V s.tail p q → Twin c V s (.pass p) (.pass q)

/-- Two readers return related values, or faults that match. -/
inductive Answers (c : Comparison) {α : Type} (V : α → α → Prop) :
    Except SyntaxFault (α × Stream) → Except SyntaxFault (α × Stream) → Prop
  | ok : V a b → s.Matches c.alike s' → Answers c V (.ok (a, s)) (.ok (b, s'))
  | error : e.Matches c.alike e' → Answers c V (.error e) (.error e')

/-- A reader does on tokens that stand for those of the comparison what another one does. -/
def Makes (c : Comparison) {α : Type} (V : α → α → Prop) (p q : Pull α) : Prop :=
  ∀ s : Stream, s.Ends c.tokens → Twin c V s p q

variable {c : Comparison} {α β : Type} {V V' : α → α → Prop} {W : β → β → Prop} {p p' q q' : Pull α}

namespace Twin

variable {s : Stream}

theorem peek {f f' : Token → Pull α} (next : ∀ u, c.alike s.head u → Twin c V s (f s.head) (f' u)) :
    Twin c V s (peek >>= f) (peek >>= f') := .look next

theorem advance {f f' : Unit → Pull α} (next : Twin c V s.tail (f ()) (f' ())) :
    Twin c V s (advance >>= f) (advance >>= f') := .pass next

/-- A token of the kind asked for is passed, and another one is left. -/
theorem accept (yes : s.head.kind = k → Twin c V s.tail p p') (no : s.head.kind ≠ k → Twin c V s q q') :
    Twin c V s (accept k >>= fun b => if b = true then p else q)
      (accept k >>= fun b => if b = true then p' else q') := by
  refine .look fun u alike => ?_
  dsimp only
  rw [c.indistinct.kind alike]
  split
  · next kind => exact .pass (yes kind)
  · next kind => exact no kind

/-- A token has to stand. -/
theorem expect {f f' : Token → Pull α}
    (next : ∀ u, c.alike s.head u → s.head.kind = k → Twin c V s.tail (f s.head) (f' u)) :
    Twin c V s (Pull.expect k >>= f) (Pull.expect k >>= f') := by
  refine .look fun u alike => ?_
  dsimp only
  rw [c.indistinct.kind alike]
  split
  · next kind => exact .pass (next u alike kind)
  · exact .fail

/-- What comes next is read where the first reader stops. -/
theorem bind (ends : s.Ends c.tokens) {f f' : α → Pull β} (first : Twin c V s p p')
    (next : ∀ a b rest, V a b → p.run s = some (.ok (a, rest)) → rest.Ends c.tokens →
      Twin c W rest (f a) (f' b)) : Twin c W s (p >>= f) (p' >>= f') := by
  induction first with
  | ret same => exact next _ _ _ same rfl ends
  | fail => exact .fail
  | lax free => exact .lax free
  | refuse alike => exact .refuse alike
  | stuck => exact .stuck
  | look _ ih => exact .look fun u alike => ih u alike ends next
  | pass _ ih => exact .pass (ih ends.tail next)

theorem mono (twin : Twin c V s p q) (imp : ∀ a b, V a b → V' a b) : Twin c V' s p q := by
  induction twin with
  | ret same => exact .ret (imp _ _ same)
  | fail => exact .fail
  | lax free => exact .lax free
  | refuse alike => exact .refuse alike
  | stuck => exact .stuck
  | look _ ih => exact .look ih
  | pass _ ih => exact .pass ih

/-- A twin answers as its original does, and passes as many tokens. -/
theorem run {s' : Stream} {r : Except SyntaxFault (α × Stream)} (twin : Twin c V s p q)
    (streams : s.Matches c.alike s') (run : p.run s = some r) :
    c.lax ∧ (∃ e, r = .error e) ∨ (∃ r', q.run s' = some r' ∧ Answers c V r r') ∧ q.passed s' = p.passed s := by
  induction twin generalizing s' with
  | ret same =>
    cases run
    exact .inr ⟨⟨_, rfl, .ok same streams⟩, rfl⟩
  | fail =>
    cases run
    exact .inr ⟨⟨_, rfl, .error (.at_ c.indistinct streams _)⟩, rfl⟩
  | lax free =>
    cases run
    exact .inl ⟨free, _, rfl⟩
  | refuse alike =>
    cases run
    exact .inr ⟨⟨_, rfl, .error (.emptyArray alike)⟩, rfl⟩
  | stuck => cases run
  | look _ ih => exact ih _ streams.head streams run
  | pass _ ih =>
    rw [Pull.passed, Pull.passed]
    exact (ih streams.tail run).imp_right fun answers => ⟨answers.1, congrArg (· + 1) answers.2⟩

end Twin

namespace Makes

theorem ret (holds : V a b) : Makes c V (.ret a) (.ret b) := fun _ _ => .ret holds

theorem fail : Makes c V (.fail expected) (.fail expected) := fun _ _ => .fail

theorem stuck : Makes c V .stuck q := fun _ _ => .stuck

theorem mono (h : Makes c V p q) (imp : ∀ a b, V a b → V' a b) : Makes c V' p q :=
  fun s ends => (h s ends).mono imp

/-- The token at which a reader stands is listed, unless it is the end of input. -/
theorem peek {f f' : Token → Pull α}
    (next : ∀ t u, c.alike t u → (t.kind ≠ .eof → c.Listed t u) → Makes c V (f t) (f' u)) :
    Makes c V (peek >>= f) (peek >>= f') :=
  fun s ends => .peek fun u alike => next s.head u alike (fun known => ⟨ends.head_mem known, alike⟩) s ends

theorem advance {f f' : Unit → Pull α} (next : Makes c V (f ()) (f' ())) :
    Makes c V (advance >>= f) (advance >>= f') := fun s ends => .advance (next s.tail ends.tail)

theorem bind {f f' : α → Pull β} (first : Makes c V p p')
    (next : ∀ a b, V a b → Makes c W (f a) (f' b)) : Makes c W (p >>= f) (p' >>= f') :=
  fun s ends => (first s ends).bind ends fun a b rest same _ => next a b same rest

/-- The first reader returns the same value on both sides. -/
theorem bindSame {f f' : α → Pull β} (first : Makes c (fun a b => b = a) p p')
    (next : ∀ a, Makes c W (f a) (f' a)) : Makes c W (p >>= f) (p' >>= f') :=
  first.bind fun a _ same => same ▸ next a

variable {k : Kind}

theorem accept (yes : Makes c V p p') (no : Makes c V q q') :
    Makes c V (accept k >>= fun b => if b = true then p else q)
      (accept k >>= fun b => if b = true then p' else q') :=
  fun s ends => .accept (fun _ => yes s.tail ends.tail) fun _ => no s ends

/-- A token that has to stand is listed, unless it is the end of input. -/
theorem expect {f f' : Token → Pull α} (next : ∀ t u, t.kind = k → (k ≠ .eof → c.Listed t u) → Makes c V (f t) (f' u)) :
    Makes c V (Pull.expect k >>= f) (Pull.expect k >>= f') := by
  refine fun s ends => .expect fun u alike kind => ?_
  exact next s.head u kind (fun known => ⟨ends.head_mem (kind ▸ known), alike⟩) s.tail ends.tail

/-- A token of which only the kind matters. -/
theorem skip (next : Makes c V q q') : Makes c V (Pull.expect k >>= fun _ => q) (Pull.expect k >>= fun _ => q') :=
  expect fun _ _ _ _ => next

/-- A name is listed, and is the same on both sides. -/
theorem name {f f' : Token → Pull α}
    (next : ∀ t u, c.Listed t u → t.kind = .identifier → u.value = t.value → Makes c V (f t) (f' u)) :
    Makes c V (Pull.expect .identifier >>= f) (Pull.expect .identifier >>= f') := by
  refine expect fun t u kind listed => ?_
  have listed := listed (by decide)
  exact next t u listed kind (c.indistinct.value listed.alike (by simp [kind]))

/-- Readers that go on by their depth are twins if each round makes the next depth twins. -/
theorem of_step {p p' : Nat → Pull α} (bottom : p 0 = .stuck)
    (step : ∀ n m, n ≤ m → Makes c V (p n) (p' m) → Makes c V (p (n + 1)) (p' (m + 1))) {n m : Nat}
    (le : n ≤ m) : Makes c V (p n) (p' m) := by
  induction n generalizing m with
  | zero => exact bottom ▸ stuck
  | succ n ih =>
    cases m with
    | zero => exact absurd le (Nat.not_succ_le_zero n)
    | succ m =>
      have le' := Nat.le_of_succ_le_succ le
      exact step n m le' (ih le')

/-- What is known of two values that are returned is known of the one value that a single reader returns. -/
theorem of_run {lax : Prop} (makes : Makes (.same s.tokens lax) V p p)
    (run : p.run s = some (.ok (a, rest))) : V a a := by
  rcases (makes s suffix_rfl).run (.refl s) run with ⟨-, e, failed⟩ | ⟨⟨r, run', answers⟩, -⟩
  · cases failed
  · rw [run] at run'
    cases run'
    cases answers with
    | ok related => exact related

end Makes

end Pull

end MiniPascal
