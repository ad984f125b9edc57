import MiniPascal.Proofs.Pull.Follow
import MiniPascal.Proofs.Tree.Grammar

/-!
# What is read is spelled by the grammar

`Spells s before p P G` says which tokens the reader `p` takes off the front of the stream `s`. If it
returns, then they satisfy `P` together with what it returns. If it fails, then those it has passed can be
gone on with to a phrase `G`. Readers are sequences of smaller readers, and the conditions grow by the
tokens that were taken, so the proofs follow the text of the readers, with one way to go on from every place
at which a reader can fail.

The one fault that is found late is that of an array, whose bounds are compared only when its element type
has been read; tokens that hold such an array cannot be gone on with, and `Ordered` keeps them out.
-/

open List

namespace MiniPascal

/-! ## Streams -/

namespace Stream

/-- The stream with more tokens in front. -/
def prepend (s : Stream) (w : List Token) : Stream := { s with tokens := w ++ s.tokens }

variable {s : Stream}

@[simp] theorem prepend_nil : s.prepend [] = s := rfl

@[simp] theorem head_prepend (t : Token) (w : List Token) : (s.prepend (t :: w)).head = t := rfl

theorem prepend_append (v w : List Token) : s.prepend (v ++ w) = (s.prepend w).prepend v := by
  rw [prepend, append_assoc]
  rfl

/-- A token other than end-of-input stands in front of what is behind it. -/
theorem eq_prepend_head (known : s.head.kind ≠ .eof) : s = s.tail.prepend [s.head] := by
  obtain ⟨tokens, closing⟩ := s
  cases tokens with
  | nil => exact absurd rfl known
  | cons t ts => rfl

end Stream

namespace Tree

open Grammar

/-! ## Phrases -/

theorem mem_operators_of_precedence (h : ¬ k.precedence ≤ 0) : k ∈ operators := by
  cases k <;> first | decide | exact absurd (Nat.le_refl 0) h

/-- Operations one after the other are operations. -/
theorem derives_operations_append (h : Derives neg .operations v)
    (later : Derives neg .operations w) : Derives neg .operations (v ++ w) := by
  generalize is : Part.operations = part at h
  induction h with
  | noOperation => exact later
  | operation kind operand _ _ ih =>
    rw [cons_append, append_assoc]
    exact .operation kind operand (ih is)
  | _ => cases is

/-- A tree is a call. -/
def IsCall (t : Tree) : Prop := ∃ tok f args, t = .call tok f args

variable {tok : Token}

theorem isCall_call : IsCall (.call tok f args) := ⟨tok, f, args, rfl⟩

theorem not_isCall_name : ¬ IsCall (.name tok x) := by
  rintro ⟨_, _, _, ⟨⟩⟩

theorem not_isCall_element : ¬ IsCall (.element tok a index) := by
  rintro ⟨_, _, _, ⟨⟩⟩

/-- A call is read as one, and a variable as what is none. -/
def Refers (neg : Bool) (t : Tree) (w : List Token) : Prop :=
  IsCall t ∧ Derives neg .call w ∨ ¬ IsCall t ∧ Derives neg .target w

/-- The tokens between `begin` and `end`: semicolons, with or without statements among them. -/
def Filling (neg : Bool) (w : List Token) : Prop :=
  Semis w ∨ ∃ ss v ts, w = ss ++ (v ++ ts) ∧ Semis ss ∧ Derives neg .sequence v ∧ Semis ts

namespace Filling

variable {neg : Bool} {w : List Token}

theorem semi (kind : s.kind = .semi) (h : Filling neg w) : Filling neg (s :: w) := by
  rcases h with semis | ⟨ss, v, ts, rfl, before, derives, behind⟩
  · exact .inl (forall_mem_cons.mpr ⟨kind, semis⟩)
  · exact .inr ⟨s :: ss, v, ts, rfl, forall_mem_cons.mpr ⟨kind, before⟩, derives, behind⟩

theorem last (h : Derives neg .statement w) : Filling neg w :=
  .inr ⟨[], w, [], (append_nil w).symm, forall_mem_nil _, .lastStatement h, forall_mem_nil _⟩

theorem next {s : Token} {v : List Token} (first : Derives neg .statement v) (kind : s.kind = .semi)
    (h : Filling neg w) : Filling neg (v ++ s :: w) := by
  rcases h with semis | ⟨ss, u, ts, rfl, before, derives, behind⟩
  · exact .inr ⟨[], v, s :: w, rfl, forall_mem_nil _, .lastStatement first, forall_mem_cons.mpr ⟨kind, semis⟩⟩
  · refine .inr ⟨[], v ++ (s :: ss ++ u), ts, ?_, forall_mem_nil _, ?_, behind⟩
    · simp
    · exact .nextStatement first (cons_ne_nil _ _) (forall_mem_cons.mpr ⟨kind, before⟩) derives

theorem compound (opens : b.kind = .kwBegin) (h : Filling neg w) (ends : e.kind = .kwEnd) :
    Derives neg .compound (b :: (w ++ [e])) := by
  rcases h with semis | ⟨ss, v, ts, rfl, before, derives, behind⟩
  · exact .emptyCompound opens semis ends
  · rw [append_assoc, append_assoc]
    exact .compound opens before derives behind ends

end Filling

/-- The word in front of a routine. -/
def routineWord (isFunction : Bool) : Kind := if isFunction then .kwFunction else .kwProcedure

end Tree

namespace Pull

open Tree Grammar

/-! ## Tokens to go on with -/

/-- A token of a given kind. -/
def mark (k : Kind) : Token := { Token.nowhere with kind := k }

/-- A number token. -/
def numeral (value : Int64) : Token := { mark .number with number := value }

theorem kind_mark : (mark k).kind = k := rfl

section Defaults

variable {neg : Bool}

theorem derives_number : Derives neg .operand [mark .number] := .number kind_mark

theorem derives_constant : Derives neg .expression [mark .number] := .expression derives_number .noOperation

theorem derives_break : Derives neg .statement [mark .kwBreak] := .leave kind_mark

theorem derives_empty : Derives neg .compound [mark .kwBegin, mark .kwEnd] :=
  .emptyCompound kind_mark (forall_mem_nil _) kind_mark

theorem signed_numeral (value : Int64) : Signed value [numeral value] := by
  have plain : Signed (numeral value).number [numeral value] := .plain rfl
  exact plain

theorem isType_integer : IsType .integer [mark .kwInteger] := .integer kind_mark

end Defaults

/-- The tokens can be gone on with to a phrase. -/
inductive Viable (G : List Token → Prop) (w : List Token) : Prop
  | of (u : List Token) : G (w ++ u) → Viable G w

variable {w v : List Token} {s : Stream}

/-- What is whole needs nothing more. -/
theorem Viable.whole {G : List Token → Prop} (h : G w) : Viable G w :=
  ⟨[], (append_nil w).symm ▸ h⟩

/-- An array type both of whose bounds stand among the tokens has them in order. -/
def Ordered (w : List Token) : Prop :=
  ∀ (x : List Token) (a l d : Token) (lower upper : Int64) (v u y : List Token),
    w = x ++ a :: l :: (v ++ d :: (u ++ y)) → a.kind = .kwArray → l.kind = .lbracket →
    Signed lower v → d.kind = .dotDot → Signed upper u → lower ≤ upper

theorem Ordered.right (h : Ordered (v ++ w)) : Ordered w := by
  intro x a l d lower upper v' u y split
  refine h (v ++ x) a l d lower upper v' u y ?_
  rw [split, append_assoc]

theorem Ordered.left (h : Ordered (v ++ w)) : Ordered v := by
  intro x a l d lower upper v' u y split
  refine h x a l d lower upper v' u (y ++ w) ?_
  simp [split]

/-! ## Readers -/

/-- The tokens that a reader passes. -/
def taken {α : Type} (p : Pull α) (s : Stream) : List Token := s.tokens.take (p.passed s)

section Taken

variable {α β : Type} {p : Pull α} {f : α → Pull β} {s : Stream}

theorem taken_bind_error (run : p.run s = some (.error e)) : (p >>= f).taken s = p.taken s := by
  rw [taken, passed_bind_error run, taken]

theorem taken_bind_ok (run : p.run s = some (.ok (a, rest))) :
    (p >>= f).taken s = p.taken s ++ (f a).taken rest := by
  rw [taken, passed_bind_ok run, taken, taken, rest_eq_drop run, take_add]
  rfl

theorem taken_pass (known : s.head.kind ≠ .eof) : (Pull.pass p).taken s = s.head :: p.taken s.tail := by
  conv => lhs; rw [taken, Stream.eq_prepend_head known]
  rfl

end Taken

/-- A reader takes tokens off the front of a stream that satisfy a condition together with its value, or
those it has passed when it fails can be gone on with. -/
structure Spells {α : Type} (s : Stream) (before : List Token) (p : Pull α) (P : α → List Token → Prop)
    (G : List Token → Prop) : Prop where
  takes : ∀ a rest, p.run s = some (.ok (a, rest)) →
    s = rest.prepend (p.taken s) ∧ (∀ t ∈ p.taken s, t.kind ≠ .eof) ∧ P a (p.taken s)
  goes : ∀ e, p.run s = some (.error e) → (∀ t l u, e ≠ .emptyArray t l u) →
    Ordered (before ++ p.taken s) → Viable G (p.taken s)

/-- A reader of phrases, of which the value does not matter. -/
abbrev Phrase {α : Type} (s : Stream) (p : Pull α) (G : List Token → Prop) : Prop :=
  Spells s [] p (fun _ => G) G

namespace Spells

variable {α β : Type} {s : Stream} {before : List Token} {p q : Pull α} {P : α → List Token → Prop}
  {Q : β → List Token → Prop} {G G₁ : List Token → Prop}

theorem ret (holds : P a []) : Spells s before (.ret a) P G where
  takes := by
    rintro _ _ ⟨⟩
    exact ⟨rfl, forall_mem_nil _, holds⟩
  goes := by rintro _ ⟨⟩

theorem fail (finish : ∃ u, G u) : Spells s before (.fail expected : Pull α) P G where
  takes := by rintro _ _ ⟨⟩
  goes := by
    intro e _ _ _
    obtain ⟨u, holds⟩ := finish
    exact ⟨u, holds⟩

theorem refuse : Spells s before (.refuse t l u : Pull α) P G where
  takes := by rintro _ _ ⟨⟩
  goes := by
    intro e run noArray
    cases run
    exact absurd rfl (noArray t l u)

theorem stuck : Spells s before (.stuck : Pull α) P G where
  takes := by rintro _ _ ⟨⟩
  goes := by rintro _ ⟨⟩

/-- Behind tokens that are out of order, all that matters is that nothing is returned. -/
theorem disordered (no : ¬ Ordered before) (h : Spells s [] p (fun _ _ => False) fun _ => True) :
    Spells s before p P G where
  takes a rest run := (h.takes a rest run).2.2.elim
  goes _ _ _ all := absurd all.left no

/-- What matters of a reader is what it comes to and how many tokens it passes. -/
theorem of_same (run : p.run s = q.run s) (passed : p.passed s = q.passed s) (h : Spells s before q P G) :
    Spells s before p P G := by
  have same : p.taken s = q.taken s := congrArg (s.tokens.take ·) passed
  exact ⟨fun a rest run' => same ▸ h.takes a rest (run ▸ run'),
    fun e run' noArray ordered => same ▸ h.goes e (run ▸ run') noArray (same ▸ ordered)⟩

theorem peek {f : Token → Pull α} (next : Spells s before (f s.head) P G) :
    Spells s before (Pull.peek >>= f) P G := of_same (q := f s.head) rfl rfl next

theorem pass (known : s.head.kind ≠ .eof) (next : Spells s.tail (before ++ [s.head]) p
    (fun v x => P v (s.head :: x)) fun x => G (s.head :: x)) : Spells s before (.pass p) P G := by
  constructor
  · intro a rest run
    obtain ⟨split, inside, holds⟩ := next.takes a rest run
    rw [taken_pass known]
    refine ⟨?_, forall_mem_cons.mpr ⟨known, inside⟩, holds⟩
    conv => lhs; rw [Stream.eq_prepend_head known, split, ← Stream.prepend_append]
    rfl
  · intro e run noArray ordered
    rw [taken_pass known] at ordered ⊢
    obtain ⟨u, goes⟩ := next.goes e run noArray (by rwa [append_assoc])
    exact ⟨u, goes⟩

theorem advance {f : Unit → Pull α} (known : s.head.kind ≠ .eof) (next : Spells s.tail (before ++ [s.head])
    (f ()) (fun v x => P v (s.head :: x)) fun x => G (s.head :: x)) :
    Spells s before (Pull.advance >>= f) P G := of_same (q := .pass (f ())) rfl rfl (pass known next)

/-- A part of a phrase, and what is behind it. -/
theorem after {f : α → Pull β} (first : Spells s [] p P G₁) (finish : ∀ x, G₁ x → Viable G x)
    (next : ∀ a rest w, p.run s = some (.ok (a, rest)) → s = rest.prepend w → P a w →
      Spells rest (before ++ w) (f a) (fun u x => Q u (w ++ x)) fun x => G (w ++ x)) :
    Spells s before (p >>= f) Q G := by
  constructor
  · intro b rest run
    obtain ⟨a, s', run', later⟩ := of_run_bind_ok run
    obtain ⟨split, inside, holds⟩ := first.takes a s' run'
    obtain ⟨split', inside', holds'⟩ := (next a s' _ run' split holds).takes b rest later
    rw [taken_bind_ok run']
    refine ⟨?_, forall_mem_append.mpr ⟨inside, inside'⟩, holds'⟩
    rw [Stream.prepend_append, ← split', ← split]
  · intro e run noArray ordered
    rcases of_run_bind run with ⟨e', run', fault⟩ | ⟨a, s', run', later⟩
    · cases fault
      rw [taken_bind_error run'] at ordered ⊢
      obtain ⟨u, holds⟩ := first.goes e run' noArray ordered.right
      obtain ⟨y, holds'⟩ := finish _ holds
      exact ⟨u ++ y, by rwa [← append_assoc]⟩
    · obtain ⟨split, -, holds⟩ := first.takes a s' run'
      rw [taken_bind_ok run'] at ordered ⊢
      obtain ⟨u, goes⟩ := (next a s' _ run' split holds).goes e later noArray (by rwa [append_assoc])
      exact ⟨u, by rwa [append_assoc]⟩

theorem bind {f : α → Pull β} (first : Spells s [] p P G₁) (finish : ∀ x, G₁ x → Viable G x)
    (next : ∀ a rest w, P a w → Spells rest (before ++ w) (f a) (fun u x => Q u (w ++ x)) fun x => G (w ++ x)) :
    Spells s before (p >>= f) Q G :=
  after first finish fun a rest w _ _ => next a rest w

theorem mono {P' : α → List Token → Prop} (h : Spells s [] p P G₁)
    (takes : ∀ a x, P a x → P' a x) (goes : ∀ x, G₁ x → G x) : Spells s before p P' G where
  takes a rest run := by
    obtain ⟨split, inside, holds⟩ := h.takes a rest run
    exact ⟨split, inside, takes _ _ holds⟩
  goes e run noArray ordered := by
    obtain ⟨u, holds⟩ := h.goes e run noArray ordered.right
    exact ⟨u, goes _ holds⟩

/-- The last part of a phrase. -/
theorem last (h : Phrase s p G₁) (whole : ∀ x, G₁ x → G x) : Spells s before p (fun _ => G) G :=
  h.mono (fun _ => whole) whole

/-- The last part of a phrase, and what is made of it. -/
theorem final {g : α → β} (h : Phrase s p G₁) (whole : ∀ x, G₁ x → G x) :
    Spells s before (p >>= fun a => .ret (g a)) (fun _ => G) G := by
  refine bind h (fun x hx => .whole (whole x hx)) fun a rest w hw => .ret ?_
  rw [append_nil]
  exact whole w hw

variable {k : Kind}

/-- A token that may stand or not. -/
theorem accept (hk : (k == .eof) = false)
    (yes : s.head.kind = k → Spells s.tail (before ++ [s.head]) p (fun v x => P v (s.head :: x))
      fun x => G (s.head :: x)) (no : s.head.kind ≠ k → Spells s before q P G) :
    Spells s before (Pull.accept k >>= fun b => if b = true then p else q) P G := by
  by_cases kind : s.head.kind = k
  · refine of_same (q := .pass p) (run_bind_ok (accept_of kind).1) ?_ (pass (kind ▸ ne_eof_of_beq hk) (yes kind))
    rw [passed_bind_ok (accept_of kind).1, (accept_of kind).2, Nat.add_comm]
    rfl
  · refine of_same (run_bind_ok (accept_of_ne kind).1) ?_ (no kind)
    rw [passed_bind_ok (accept_of_ne kind).1, (accept_of_ne kind).2, Nat.zero_add]

/-- A token that has to stand. -/
theorem expect {f : Token → Pull α} (hk : (k == .eof) = false) (finish : ∃ u, G u)
    (next : ∀ t rest, t.kind = k →
      Spells rest (before ++ [t]) (f t) (fun v x => P v (t :: x)) fun x => G (t :: x)) :
    Spells s before (Pull.expect k >>= f) P G := by
  by_cases kind : s.head.kind = k
  · refine of_same (q := .pass (f s.head)) (run_bind_ok (expect_of kind).1) ?_
      (pass (kind ▸ ne_eof_of_beq hk) (next s.head s.tail kind))
    rw [passed_bind_ok (expect_of kind).1, (expect_of kind).2, Nat.add_comm]
    rfl
  · refine of_same (run_bind_error (expect_of_ne kind).1) ?_ (fail finish)
    rw [passed_bind_error (expect_of_ne kind).1, (expect_of_ne kind).2]
    rfl

/-- The last token of a phrase. -/
theorem close {g : Token → α} (hk : (k == .eof) = false) (whole : ∀ t, t.kind = k → G [t]) :
    Spells s before (Pull.expect k >>= fun t => .ret (g t)) (fun _ => G) G :=
  expect hk ⟨_, whole (mark k) kind_mark⟩ fun t _ kind => .ret (whole t kind)

end Spells

variable {neg : Bool} {n : Nat}

/-! ## Expressions -/

/-- What the readers of expressions take with depth `n`. -/
structure ExpressionSpells (neg : Bool) (n : Nat) : Prop where
  expression : ∀ s, Phrase s (expression neg n) (Derives neg .expression)
  operators : ∀ s level left, Phrase s (operators neg n level left) (Derives neg .operations)
  primary : ∀ s, Phrase s (primary neg n) (Derives neg .operand)
  reference : ∀ s, Spells s [] (reference neg n) (Refers neg)
    fun w => Derives neg .call w ∨ Derives neg .target w
  arguments : ∀ s, Phrase s (arguments neg n) (Derives neg .arguments)

section Expressions

variable (ih : ExpressionSpells neg n)

include ih

theorem spells_operators_step (s : Stream) (level : Nat) (left : Tree) :
    Phrase s (operators neg (n + 1) level left) (Derives neg .operations) := by
  refine .peek ?_
  split
  · exact .ret .noOperation
  · next above =>
    have op := mem_operators_of_precedence (k := s.head.kind) (by omega)
    refine .advance (fun eof => above (by simp [eof, Kind.precedence])) ?_
    refine .bind (ih.primary _) (fun x hx => ⟨[], .operation op hx .noOperation⟩) fun operand s₁ v hv => ?_
    refine .bind (ih.operators _ _ _) (fun x hx => .whole (.operation op hv hx)) fun right s₂ w hw => ?_
    exact .last (ih.operators _ _ _) fun x hx => .operation op hv (derives_operations_append hw hx)

theorem spells_primary_step (s : Stream) : Phrase s (primary neg (n + 1)) (Derives neg .operand) := by
  refine .peek ?_
  split
  · next number => exact .advance (by simp [number]) (.ret (.number number))
  · next text => exact .advance (by simp [text]) (.ret (.text text))
  · refine ⟨fun t rest run => ?_, fun e run noArray ordered => ?_⟩
    · obtain ⟨split, inside, refers⟩ := (ih.reference s).takes t rest run
      exact ⟨split, inside, refers.elim (.value ·.2) (.reference ·.2)⟩
    · obtain ⟨u, refers⟩ := (ih.reference s).goes e run noArray ordered
      exact ⟨u, refers.elim .value .reference⟩
  · next minus =>
    refine .advance (by simp [minus]) ?_
    refine .peek ?_
    split
    · next number => exact .advance (by simp [number]) (.ret (.negative minus number))
    · split
      · next allowed => exact .final (ih.primary _) fun x hx => .negated allowed minus hx
      · exact .fail ⟨_, .negative minus kind_mark⟩
  · next paren =>
    refine .advance (by simp [paren]) ?_
    refine .bind (ih.expression _) (fun x hx => ⟨_, .parenthesized paren hx kind_mark⟩)
      fun inner s₁ w hw => ?_
    exact .close rfl fun r closed => .parenthesized paren hw closed
  · exact .fail ⟨_, derives_number⟩

theorem spells_reference_step (s : Stream) : Spells s [] (reference neg (n + 1)) (Refers neg)
    fun w => Derives neg .call w ∨ Derives neg .target w := by
  refine .expect rfl ⟨_, .inr (.name kind_mark)⟩ fun t s₁ name => ?_
  refine .accept rfl (fun paren => ?_) fun _ => .accept rfl (fun bracket => ?_) fun _ => ?_
  · refine .accept rfl (fun closed => .ret (.inl ⟨isCall_call, .plainCall name paren closed⟩)) fun _ => ?_
    have whole {r : Token} {w : List Token} (hw : Derives neg .arguments w) (closed : r.kind = .rparen) :
        Derives neg .call (t :: s₁.head :: (w ++ [r])) := .callWith name paren hw closed
    refine .bind (ih.arguments _) (fun x hx => ⟨_, .inl (whole hx kind_mark)⟩) fun args s₃ w hw => ?_
    exact .expect rfl ⟨_, .inl (whole hw kind_mark)⟩ fun r _ closed =>
      .ret (.inl ⟨isCall_call, whole hw closed⟩)
  · have whole {r : Token} {w : List Token} (hw : Derives neg .expression w) (closed : r.kind = .rbracket) :
        Derives neg .target (t :: s₁.head :: (w ++ [r])) := .element name bracket hw closed
    refine .bind (ih.expression _) (fun x hx => ⟨_, .inr (whole hx kind_mark)⟩) fun index s₃ w hw => ?_
    exact .expect rfl ⟨_, .inr (whole hw kind_mark)⟩ fun r _ closed =>
      .ret (.inr ⟨not_isCall_element, whole hw closed⟩)
  · exact .ret (.inr ⟨not_isCall_name, .name name⟩)

theorem spells_arguments_step (s : Stream) : Phrase s (arguments neg (n + 1)) (Derives neg .arguments) := by
  refine .bind (ih.expression s) (fun x hx => .whole (.lastArgument hx)) fun arg s₁ v hv => ?_
  refine .accept rfl (fun comma => ?_) fun _ => .ret ?_
  · exact .final (ih.arguments _) fun x hx => .argument hv comma hx
  rw [append_nil]
  exact .lastArgument hv

end Expressions

theorem expressionSpells (neg : Bool) (n : Nat) : ExpressionSpells neg n := by
  induction n with
  | zero => exact ⟨fun _ => .stuck, fun _ _ _ => .stuck, fun _ => .stuck, fun _ => .stuck, fun _ => .stuck⟩
  | succ n ih =>
    refine ⟨fun s => ?_, spells_operators_step ih, spells_primary_step ih, spells_reference_step ih,
      spells_arguments_step ih⟩
    refine .bind (ih.primary s) (fun x hx => ⟨[], .expression hx .noOperation⟩) fun first s₁ w hw => ?_
    exact .last (ih.operators s₁ 0 first) fun x hx => .expression hw hx

theorem spells_expression {s : Stream} : Phrase s (expression neg n) (Derives neg .expression) :=
  (expressionSpells neg n).expression s

/-! ## Statements -/

theorem spells_named (s : Stream) : Phrase s (named neg n) (Derives neg .statement) := by
  refine .bind ((expressionSpells neg n).reference s) ?_ fun target s₁ v refers => ?_
  · rintro x (call | target)
    · exact .whole (.perform call)
    · exact .whole (.mention target)
  rcases refers with ⟨⟨tok, f, args, rfl⟩, call⟩ | ⟨noCall, target⟩
  · refine .ret ?_
    rw [append_nil]
    exact .perform call
  · split
    · exact absurd isCall_call noCall
    · refine .peek ?_
      split
      · next assign =>
        refine .advance (by simp [assign]) ?_
        exact .final spells_expression fun x hx => .assign target assign hx
      · refine .ret ?_
        rw [append_nil]
        exact .mention target

/-- The tokens of a direction. -/
def IsDirection (w : List Token) : Prop := ∃ d, w = [d] ∧ (d.kind = .kwTo ∨ d.kind = .kwDownto)

theorem spells_direction (s : Stream) : Phrase s direction IsDirection := by
  refine .accept rfl (fun up => .ret ⟨_, rfl, .inl up⟩) fun _ => ?_
  refine .accept rfl (fun down => .ret ⟨_, rfl, .inr down⟩) fun _ => ?_
  exact .fail ⟨[mark .kwTo], mark .kwTo, rfl, .inl kind_mark⟩

/-- What the readers of statements take with depth `n`. -/
structure StatementSpells (neg : Bool) (n : Nat) : Prop where
  statement : ∀ s, Phrase s (statement neg n) (Derives neg .statement)
  body : ∀ s, Phrase s (body neg n) (Derives neg .statement)
  compound : ∀ s, Phrase s (compound neg n) (Derives neg .compound)
  statements : ∀ s, Phrase s (statements neg n) (Filling neg)

section Statements

variable (ih : StatementSpells neg n)

include ih

theorem spells_statement_step (s : Stream) : Phrase s (statement neg (n + 1)) (Derives neg .statement) := by
  refine .peek ?_
  split
  · exact spells_named s
  · next opens =>
    refine .advance (by simp [opens]) ?_
    refine .bind spells_expression (fun x hx => ⟨_, .branch opens hx kind_mark derives_break⟩)
      fun cond s₁ c hc => ?_
    refine .expect rfl ⟨_, .branch opens hc kind_mark derives_break⟩ fun t s₂ follows => ?_
    refine .bind (ih.body _) (fun x hx => .whole (.branch opens hc follows hx)) fun yes s₃ v hv => ?_
    refine .accept rfl (fun otherwise => ?_) fun _ => .ret ?_
    · exact .final (ih.body _) fun x hx => .branchElse opens hc follows hv otherwise hx
    · rw [append_nil]
      exact .branch opens hc follows hv
  · next opens =>
    have upward : (mark .kwTo).kind = .kwTo ∨ (mark .kwTo).kind = .kwDownto := .inl kind_mark
    refine .advance (by simp [opens]) ?_
    refine .expect rfl ⟨_, .count opens kind_mark kind_mark derives_constant upward derives_constant
      kind_mark derives_break⟩ fun x s₁ name => ?_
    refine .expect rfl ⟨_, .count opens name kind_mark derives_constant upward derives_constant
      kind_mark derives_break⟩ fun a s₂ assign => ?_
    refine .bind spells_expression (fun x hx => ⟨_, .count opens name assign hx upward
      derives_constant kind_mark derives_break⟩) fun start s₃ v hv => ?_
    refine .bind (spells_direction _) ?_ fun down s₄ _ direction => ?_
    · rintro _ ⟨d, rfl, direction⟩
      have goes : Derives neg .statement (s.head :: x :: a :: (v ++ d ::
          ([mark .number] ++ mark .kwDo :: [mark .kwBreak]))) :=
        .count opens name assign hv direction derives_constant kind_mark derives_break
      exact ⟨_, goes⟩
    obtain ⟨d, rfl, direction⟩ := direction
    refine .bind spells_expression (fun x hx => ⟨_, .count opens name assign hv direction
      hx kind_mark derives_break⟩) fun stop s₅ w hw => ?_
    refine .expect rfl ⟨_, .count opens name assign hv direction hw kind_mark derives_break⟩
      fun k s₆ follows => ?_
    exact .final (ih.body _) fun x hx => .count opens name assign hv direction hw follows hx
  · next opens =>
    refine .advance (by simp [opens]) ?_
    refine .bind spells_expression (fun x hx => ⟨_, .loop opens hx kind_mark derives_break⟩)
      fun cond s₁ c hc => ?_
    refine .expect rfl ⟨_, .loop opens hc kind_mark derives_break⟩ fun t s₂ follows => ?_
    exact .final (ih.body _) fun x hx => .loop opens hc follows hx
  · exact .last (ih.compound s) fun x => .block
  · next leave => exact .advance (by simp [leave]) (.ret (.leave leave))
  · next exit => exact .advance (by simp [exit]) (.ret (.exit exit))
  · exact .fail ⟨_, derives_break⟩

theorem spells_statements_step (s : Stream) : Phrase s (statements neg (n + 1)) (Filling neg) := by
  refine .peek ?_
  split
  · exact .ret (.inl (forall_mem_nil _))
  · refine .accept rfl (fun semi => .last (ih.statements _) fun x hx => hx.semi semi) fun _ => ?_
    refine .bind (ih.statement s) (fun x hx => .whole (.last hx)) fun stmt s₁ v hv => ?_
    refine .accept rfl (fun semi => ?_) fun _ => .ret ?_
    · exact .final (ih.statements _) fun x hx => .next hv semi hx
    rw [append_nil]
    exact .last hv

end Statements

theorem statementSpells (neg : Bool) (n : Nat) : StatementSpells neg n := by
  induction n with
  | zero => exact ⟨fun _ => .stuck, fun _ => .stuck, fun _ => .stuck, fun _ => .stuck⟩
  | succ n ih =>
    refine ⟨spells_statement_step ih, fun s => ?_, fun s => ?_, spells_statements_step ih⟩
    · rw [body]
      refine .peek ?_
      split
      · exact .last (ih.compound s) fun x => .block
      · exact .final (ih.statement s) fun x hx => hx
    · rw [compound]
      refine .expect rfl ⟨_, derives_empty⟩ fun b s₁ opens => ?_
      refine .bind (ih.statements _) (fun x hx => ⟨_, hx.compound opens kind_mark⟩)
        fun stmts s₂ w hw => ?_
      exact .close rfl fun e ends => hw.compound opens ends

/-! ## Declarations -/

/-- A number can be gone on with to whatever goes on with its sign. -/
theorem spells_signed {G : List Token → Prop} (s : Stream)
    (negative : ∀ m : Token, m.kind = .minus → ∃ u, G (m :: u)) (plain : ∃ u, G u) : Spells s [] signed Signed G := by
  refine .accept rfl (fun minus => ?_) fun _ => ?_
  · exact .expect rfl (negative _ minus) fun t _ number => .ret (.negative minus number)
  · exact .expect rfl plain fun t _ number => .ret (.plain number)

theorem spells_number {s : Stream} : Spells s [] signed Signed fun w => ∃ value, Signed value w :=
  spells_signed s (fun _ minus => ⟨_, _, .negative minus kind_mark⟩) ⟨_, _, signed_numeral 0⟩

/-- Behind a lower bound there is an upper bound for every sign that has been read. -/
theorem spells_upper (s : Stream) (lower : Int64) : Spells s [] signed Signed (Signed lower) := by
  refine spells_signed s (fun m minus => ⟨[numeral (-lower)], ?_⟩) ⟨_, signed_numeral lower⟩
  have negative : Signed (-(numeral (-lower)).number) [m, numeral (-lower)] := .negative minus rfl
  rwa [show -(numeral (-lower)).number = lower from Int64.neg_neg] at negative

theorem spells_type {s : Stream} :
    Spells s [] (type n) IsType fun w => ∃ type, IsType type w := by
  induction n generalizing s with
  | zero => exact .stuck
  | succ n ih =>
    refine .peek (.accept rfl (fun integer => .ret (.integer integer)) fun _ => ?_)
    refine .accept rfl (fun array => ?_) fun _ => .fail ⟨_, _, isType_integer⟩
    -- Up to the upper bound, the array is gone on with to one of a single element.
    have single {lower : Int64} {a l d r o : Token} {v w : List Token} (ha : a.kind = .kwArray)
        (hl : l.kind = .lbracket) (hv : Signed lower v) (hd : d.kind = .dotDot) (hw : Signed lower w)
        (hr : r.kind = .rbracket) (ho : o.kind = .kwOf) :
        ∃ type, IsType type (a :: l :: (v ++ d :: (w ++ r :: o :: [mark .kwInteger]))) :=
      ⟨_, .array ha hl hv hd hw hr ho isType_integer (Int64.le_refl _)⟩
    refine .expect rfl ⟨_, single array kind_mark (signed_numeral 0) kind_mark (signed_numeral 0)
      kind_mark kind_mark⟩ fun l s₁ opens => ?_
    refine .bind spells_number ?_ fun lower s₂ v hv => ?_
    · rintro x ⟨lower, hx⟩
      exact ⟨_, single array opens hx kind_mark (signed_numeral lower) kind_mark kind_mark⟩
    refine .expect rfl ⟨_, single array opens hv kind_mark (signed_numeral lower) kind_mark
      kind_mark⟩ fun d s₃ dots => ?_
    refine .bind (spells_upper _ lower) (fun x hx => ⟨_, single array opens hv dots hx
      kind_mark kind_mark⟩) fun upper s₄ w hw => ?_
    by_cases le : lower ≤ upper
    · refine .expect rfl
        ⟨_, _, .array array opens hv dots hw kind_mark kind_mark isType_integer le⟩
        fun r s₅ closes => ?_
      refine .expect rfl
        ⟨_, _, .array array opens hv dots hw closes kind_mark isType_integer le⟩ fun o s₆ of => ?_
      refine .bind ih ?_ fun elem s₇ u hu => ?_
      · rintro x ⟨type, hx⟩
        exact .whole ⟨_, .array array opens hv dots hw closes of hx le⟩
      split
      · exact .refuse
      · refine .ret ?_
        rw [append_nil]
        exact .array array opens hv dots hw closes of hu le
    · refine .disordered (fun inOrder => le ?_) ?_
      · refine inOrder [] s.head l d lower upper v w [] ?_ array opens hv dots hw
        simp
      · refine .expect rfl ⟨[], trivial⟩ fun _ s₅ _ => .expect rfl ⟨[], trivial⟩ fun _ s₆ _ => ?_
        refine .bind ih (fun _ _ => ⟨[], trivial⟩) fun elem s₇ _ _ => ?_
        rw [if_pos (Int64.not_le.mp le)]
        exact .refuse

theorem phrase_type {s : Stream} : Phrase s (type n) fun w => ∃ type, IsType type w :=
  spells_type.mono (fun type _ h => ⟨type, h⟩) fun _ h => h

theorem spells_names (s : Stream) : Phrase s (names n) Names := by
  induction n generalizing s with
  | zero => exact .stuck
  | succ n ih =>
    refine .expect rfl ⟨_, .last kind_mark⟩ fun x s₁ name => ?_
    refine .accept rfl (fun comma => ?_) fun _ => .ret (.last name)
    exact .final (ih _) fun x hx => .next name comma hx

theorem spells_group (s : Stream) : Phrase s (group n) Group := by
  refine .bind (spells_names s) (fun x hx => ⟨_, .mk hx kind_mark isType_integer⟩) fun names s₁ v hv => ?_
  refine .expect rfl ⟨_, .mk hv kind_mark isType_integer⟩ fun c s₂ colon => .peek ?_
  refine .final phrase_type ?_
  rintro x ⟨type, hx⟩
  exact .mk hv colon hx

theorem group_mark : Group [mark .identifier, mark .colon, mark .kwInteger] :=
  .mk (.last kind_mark) kind_mark isType_integer

theorem spells_vars (s : Stream) : Phrase s (vars n) Variables := by
  refine .expect rfl ⟨_, .mk kind_mark group_mark kind_mark⟩ fun k s₁ var => ?_
  refine .bind (spells_group _) (fun x hx => ⟨_, .mk var hx kind_mark⟩) fun decls s₂ w hw => ?_
  exact .close rfl fun e semi => .mk var hw semi

theorem spells_definitions (s : Stream) : Phrase s (definitions n) Definitions := by
  induction n generalizing s with
  | zero => exact .stuck
  | succ n ih =>
    refine .expect rfl ⟨_, .last kind_mark kind_mark (signed_numeral 0) kind_mark⟩
      fun x s₁ name => ?_
    refine .expect rfl ⟨_, .last name kind_mark (signed_numeral 0) kind_mark⟩
      fun e s₂ equals => ?_
    refine .bind spells_number ?_ fun value s₃ v hv => ?_
    · rintro x ⟨value, hx⟩
      exact ⟨_, .last name equals hx kind_mark⟩
    refine .expect rfl ⟨_, .last name equals hv kind_mark⟩ fun d s₄ semi => .peek ?_
    split
    · exact .final (ih _) fun x hx => .next name equals hv semi hx
    · exact .ret (.last name equals hv semi)

theorem spells_constants (s : Stream) : Phrase s (constants n) Constants := by
  refine .expect rfl ⟨_, .mk kind_mark (.last kind_mark kind_mark (signed_numeral 0)
    kind_mark)⟩ fun k s₁ const => ?_
  exact .last (spells_definitions _) fun x hx => .mk const hx

theorem spells_parameters (s : Stream) : Phrase s (parameters n) fun w => w = [] ∨ Groups w := by
  induction n generalizing s with
  | zero => exact .stuck
  | succ n ih =>
    refine .peek ?_
    split
    · refine .bind (spells_group s) (fun x hx => .whole (.inr (.last hx))) fun first s₁ v hv => ?_
      refine .accept rfl (fun semi => .final (ih _) ?_) fun _ => .ret (.inr ?_)
      · rintro x (rfl | hx)
        · exact .inr (.lastSemi hv semi)
        · exact .inr (.next hv semi hx)
      · rw [append_nil]
        exact .last hv
    · exact .ret (.inl rfl)

theorem spells_parameterList (s : Stream) : Phrase s (parameterList n) Parameters := by
  refine .accept rfl (fun opens => ?_) fun _ => .ret .none
  have closed {x : List Token} {r : Token} (h : x = [] ∨ Groups x) (closes : r.kind = .rparen) :
      Parameters (s.head :: (x ++ [r])) := by
    rcases h with rfl | h
    · exact .empty opens closes
    · exact .given opens h closes
  refine .bind (spells_parameters _) (fun x hx => ⟨_, closed hx kind_mark⟩) fun params s₁ w hw => ?_
  exact .close rfl fun r closes => closed hw closes

/-- With the result of a function the heading of a routine is whole. -/
theorem spells_result (word : k.kind = routineWord isFunction)
    (name : x.kind = .identifier) (params : Parameters v) (s : Stream) :
    Spells s [] (result isFunction n) (fun type w => Heading type (k :: x :: (v ++ w)))
      fun w => ∃ type, Heading type (k :: x :: (v ++ w)) := by
  cases isFunction with
  | false =>
    refine .ret ?_
    rw [append_nil]
    exact .procedure word name params
  | true =>
    rw [result, if_pos rfl]
    refine .expect rfl ⟨_, _, .function word name params kind_mark isType_integer⟩
      fun c s₁ colon => ?_
    refine spells_type.mono (fun type w hw => .function word name params colon hw) ?_
    rintro w ⟨type, hw⟩
    exact ⟨type, .function word name params colon hw⟩

theorem spells_locals (s : Stream) : Phrase s (locals n) Locals := by
  induction n generalizing s with
  | zero => exact .stuck
  | succ n ih =>
    refine .peek ?_
    split
    · refine .bind (spells_vars s) (fun x hx => .whole (append_nil x ▸ .cons hx .nil))
        fun decls s₁ v hv => ?_
      exact .final (ih _) fun x hx => .cons hv hx
    · exact .ret .nil

theorem spells_routine (word : k.kind = routineWord isFunction)
    (s : Stream) : Phrase s (routine neg isFunction t n) fun w => Routine neg (k :: w) := by
  -- The reader takes the heading and what is behind it in three parts.
  have apart {x : Token} {v w rest : List Token} (h : Routine neg (k :: x :: (v ++ w) ++ rest)) :
      Routine neg (k :: x :: (v ++ (w ++ rest))) := by
    rwa [cons_append, cons_append, append_assoc] at h
  -- Name and parameters are gone on with to a declaration in advance.
  have ahead {x : Token} {v : List Token} (name : x.kind = .identifier) (params : Parameters v) :
      ∃ u, Routine neg (k :: x :: (v ++ u)) := by
    have heading : ∃ w type, Heading type (k :: x :: (v ++ w)) := by
      cases isFunction with
      | false => exact ⟨[], _, .procedure word name ((append_nil v).symm ▸ params)⟩
      | true => exact ⟨_, _, .function word name params kind_mark isType_integer⟩
    obtain ⟨w, type, heading⟩ := heading
    exact ⟨_, apart (.forward heading kind_mark kind_mark kind_mark)⟩
  refine .expect rfl ?_ fun x s₁ name => ?_
  · obtain ⟨u, goes⟩ := ahead kind_mark .none
    exact ⟨_, goes⟩
  refine .bind (spells_parameterList _) ?_ fun params s₂ v hv => ?_
  · intro v hv
    obtain ⟨u, goes⟩ := ahead name hv
    exact ⟨u, goes⟩
  refine .bind (spells_result word name hv _) ?_ fun result s₃ w heading => ?_
  · rintro w ⟨type, heading⟩
    exact ⟨_, apart (.forward heading kind_mark kind_mark kind_mark)⟩
  refine .expect rfl ⟨_, apart (.forward heading kind_mark kind_mark kind_mark)⟩
    fun d s₄ semi => ?_
  refine .accept rfl (fun forward => ?_) fun _ => ?_
  · exact .close rfl fun e semi' => apart (.forward heading semi forward semi')
  · refine .bind (spells_locals _)
      (fun l hl => ⟨_, apart (.defined heading semi hl derives_empty kind_mark)⟩) fun locals s₅ l hl => ?_
    refine .bind ((statementSpells neg n).compound s₅)
      (fun b hb => ⟨_, apart (.defined heading semi hl hb kind_mark)⟩) fun body s₆ b hb => ?_
    exact .close rfl fun e semi' => apart (.defined heading semi hl hb semi')

/-! ## Programs -/

/-- A block that does not start with a name. -/
def Nameless (neg : Bool) (w : List Token) : Prop :=
  Block neg w ∧ ∀ t, w.head? = some t → t.kind ≠ .identifier

namespace Nameless

variable {neg : Bool} {v w : List Token}

theorem empty : Nameless neg [mark .kwBegin, mark .kwEnd] := by
  refine ⟨.body (.block derives_empty), ?_⟩
  rintro t ⟨⟩
  decide

theorem vars (hv : Variables v) (h : Block neg w) : Nameless neg (v ++ w) := by
  refine ⟨.vars hv h, ?_⟩
  obtain ⟨var, -, -⟩ := hv
  rintro t ⟨⟩
  simp [var]

theorem consts (hv : Constants v) (h : Nameless neg w) : Nameless neg (v ++ w) := by
  refine ⟨.consts hv h.1 h.2, ?_⟩
  obtain ⟨const, -⟩ := hv
  rintro t ⟨⟩
  simp [const]

theorem routine {isFunction : Bool} {k : Token} (word : k.kind = routineWord isFunction)
    (hv : Routine neg (k :: v)) (h : Block neg w) : Nameless neg (k :: (v ++ w)) := by
  refine ⟨.routine hv h, ?_⟩
  rintro t ⟨⟩
  rw [word]
  cases isFunction <;> decide

end Nameless

/-- Declarations go in front of any block, unless constants would be followed by a name that does not
follow them in the stream. -/
def Precedes (neg : Bool) (s : Stream) (v : List Token) : Prop :=
  ∀ rest : Stream, s = rest.prepend v → ∀ u, Block neg u →
    (∀ t, u.head? = some t → t.kind = .identifier → rest.head.kind = .identifier) → Block neg (v ++ u)

theorem prepend_cancel {rest rest' : Stream} (h : rest.prepend v = rest'.prepend v) : rest = rest' := by
  have tokens : rest.tokens = rest'.tokens := append_cancel_left (congrArg Stream.tokens h)
  have closing : (rest.prepend v).closing = (rest'.prepend v).closing := congrArg Stream.closing h
  cases rest
  cases rest'
  cases tokens
  cases closing
  rfl

/-- A section in front of declarations. -/
theorem Precedes.front {s₁ : Stream} (precedes : Precedes neg s₁ w) (split : s = s₁.prepend v)
    (step : ∀ (rest : Stream) (u : List Token), s₁ = rest.prepend w →
      (∀ t, u.head? = some t → t.kind = .identifier → rest.head.kind = .identifier) →
      Block neg (w ++ u) → Block neg (v ++ (w ++ u))) : Precedes neg s (v ++ w) := by
  intro rest split' u body starts
  have same : s₁ = rest.prepend w := by
    refine prepend_cancel (v := v) ?_
    rw [← split, split', Stream.prepend_append]
  rw [append_assoc]
  exact step rest u same starts (precedes rest same u body starts)

/-- Definitions are read up to where no name follows. -/
theorem definitions_end
    (run : (definitions n).run s = some (.ok (decls, rest))) : rest.head.kind ≠ .identifier := by
  induction n generalizing s decls with
  | zero => cases run
  | succ n ih =>
    obtain ⟨_, s₁, -, run⟩ := of_run_bind_ok run
    obtain ⟨_, s₂, -, run⟩ := of_run_bind_ok run
    obtain ⟨_, s₃, -, run⟩ := of_run_bind_ok run
    obtain ⟨_, s₄, -, run⟩ := of_run_bind_ok run
    change Pull.run (if s₄.head.kind = .identifier then _ else _) s₄ = _ at run
    split at run
    · obtain ⟨_, s₅, later, run⟩ := of_run_bind_ok run
      cases run
      exact ih later
    · next ends =>
      cases run
      exact ends

theorem spells_declarations (s : Stream) :
    Spells s [] (declarations neg n) (fun _ v => Precedes neg s v) (Nameless neg) := by
  induction n generalizing s with
  | zero => exact .stuck
  | succ n ih =>
    have routine (isFunction : Bool) (word : s.head.kind = routineWord isFunction) : Spells s [] (do
          advance
          let decl ← routine neg isFunction s.head n
          let later ← declarations neg n
          return { later with routines := decl :: later.routines }) (fun _ v => Precedes neg s v)
          (Nameless neg) := by
      have known : s.head.kind ≠ .eof := word ▸ by cases isFunction <;> decide
      refine .advance known (.after (spells_routine word _)
        (fun x hx => ⟨_, .routine word hx Nameless.empty.1⟩) fun decl s₁ v _ split hv => ?_)
      refine .bind (ih s₁) (fun x hx => .whole (.routine word hv hx.1)) fun later s₂ w precedes => .ret ?_
      rw [append_nil]
      refine precedes.front ?_ fun rest u _ _ block => .routine hv block
      conv => lhs; rw [Stream.eq_prepend_head known, split, ← Stream.prepend_append]
      rfl
    refine .peek ?_
    split
    · refine .after (spells_vars s) (fun x hx => ⟨_, .vars hx Nameless.empty.1⟩)
        fun decls s₁ v _ split hv => ?_
      refine .bind (ih s₁) (fun x hx => .whole (.vars hv hx.1)) fun later s₂ w precedes => .ret ?_
      rw [append_nil]
      exact precedes.front split fun rest u _ _ block => .vars hv block
    · refine .after (spells_constants s) (fun x hx => ⟨_, .consts hx .empty⟩)
        fun decls s₁ v run split hv => ?_
      refine .bind (ih s₁) (fun x hx => .whole (.consts hv hx)) fun later s₂ w precedes => .ret ?_
      rw [append_nil]
      obtain ⟨_, _, -, run⟩ := of_run_bind_ok run
      have ends := definitions_end run
      refine precedes.front split fun rest u same starts block => .consts hv block fun t first name => ?_
      rw [same] at ends
      cases w with
      | nil => exact ends (starts t first name)
      | cons t' w =>
        cases first
        exact ends name
    · next word => exact routine true word
    · next word => exact routine false word
    · exact .ret fun rest _ u body _ => body

/-- A reader that passes tokens starts with the first of them. -/
theorem head_of_taken {α : Type} {p : Pull α} (start : p.taken s = t :: w) : s.head = t := by
  obtain ⟨tokens, closing⟩ := s
  rw [taken] at start
  cases tokens with
  | nil => cases start.symm.trans take_nil
  | cons t' tokens =>
    generalize p.passed ⟨t' :: tokens, closing⟩ = k at start
    cases k with
    | zero => cases start
    | succ k =>
      cases start
      rfl

/-- The body of a program is gone on with to one that starts with a name only if a name stands there. -/
theorem spells_main (s : Stream) : Spells s [] (body neg n) (fun _ w => Derives neg .statement w) fun w =>
    Derives neg .statement w ∧ ∀ t, w.head? = some t → t.kind = .identifier → s.head.kind = .identifier := by
  have body := (statementSpells neg n).body s
  refine ⟨body.takes, fun e run noArray ordered => ?_⟩
  obtain ⟨u, derives⟩ := body.goes e run noArray ordered
  cases start : (Pull.body neg n).taken s with
  | nil =>
    refine ⟨[mark .kwBegin, mark .kwEnd], .block derives_empty, ?_⟩
    rintro t ⟨⟩ name
    cases name
  | cons t w =>
    rw [start] at derives
    refine ⟨u, derives, ?_⟩
    rintro t' ⟨⟩ name
    rwa [head_of_taken start]

theorem spells_sentence (s : Stream) : Phrase s (sentence neg n) (Program neg) := by
  have block : Block neg [mark .kwBegin, mark .kwEnd] := Nameless.empty.1
  refine .expect rfl ⟨_, .mk kind_mark kind_mark kind_mark block kind_mark⟩
    fun p s₁ program => ?_
  refine .expect rfl ⟨_, .mk program kind_mark kind_mark block kind_mark⟩
    fun x s₂ name => ?_
  refine .expect rfl ⟨_, .mk program name kind_mark block kind_mark⟩ fun d s₃ semi => ?_
  refine .after (spells_declarations s₃) (fun x hx => ⟨_, .mk program name semi hx.1 kind_mark⟩)
    fun ds s₄ v _ split precedes => ?_
  have whole {w : List Token} {e : Token} (hw : Derives neg .statement w)
      (starts : ∀ t, w.head? = some t → t.kind = .identifier → s₄.head.kind = .identifier)
      (dot : e.kind = .dot) : Program neg (p :: x :: d :: (v ++ (w ++ [e]))) := by
    rw [← append_assoc]
    exact .mk program name semi (precedes s₄ split w (.body hw) starts) dot
  refine .after (spells_main s₄) (fun w hw => ⟨_, whole hw.1 hw.2 kind_mark⟩)
    fun main s₅ w _ split' hw => ?_
  refine .close rfl fun e dot => whole hw (fun t starts name => ?_) dot
  obtain ⟨w', rfl⟩ := head?_eq_some_iff.mp starts
  rw [split']
  exact name

/-- The tokens that have been passed when a program turns out to be faulty start some program. -/
theorem viable_program (run : (program neg n).run s = some (.error e))
    (noArray : ∀ t l u, e ≠ .emptyArray t l u) (ordered : Ordered ((program neg n).taken s)) :
    Viable (Program neg) ((program neg n).taken s) := by
  rcases of_run_bind run with ⟨e', run', fault⟩ | ⟨tree, rest, run', later⟩
  · cases fault
    rw [program, taken_bind_error run'] at ordered ⊢
    exact (spells_sentence s).goes e run' noArray ordered
  · have more : rest.head.kind ≠ .eof := by
      intro ends
      rw [run_bind_ok (expect_of ends).1] at later
      cases later
    have none : (expect .eof).taken rest = [] := by
      rw [taken, (expect_of_ne more).2]
      rfl
    rw [program, taken_bind_ok run', taken_bind_error (expect_of_ne more).1, none, append_nil]
    exact .whole ((spells_sentence s).takes tree rest run').2.2

end Pull

namespace Tree

open Grammar

theorem expect_ok {s rest : Stream} {k : Kind} {hk : k ≠ .eof} {t : Token} {lt : rest.size < s.size}
    (run : s.expect k hk = .ok ⟨t, rest, lt⟩) : s = rest.prepend [t] ∧ t.kind = k := by
  unfold Stream.expect at run
  split at run
  · next kind =>
    cases run
    exact ⟨Stream.eq_prepend_head (kind ▸ hk), kind⟩
  · cases run

/-- What is read as a program has the tokens of one, and stands before the end of input. -/
theorem program_of_read (run : Tree.read neg s = .ok r) :
    ∃ (w : List Token) (rest : Stream), s = rest.prepend w ∧ (∀ t ∈ w, t.kind ≠ .eof) ∧
      rest.head.kind = .eof ∧ Program neg w := by
  have run' : (Pull.program neg (Pull.depth s)).run s = some (.ok r) := by
    rw [Pull.run_program (Nat.le_refl _), run]
  obtain ⟨tree, rest, sentence, later⟩ := Pull.of_run_bind_ok run'
  obtain ⟨split, inside, program⟩ := (Pull.spells_sentence s).takes tree rest sentence
  refine ⟨_, rest, split, inside, Decidable.byContradiction fun more => ?_, program⟩
  rw [Pull.run_bind_error (Pull.expect_of_ne more).1] at later
  cases later

end Tree

end MiniPascal
