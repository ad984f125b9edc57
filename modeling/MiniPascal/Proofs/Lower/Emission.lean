import MiniPascal.Proofs.Lower.Steps

/-!
# Pieces are lowered to their code

Lowering a piece of a routine's body reports no fault and calls only routines that are given a body exactly
if the piece obeys the static rules, and what is then listed for it is the code that the relations of
`MiniPascal.Proofs.Lower.Code` give it. Both are said at once, in one walk through the functions of lowering.
-/

open List

namespace MiniPascal.Lower

open Ir (Value Instr Ty Line plain)
open Static
open Tree (IsExpr IsReference IsStmt)

/-! ## Names -/

section Names

variable {K : Prop} {P : Place} {c : Counters} {x f : String}

/-- What it means that a name was found to stand for something. -/
def Resolves (L : Layout) (x : String) : Binding → Prop
  | .constant value => L.constant? x = some value
  | .storage v => L.Holds x v.type ∧ v.type.Proper ∧ v.address = L.address x
  | .unbound => L.Free x

theorem meets_resolve (x : String) : Meets K True P c (resolve x) True (Still c (Resolves P.layout x)) := by
  refine ⟨fun _ => keeps_resolve x, fun _ _ _ _ _ => trivial, fun _ _ s ready => ?_⟩
  have frame := keeps_resolve x s
  obtain ⟨locals, globals, marks⟩ := resolve_snd x s
  rw [marks] at frame ⊢
  refine ⟨[], c, ⟨frame, rfl, fun _ h => .inl h, (append_nil _).symm, ready.counters⟩, fun _ _ => ⟨?_, rfl, rfl⟩⟩
  have constant := ready.constants x
  have found := ready.storage x
  rw [resolve_fst]
  cases hc : s.constants.get? x with
  | some value => exact constant.symm.trans hc
  | none =>
    have free := constant.symm.trans hc
    cases hv : s.storage? x with
    | some v =>
      rw [hv] at found
      obtain ⟨type, typed, same⟩ := Option.map_eq_some_iff.mp found.symm
      obtain ⟨rfl, address⟩ := Prod.mk.inj same
      exact ⟨⟨free, typed⟩, ready.proper x _ typed, address.symm⟩
    | none =>
      rw [hv] at found
      exact ⟨free, Option.map_eq_none_iff.mp found.symm⟩

/-- Whether a name is that of a routine is known from the scope. -/
theorem meets_isCallable (x : String) : Meets K True P c (isCallable x) True
    (Still c fun b => b = true ↔ (Builtin.ofName? x).isSome = true ∨ (P.layout.routine? x).isSome = true) := by
  refine ⟨fun _ s => .refl s, fun _ _ _ _ _ => trivial, fun _ _ s ready => ?_⟩
  refine ⟨[], c, ⟨.refl s, rfl, fun _ h => .inl h, (append_nil _).symm, ready.counters⟩, fun _ _ => ⟨?_, rfl, rfl⟩⟩
  have same := congrArg Option.isSome (ready.routines x)
  rw [Option.isSome_map, Option.isSome_map] at same
  rw [← same]
  exact iff_of_eq (Bool.or_eq_true _ _)

/-- What is known about a routine that is about to be called. -/
structure Chosen (L : Layout) (f : String) (count : Nat) (wantValue : Bool) (sig : Signature) : Prop where
  routine : L.routine? f = some sig
  defined : L.defined f
  count : count = sig.params.length
  value : wantValue = true → sig.result ≠ .void

theorem Ready.entry (ready : Ready P c s) (entry : s.routines.get? f = some r) :
    P.layout.routine? f = some ⟨r.params, r.result⟩ ∧ r.symbol = "pas_" ++ f := by
  have same := ready.routines f
  rw [entry] at same
  obtain ⟨sig, routine, pair⟩ := Option.map_eq_some_iff.mp same.symm
  obtain ⟨rfl, symbol⟩ := Prod.mk.inj pair
  exact ⟨routine, symbol.symm⟩

/-- A routine with the mark of a call. -/
def Routine.mark (r : Routine) (tok : Token) : Routine := { r with call? := r.call?.or (some tok) }

/-- A state in which a routine has the mark of a call. -/
def State.mark (s : State) (f : String) (r : Routine) (tok : Token) : State :=
  { s with routines := s.routines.insert f (r.mark tok) }

variable {s : State} {r : Routine} {tok : Token} {count : Nat} {wantValue : Bool}

/-- Marking a routine as called changes nothing else. -/
theorem frame_mark (entry : s.routines.get? f = some r) (tok : Token) : Frame s (s.mark f r tok) :=
  { Frame.refl s with
    routines := Table.map_get?_insert _ entry rfl
    unique := fun h => h.insert _ _
    called := by
      rintro g ⟨r', found, marked⟩
      by_cases same : g = f
      · subst same
        exact ⟨_, Table.get?_insert_self _ _ _, by simp [Routine.mark]⟩
      · exact ⟨r', (Table.get?_insert_of_ne _ _ same).trans found, marked⟩ }

/-- What is left to check of a call once its routine has been found and marked. -/
def checkCall (tok : Token) (f : String) (count : Nat) (wantValue : Bool) (r : Routine) :
    Lowering (Option Routine) := do
  if count ≠ r.params.length then
    fault tok (.argumentCount f r.params.length count)
    return none
  else if wantValue && r.result == .void then
    fault tok (.valuelessProcedure f)
    return none
  else
    return some r

theorem callee_absent (entry : s.routines.get? f = none) : callee tok f count wantValue s =
    (do fault tok (.unknownRoutine f); return none : Lowering (Option Routine)) s := by
  unfold callee
  rw [bind_apply, get_apply, entry]

theorem callee_found (entry : s.routines.get? f = some r) :
    callee tok f count wantValue s = checkCall tok f count wantValue (r.mark tok) (s.mark f r tok) := by
  unfold callee
  rw [bind_apply, get_apply, entry]
  rfl

theorem meets_checkCall {H : Prop} (known : H → P.layout.routine? f = some ⟨r.params, r.result⟩)
    (defined : H → P.layout.defined f) : Meets K H P c (checkCall tok f count wantValue r)
      (∃ sig, Chosen P.layout f count wantValue sig)
      (Still c fun r? => r? = some r ∧ Chosen P.layout f count wantValue ⟨r.params, r.result⟩) := by
  refine .ite (fun differ => .fail tok rfl _ ?_) fun same => .ite (fun void => .fail tok rfl _ ?_) fun value =>
    .pure fun h => ?_
  · rintro h ⟨sig, chosen⟩
    cases (known h).symm.trans chosen.routine
    exact differ chosen.count
  · rintro h ⟨sig, chosen⟩
    cases (known h).symm.trans chosen.routine
    simp only [Bool.and_eq_true, beq_iff_eq] at void
    exact chosen.value void.1 void.2
  · have chosen : Chosen P.layout f count wantValue ⟨r.params, r.result⟩ :=
      ⟨known h, defined h, by simpa using same, by simpa using value⟩
    exact ⟨⟨_, chosen⟩, fun _ => ⟨⟨rfl, chosen⟩, rfl, rfl⟩⟩

/-- A routine that can be called is found and marked. -/
theorem meets_callee (tok : Token) (f : String) (count : Nat) (wantValue : Bool) :
    Meets K True P c (callee tok f count wantValue) (∃ sig, Chosen P.layout f count wantValue sig)
      (Still c fun r? => ∃ r, r? = some r ∧ r.symbol = "pas_" ++ f ∧
        Chosen P.layout f count wantValue ⟨r.params, r.result⟩) := by
  have keeps (r : Routine) (k : K) : Keeps (checkCall tok f count wantValue r) :=
    (meets_checkCall (P := P) (c := c) False.elim False.elim).keeps k
  refine ⟨fun k s => ?_, fun k _ s ready calm => ?_, fun _ typed s ready => ?_⟩
  · cases entry : s.routines.get? f with
    | none => rw [callee_absent entry]; exact ((keeps_fault tok rfl).bind fun _ => .pure _) s
    | some r => rw [callee_found entry]; exact (frame_mark entry tok).trans (keeps _ k _)
  · obtain ⟨quiet, called⟩ := calm
    cases entry : s.routines.get? f with
    | none =>
      rw [callee_absent entry] at quiet
      simp at quiet
    | some r =>
      rw [callee_found entry] at quiet called
      have defined : P.layout.defined f :=
        called f ((keeps _ k _).called f ⟨_, Table.get?_insert_self _ _ _, by simp [Routine.mark]⟩)
      exact (meets_checkCall (r := r.mark tok) (fun _ => (ready.entry entry).1) fun _ => defined).calm k trivial _
        (ready.frame (frame_mark entry tok) ready.counters) ⟨quiet, called⟩
  · obtain ⟨sig, chosen⟩ := typed
    cases entry : s.routines.get? f with
    | none =>
      have same := ready.routines f
      rw [entry, chosen.routine] at same
      cases same
    | some r =>
      obtain ⟨routine, symbol⟩ := ready.entry entry
      have mark : Effect P.layout.defined s [] c (s.mark f r tok) := by
        refine ⟨frame_mark entry tok, rfl, ?_, (append_nil _).symm, ready.counters⟩
        rintro g ⟨r', found, called⟩
        by_cases this : g = f
        · exact .inr (this ▸ chosen.defined)
        · rw [State.mark, Table.get?_insert_of_ne _ _ this] at found
          exact .inl ⟨r', found, called⟩
      rw [callee_found entry]
      obtain ⟨ls, c', effect, post⟩ := (meets_checkCall (K := K) (r := r.mark tok) (fun _ => routine)
        fun _ => chosen.defined).does trivial ⟨sig, chosen⟩ _ (ready.frame mark.frame mark.counters)
      refine ⟨ls, c', mark.trans effect, fun strings later => ?_⟩
      obtain ⟨⟨same, chosen⟩, rest⟩ := post strings later
      exact ⟨⟨_, same, symbol, chosen⟩, rest⟩

end Names

/-! ## Expressions -/

section Expressions

variable {K : Prop} {P : Place} {n k : Nat} {t : Tree} {f x : String}

/-- The code of an integer expression was added. -/
abbrev Word (P : Place) (t : Tree) (n : Nat) (v : Value) (is : List Instr) (n' : Nat) : Prop :=
  Emits P.layout (.word t v) n is n'

/-- An expression came to the address of a string or to a word. -/
inductive Valued (P : Place) (n : Nat) (strings : List Ir.StringLit) : Tree → Value × Ty → List Instr → Nat → Prop
  | text : Literal strings text v →
    Valued P n strings (.text tok text) (v, .address) [] n
  | word {t : Tree} : Word P t n v is n' →
    Valued P n strings t (v, .word) is n'

/-- A step adds straight-line code, if `T` holds. -/
abbrev Codes (K : Prop) (P : Place) (n k : Nat) {α : Type} (m : Lowering α) (T : Prop)
    (R : List Ir.StringLit → α → List Instr → Nat → Prop) : Prop :=
  Meets K True P ⟨n, k, true⟩ m T (Coded k R)

/-- A step adds the code of an integer expression. -/
abbrev CodesWord (K : Prop) (P : Place) (n k : Nat) (m : Lowering Value) (t : Tree) : Prop :=
  Codes K P n k m (WordTyped P.scope t) fun _ => Word P t n

/-- A step adds the code of an expression. -/
abbrev CodesValue (K : Prop) (P : Place) (n k : Nat) (m : Lowering (Value × Ty)) (t : Tree) : Prop :=
  Codes K P n k m (IsText t ∨ WordTyped P.scope t) fun strings => Valued P n strings t

theorem meets_lowerWord (h : CodesValue K P n k (lowerExpr t) t) : CodesWord K P n k (lowerWord t) t := by
  refine h.coded (fun _ => .inr) fun r is n' => ?_
  obtain ⟨v, type⟩ := r
  cases type with
  | word =>
    refine .pure ?_
    rintro ⟨-, typed, _, valued⟩
    cases valued with
    | word word =>
      refine ⟨typed.resolve_left ?_, fun _ _ => ⟨is, n', append_nil _, rfl, word⟩⟩
      rintro ⟨_, _, rfl⟩
      cases word
  | _ =>
    refine .fail _ rfl _ ?_
    rintro ⟨-, -, _, valued⟩ typed
    cases valued <;> cases typed

/-- An expression and the word that it came to, as one step. -/
theorem Meets.joinWord {α : Type} {H T : Prop} {R : Post α} {f : Value → Lowering α}
    (h : Meets K H P c (lowerWord t >>= f) T R) :
    Meets K H P c (lowerExpr t >>= fun r => asWord t.tok r >>= f) T R := h

/-- The code of an element's address. -/
inductive Located (P : Place) (a : String) (t : Tree) (n : Nat) : Option Value → List Instr → Nat → Prop
  | mk {lower : Int64} :
    P.layout.Holds a (.array lower upper .integer) → Word P t n i js m →
    Located P a t n (some (Code.temp (m + 3))) (js ++ Code.addressing m (P.layout.address a) i lower) (m + 4)

/-- The code of an element's address, once that of its index is there. -/
theorem exactly_addressing (elem : VarType) (lower : Int64) : Exactly P ⟨n, k, true⟩ (do
      let distance ← compute .sub .word i (.const lower)
      let wide ← newTemp ""
      emit { op := .extsw, type := .long, operandType := .word, result := .temp wide,
             args := [distance] }
      let offset ← compute .mul .long (.temp wide) (.const elem.size)
      let address ← compute .add .address base offset
      return some (address, elem)) (some (Code.temp (n + 3), elem))
      (plain [Code.compute .sub .word n i (.const lower), Code.extend (n + 1) (Code.temp n),
        Code.compute .mul .long (n + 2) (Code.temp (n + 1)) (.const elem.size),
        Code.compute .add .address (n + 3) base (Code.temp (n + 2))]) ⟨n + 4, k, true⟩ where
  keeps := keeps_compute.bind fun _ => keeps_newTemp.bind fun _ => (keeps_emit _).bind fun _ =>
    keeps_compute.bind fun _ => keeps_compute.bind fun _ => .pure _
  does := exactly_compute.andThen <| (exactly_newTemp _).andThen <| (exactly_emit _).andThen <|
    exactly_compute.andThen <| exactly_compute.andThen <| .pure fun _ => ⟨rfl, rfl, rfl⟩

/-- The address of an integer element is computed only if there is one. -/
theorem meets_wordElement
    (hindex : CodesWord K P n k index t) :
    Codes K P n k (wordElement tok a indexTok index)
      ((∃ lower upper, P.layout.Holds a (.array lower upper .integer)) ∧ WordTyped P.scope t)
      fun _ => Located P a t n := by
  have element : Codes K P n k (elementAddress tok a indexTok index)
      ((∃ lower upper elem, P.layout.Holds a (.array lower upper elem)) ∧ WordTyped P.scope t)
      fun _ r is n' => ∃ lower upper elem, r.map Prod.snd = some elem ∧
        P.layout.Holds a (.array lower upper elem) ∧ elem.Proper ∧
        (elem = .integer → Located P a t n (r.map Prod.fst) is n') := by
    refine (meets_resolve a).look (fun _ _ => trivial) fun binding => ?_
    cases binding with
    | constant value =>
      refine .fail tok rfl _ ?_
      rintro ⟨-, -, constant⟩ ⟨⟨_, _, _, holds⟩, -⟩
      cases holds.1.symm.trans constant
    | unbound =>
      refine .fail tok rfl _ ?_
      rintro ⟨-, -, free⟩ ⟨⟨_, _, _, holds⟩, -⟩
      cases holds.2.symm.trans free.2
    | storage v =>
      dsimp only
      split
      · next lower upper elem hv =>
        refine hindex.straight (fun _ => And.right) fun i js m => ?_
        split
        on_goal 1 => refine .ite (fun _ => .andThen exactly_caution ?_) fun _ => ?_
        all_goals
          refine .last (exactly_addressing elem lower) ?_
          rintro ⟨⟨-, -, holds, proper, address⟩, typed, word⟩
          rw [hv] at holds proper
          cases proper with
          | array _ _ _ proper =>
            refine ⟨⟨⟨_, _, _, holds⟩, typed⟩, fun _ => ⟨_, _, (Ir.plain_append _ _).symm, rfl, _, _, _, rfl, holds, proper, ?_⟩⟩
            rintro rfl
            rw [address]
            exact .mk holds word
      · next other =>
        refine .fail tok rfl _ ?_
        rintro ⟨-, -, holds, -⟩ ⟨⟨_, _, _, holds'⟩, -⟩
        exact other _ _ _ (Option.some.inj (holds.2.symm.trans holds'.2))
  refine element.straight ?_ fun r is n' => ?_
  · rintro - ⟨⟨lower, upper, holds⟩, typed⟩
    exact ⟨⟨_, _, _, holds⟩, typed⟩
  · split
    · refine .pure ?_
      rintro ⟨-, -, _, _, _, absent, -⟩
      cases absent
    · next address elem =>
      refine .ite (fun isArray => .fail tok rfl _ ?_) fun notArray => .pure ?_
      · rintro ⟨-, -, _, _, _, ⟨⟩, holds, -⟩ ⟨⟨_, _, holds'⟩, -⟩
        cases holds.2.symm.trans holds'.2
        cases isArray
      · rintro ⟨-, ⟨-, typed⟩, _, _, _, ⟨⟩, holds, proper, located⟩
        obtain rfl := VarType.Proper.eq_integer proper (by simpa using notArray)
        exact ⟨⟨⟨_, _, holds⟩, typed⟩, fun _ => ⟨is, n', append_nil _, rfl, located rfl⟩⟩

/-- The address of an integer variable; the faults are those of a constant, a free name and an array. -/
theorem meets_scalar (tok : Token) (x : String)
    (hconstant : constant.category = .semantic) (hfree : free.category = .semantic)
    (harray : array.category = .semantic) : Meets K True P c (do
      match ← resolve x with
      | .constant _ =>
        fault tok constant
        return none
      | .unbound =>
        fault tok free
        return none
      | .storage v =>
        if v.type.isArray then
          fault tok array
          return none
        else
          return some v.address)
      (P.layout.Holds x .integer) (Still c fun a? => a? = some (P.layout.address x)) := by
  refine (meets_resolve x).look (fun _ _ => trivial) fun binding => ?_
  cases binding with
  | constant value =>
    refine .fail tok hconstant _ ?_
    rintro ⟨-, -, constant⟩ holds
    cases holds.1.symm.trans constant
  | unbound =>
    refine .fail tok hfree _ ?_
    rintro ⟨-, -, free⟩ holds
    cases holds.2.symm.trans free.2
  | storage v =>
    refine .ite (fun isArray => .fail tok harray _ ?_) fun scalar => .pure ?_
    · rintro ⟨-, -, holds, -⟩ holds'
      rw [Option.some.inj (holds.2.symm.trans holds'.2)] at isArray
      cases isArray
    · rintro ⟨-, -, holds, proper, address⟩
      rw [proper.eq_integer (by simpa using scalar)] at holds
      exact ⟨holds, fun _ => ⟨by rw [address], rfl, rfl⟩⟩

/-- The address of a whole array. -/
theorem meets_arrayAddress (t : Tree) (want : VarType) :
    Meets K True P c (arrayAddress t want use) (P.layout.NamesArray want t)
      (Still c fun a? => ∃ tok x type, t = .name tok x ∧ P.layout.Holds x type ∧ type.isArray = true ∧
        type.size = want.size ∧ a? = some (P.layout.address x)) := by
  unfold arrayAddress
  split
  · next tok x =>
    refine (meets_resolve x).look (fun _ _ => trivial) fun binding => ?_
    split
    · next v =>
      refine .ite (fun scalar => .fail tok rfl _ ?_) fun array => .ite (fun differs => .fail tok rfl _ ?_) fun same =>
        .pure ?_
      · rintro ⟨-, -, holds, -⟩ ⟨_, _, _, ⟨⟩, holds', array, -⟩
        cases holds.2.symm.trans holds'.2
        simp [array] at scalar
      · rintro ⟨-, -, holds, -⟩ ⟨_, _, _, ⟨⟩, holds', -, same⟩
        cases holds.2.symm.trans holds'.2
        exact differs same
      · rintro ⟨-, -, holds, -, address⟩
        have isArray : v.type.isArray = true := by simpa using array
        have size : v.type.size = want.size := by simpa using same
        exact ⟨⟨tok, x, v.type, rfl, holds, isArray, size⟩,
          fun _ => ⟨⟨tok, x, v.type, rfl, holds, isArray, size, by rw [address]⟩, rfl, rfl⟩⟩
    · next other =>
      refine .fail tok rfl _ ?_
      rintro ⟨-, -, found⟩ ⟨_, _, _, ⟨⟩, holds, -⟩
      cases binding with
      | constant => cases holds.1.symm.trans found
      | unbound => cases holds.2.symm.trans found.2
      | storage v => exact other v rfl
  · next other =>
    refine .fail _ rfl _ ?_
    rintro - ⟨tok, x, _, rfl, -⟩
    exact other tok x rfl

/-- A routine was called with the arguments `ts`. -/
inductive Answered (P : Place) (f : String) (count : Nat) (wantValue : Bool) (ts : List Tree) (n : Nat) :
    Value → List Instr → Nat → Prop
  | procedure :
    Chosen P.layout f count wantValue sig → Emits P.layout (.args sig.params ts vs) n js m → sig.result = .void →
    Answered P f count wantValue ts n zero (js ++ [Code.call f none vs]) m
  | function :
    Chosen P.layout f count wantValue sig → Emits P.layout (.args sig.params ts vs) n js m → sig.result ≠ .void →
    Answered P f count wantValue ts n (Code.temp m) (js ++ [Code.call f (some m) vs]) (m + 1)

/-- Computing the arguments of a call checks `A` of the parameters. -/
abbrev Arguments (K : Prop) (P : Place) (count : Nat) (ts : List Tree) (A : List VarType → Prop) (n k : Nat)
    (arguments : Routine → Lowering (Option (List (Value × Ty)))) : Prop :=
  ∀ r, Codes K P n k (arguments r) (A r.params) fun _ vs? is n' =>
    count = r.params.length → ∃ vs, vs? = some vs ∧ Emits P.layout (.args r.params ts vs) n is n'

variable {count : Nat} {wantValue : Bool} {ts : List Tree} {A : List VarType → Prop}
  {arguments : Routine → Lowering (Option (List (Value × Ty)))}

/-- A routine is called only if it can be, with arguments that fit. -/
theorem meets_callRoutine (tok : Token) (f : String) (harguments : Arguments K P count ts A n k arguments) :
    Codes K P n k (callRoutine tok f count wantValue arguments)
      (∃ sig, Chosen P.layout f count wantValue sig ∧ A sig.params)
      fun _ => Answered P f count wantValue ts n := by
  refine (meets_callee tok f count wantValue).look (fun _ ⟨sig, chosen, _⟩ => ⟨sig, chosen⟩) fun r? => ?_
  cases r? with
  | none =>
    refine .pure ?_
    rintro ⟨-, -, _, absent, -⟩
    cases absent
  | some r =>
    refine (harguments r).straight ?_ fun args? js m => ?_
    · rintro ⟨-, -, _, ⟨⟩, -, chosen⟩ ⟨sig, chosen', fit⟩
      cases chosen.routine.symm.trans chosen'.routine
      exact fit
    · cases args? with
      | none =>
        refine .pure ?_
        rintro ⟨⟨-, -, _, ⟨⟩, -, chosen⟩, -, args⟩
        obtain ⟨_, absent, -⟩ := args chosen.count
        cases absent
      | some args =>
        refine .ite (fun void => .andThen (exactly_emit _) (.pure ?_)) fun value => .last (exactly_define _) ?_
        all_goals
          rintro ⟨⟨-, -, _, ⟨⟩, symbol, chosen⟩, fit, args⟩
          obtain ⟨_, ⟨⟩, emits⟩ := args chosen.count
          refine ⟨⟨_, chosen, fit⟩, fun _ => ?_⟩
          rw [symbol]
        · exact ⟨_, _, (Ir.plain_append js [_]).symm, rfl, .procedure chosen emits void⟩
        · exact ⟨_, _, (Ir.plain_append _ _).symm, rfl, .function chosen emits value⟩

/-- A function is called for its value. -/
theorem meets_callFunction (tok : Token) (f : String) (harguments : Arguments K P count ts A n k arguments) :
    Codes K P n k (callFunction tok f count arguments)
      (∃ sig, P.layout.Callable f sig ∧ count = sig.params.length ∧ sig.result ≠ .void ∧ A sig.params)
      fun _ v is n' => ∃ sig vs js m, P.layout.Callable f sig ∧ count = sig.params.length ∧
        sig.result ≠ .void ∧ Emits P.layout (.args sig.params ts vs) n js m ∧
        v = Code.temp m ∧ is = js ++ [Code.call f (some m) vs] ∧ n' = m + 1 := by
  unfold callFunction
  split
  · next builtin =>
    refine .fail tok rfl _ ?_
    rintro - ⟨_, can, -⟩
    cases builtin.symm.trans can.1
  · next notBuiltin =>
    refine (meets_callRoutine tok f harguments).mono (fun _ => trivial) (fun _ => ⟨?_, ?_⟩) ?_
    · rintro ⟨sig, chosen, fit⟩
      exact ⟨sig, ⟨notBuiltin, chosen.routine, chosen.defined⟩, chosen.count, chosen.value rfl, fit⟩
    · rintro ⟨sig, can, same, value, fit⟩
      exact ⟨sig, ⟨can.2.1, can.2.2, same, fun _ => value⟩, fit⟩
    · rintro - - _ _ _ _ ⟨is, n', rfl, rfl, answered⟩
      cases answered with
      | procedure chosen _ void => exact absurd void (chosen.value rfl)
      | function chosen emits value =>
        exact ⟨_, _, rfl, rfl, _, _, _, _, ⟨notBuiltin, chosen.routine, chosen.defined⟩, chosen.count, value, emits,
          rfl, rfl, rfl⟩

/-- Arguments fit the parameters that they meet. -/
structure Fit (Γ : Scope) (params : List VarType) (args : List Tree) : Prop where
  arrays : ∀ param arg, (param, arg) ∈ params.zip args → param.isArray = true → Γ.NamesArray param arg
  words : ∀ param arg, (param, arg) ∈ params.zip args → param.isArray = false → WordTyped Γ arg

theorem Fit.cons_iff :
    Fit Γ (param :: params) (arg :: args) ↔ (param.isArray = true → Γ.NamesArray param arg) ∧
      (param.isArray = false → WordTyped Γ arg) ∧ Fit Γ params args := by
  constructor
  · rintro ⟨arrays, words⟩
    simp only [zip_cons_cons, mem_cons, Prod.mk.injEq] at arrays words
    exact ⟨arrays _ _ (.inl ⟨rfl, rfl⟩), words _ _ (.inl ⟨rfl, rfl⟩), fun p a h => arrays p a (.inr h),
      fun p a h => words p a (.inr h)⟩
  · rintro ⟨array, word, arrays, words⟩
    constructor <;> simp only [zip_cons_cons, mem_cons, Prod.mk.injEq]
    · rintro p a (⟨rfl, rfl⟩ | h)
      exacts [array, arrays p a h]
    · rintro p a (⟨rfl, rfl⟩ | h)
      exacts [word, words p a h]

/-- Arguments are computed from left to right. -/
theorem meets_lowerArguments {args : List Tree}
    (hargs : ∀ arg ∈ args, ∀ n, CodesValue K P n k (lowerExpr arg) arg)
    (callee : String) (index : Nat) (params : List VarType) (n : Nat) :
    Codes K P n k (lowerArguments callee index params args) (Fit P.scope params args)
      fun _ vs? is n' => args.length = params.length →
        ∃ vs, vs? = some vs ∧ Emits P.layout (.args params args vs) n is n' := by
  induction args generalizing params index n with
  | nil =>
    rw [show lowerArguments callee index params [] = pure (some []) by cases params <;> rfl]
    refine .pure fun _ => ⟨⟨by simp, by simp⟩, fun _ => ⟨[], n, rfl, rfl, fun same => ⟨[], rfl, ?_⟩⟩⟩
    rw [eq_nil_of_length_eq_zero same.symm]
    exact .noArgs
  | cons arg args ih =>
    obtain ⟨first, later⟩ := forall_mem_cons.mp hargs
    cases params with
    | nil => exact .pure fun _ => ⟨⟨by simp, by simp⟩, fun _ => ⟨[], n, rfl, rfl, nofun⟩⟩
    | cons param params =>
      rw [Fit.cons_iff]
      refine .ite (fun isArray => ?_) fun isWord => ?_
      · refine (meets_arrayAddress arg param).look (fun _ fit => fit.1 isArray) fun a? => ?_
        cases a? with
        | none =>
          refine .pure ?_
          rintro ⟨-, -, _, _, _, _, _, _, _, absent⟩
          cases absent
        | some a =>
          refine (ih later (index + 1) params n).straight (fun _ fit => fit.2.2) fun vs? is n' => .pure ?_
          rintro ⟨⟨-, named, tok, x, type, rfl, holds, array, size, address⟩, fit, values⟩
          cases address
          refine ⟨⟨fun _ => named, by simp [isArray], fit⟩, fun _ => ⟨is, n', append_nil _, rfl, fun same => ?_⟩⟩
          obtain ⟨vs, rfl, emits⟩ := values (Nat.succ.inj same)
          exact ⟨_, rfl, .arrayArg isArray holds array size emits⟩
      · have isWord : param.isArray = false := by simpa using isWord
        refine .joinWord ((meets_lowerWord (first n)).straight (fun _ fit => fit.2.1 isWord) fun v is m => ?_)
        refine (ih later (index + 1) params m).straight (fun _ fit => fit.2.2) fun vs? js n' => .pure ?_
        rintro ⟨⟨-, typed, word⟩, fit, values⟩
        refine ⟨⟨by simp [isWord], fun _ => typed, fit⟩, fun _ => ⟨is ++ js, n', by simp, rfl, fun same => ?_⟩⟩
        obtain ⟨vs, rfl, emits⟩ := values (Nat.succ.inj same)
        exact ⟨_, rfl, .wordArg isWord word emits⟩

theorem meets_lowerName (tok : Token) (x : String) :
    CodesWord K P n k (lowerName tok x) (.name tok x) := by
  refine (meets_resolve x).look (fun _ _ => trivial) fun binding => ?_
  cases binding with
  | constant value =>
    refine .pure ?_
    rintro ⟨-, -, constant⟩
    exact ⟨.constant constant, fun _ => ⟨[], n, rfl, rfl, .constant constant⟩⟩
  | storage v =>
    refine .ite (fun isArray => .fail tok rfl _ ?_) fun scalar => .last (exactly_load _) ?_
    · rintro ⟨-, -, holds, -⟩ typed
      cases typed with
      | constant constant => cases holds.1.symm.trans constant
      | var holds' =>
        rw [Option.some.inj (holds.2.symm.trans holds'.2)] at isArray
        cases isArray
      | bareCall free => cases holds.2.symm.trans free.2
    · rintro ⟨-, -, holds, proper, address⟩
      rw [proper.eq_integer (by simpa using scalar)] at holds
      rw [address]
      exact ⟨.var holds, fun _ => ⟨_, _, rfl, rfl, .var holds⟩⟩
  | unbound =>
    refine (meets_isCallable x).look (fun _ _ => trivial) fun callable => .ite (fun yes => ?_) fun no => .fail tok rfl _ ?_
    · have noArguments : Arguments K P 0 [] (fun _ => True) n k fun _ => return some [] := by
        refine fun r => .pure fun _ => ⟨trivial, fun _ => ⟨[], n, rfl, rfl, fun same => ⟨[], rfl, ?_⟩⟩⟩
        rw [eq_nil_of_length_eq_zero same.symm]
        exact .noArgs
      refine (meets_callFunction tok x noArguments).mono (fun _ => trivial) ?_ ?_
      · rintro ⟨⟨-, -, free⟩, -⟩
        constructor
        · rintro ⟨sig, can, same, value, -⟩
          exact .bareCall free can (eq_nil_of_length_eq_zero same.symm) value
        · rintro typed
          cases typed with
          | constant constant => cases free.1.symm.trans constant
          | var holds => cases free.2.symm.trans holds.2
          | bareCall _ can none value => exact ⟨_, can, by simp [none], value, trivial⟩
      · rintro ⟨⟨-, -, free⟩, -⟩ - _ _ _ _ ⟨_, _, rfl, rfl, sig, vs, js, m, can, same, value, emits, rfl, rfl, rfl⟩
        have none := eq_nil_of_length_eq_zero same.symm
        rw [none] at emits
        cases emits with
        | noArgs => exact ⟨_, _, rfl, rfl, .bareCall free can none value⟩
    · rintro ⟨⟨-, -, free⟩, -, iff⟩ typed
      cases typed with
      | constant constant => cases free.1.symm.trans constant
      | var holds => cases free.2.symm.trans holds.2
      | bareCall _ can => exact no (iff.mpr (.inr (by rw [can.2.1]; rfl)))

/-- A word is the value of an expression that is not a string. -/
theorem Meets.valued (noText : ¬ IsText t)
    (h : CodesWord K P n k m t) : CodesValue K P n k (m >>= fun v => Pure.pure (v, Ty.word)) t := by
  refine h.straight (fun _ typed => typed.resolve_left noText) fun v is n' => .pure ?_
  rintro ⟨-, typed, word⟩
  exact ⟨.inr typed, fun _ => ⟨is, n', append_nil _, rfl, .word word⟩⟩

/-- The operators of expressions are those with an operation. -/
theorem operation?_isSome (op : Kind) : (operation? op).isSome ↔ 0 < op.precedence := by
  cases op <;> simp [operation?, Kind.precedence]

/-- An expression is computed only if it is a string or a word. -/
theorem meets_lowerExpr {t : Tree} (h : K → IsExpr t) (n : Nat) : CodesValue K P n k (lowerExpr t) t := by
  cases t with
  | number =>
    exact .pure fun _ => ⟨.inr .number, fun _ => ⟨[], n, rfl, rfl, .word .number⟩⟩
  | text tok text =>
    unfold lowerExpr
    refine (meets_internString text).coded (fun _ _ => trivial) fun v is n' => .pure ?_
    rintro ⟨-, -, _, -, rfl, rfl⟩
    refine ⟨.inl ⟨tok, text, rfl⟩, ?_⟩
    rintro strings ⟨literal, -⟩
    exact ⟨[], n', rfl, rfl, .text literal⟩
  | name tok x =>
    exact (meets_lowerName tok x).valued (by rintro ⟨_, _, ⟨⟩⟩)
  | element tok a index =>
    have isExpr (shape : K) : IsExpr index := by cases h shape; assumption
    unfold lowerExpr
    refine (meets_wordElement (meets_lowerWord (meets_lowerExpr isExpr n))).straight ?_ fun a? is n' => ?_
    · rintro - (⟨_, _, ⟨⟩⟩ | typed)
      cases typed with
      | element holds index => exact ⟨⟨_, _, holds⟩, index⟩
    · cases a? with
      | none =>
        refine .pure ?_
        rintro ⟨-, -, located⟩
        cases located
      | some a =>
        refine .define (exactly_load a) fun v => .pure ?_
        rintro ⟨⟨-, ⟨-, typed⟩, located⟩, rfl⟩
        cases located with
        | mk holds word =>
          exact ⟨.inr (.element holds typed), fun _ => ⟨_, _, by simp [plain], rfl, .word (.element holds word)⟩⟩
  | binary tok op left right =>
    have isExpr (shape : K) : 0 < op.precedence ∧ IsExpr left ∧ IsExpr right := by
      cases h shape with
      | binary precedence left right => exact ⟨precedence, left, right⟩
    have split (typed : IsText (.binary tok op left right) ∨ WordTyped P.scope (.binary tok op left right)) :
        0 < op.precedence ∧ WordTyped P.scope left ∧ WordTyped P.scope right := by
      obtain ⟨_, _, ⟨⟩⟩ | typed := typed
      cases typed with
      | binary precedence left right => exact ⟨precedence, left, right⟩
    unfold lowerExpr
    rw [← operation?_isSome] at isExpr split
    cases found : operation? op with
    | none =>
      rw [found] at isExpr split
      exact .stray (fun shape => Bool.false_ne_true (isExpr shape).1) fun _ typed => Bool.false_ne_true (split typed).1
    | some operation =>
      have precedence := (operation?_isSome op).mp (by rw [found]; rfl)
      refine .joinWord ((meets_lowerWord (meets_lowerExpr (isExpr · |>.2.1) n)).straight
        (fun _ typed => (split typed).2.1) fun x is m => ?_)
      refine .joinWord ((meets_lowerWord (meets_lowerExpr (isExpr · |>.2.2) m)).straight
        (fun _ typed => (split typed).2.2) fun y js l => ?_)
      refine .define exactly_compute fun v => .pure ?_
      rintro ⟨⟨⟨-, typed, word⟩, typed', word'⟩, rfl⟩
      exact ⟨.inr (.binary precedence typed typed'), fun _ => ⟨_, _, by simp [plain], rfl,
        .word (.binary found word word')⟩⟩
  | call tok f args =>
    have isExpr (arg : Tree) (member : arg ∈ args) (shape : K) : IsExpr arg := by
      cases h shape with
      | call _ each => exact each arg member
    refine Meets.valued (by rintro ⟨_, _, ⟨⟩⟩) ((meets_callFunction (A := (Fit _ · args)) tok f fun r =>
      meets_lowerArguments (fun arg member => meets_lowerExpr (isExpr arg member)) f 1 r.params n).mono id
        (fun _ => ⟨?_, ?_⟩) ?_)
    · rintro ⟨sig, can, length, value, fit⟩
      exact .call can value length fit.arrays fit.words
    · rintro typed
      cases typed with
      | call can value length arrays words => exact ⟨_, can, length, value, arrays, words⟩
    · rintro - - _ _ _ _ ⟨_, _, rfl, rfl, sig, vs, js, m, can, -, value, emits, rfl, rfl, rfl⟩
      exact ⟨_, _, rfl, rfl, .call can value emits⟩
  | _ =>
    refine .stray (fun shape => by cases h shape) ?_
    rintro - (⟨_, _, ⟨⟩⟩ | typed)
    cases typed

/-- The address of a target is computed only if it can be assigned. -/
theorem meets_lowerTarget (h : K → IsExpr t) : Codes K P n k (lowerTarget t)
    (TargetTyped P.scope t) fun _ a? is n' => ∃ a, a? = some a ∧ Aims P.layout t a n is n' := by
  cases t with
  | name tok x =>
    refine (meets_scalar tok x rfl rfl rfl).mono id (fun _ => ⟨.var, ?_⟩) ?_
    · rintro typed
      cases typed with
      | var holds => exact holds
    · rintro - typed _ _ _ _ ⟨rfl, rfl, rfl⟩
      cases typed with
      | var holds => exact ⟨[], n, rfl, rfl, _, rfl, .var holds⟩
  | element _ _ index =>
    have isExpr (shape : K) : IsExpr index := by cases h shape; assumption
    refine (meets_wordElement (meets_lowerWord (meets_lowerExpr isExpr n))).mono id (fun _ => ⟨?_, ?_⟩) ?_
    · rintro ⟨⟨lower, upper, holds⟩, index⟩
      exact .element holds index
    · rintro typed
      cases typed with
      | element holds index => exact ⟨⟨_, _, holds⟩, index⟩
    · rintro - - _ _ _ _ ⟨_, _, rfl, rfl, located⟩
      cases located with
      | mk holds word => exact ⟨_, _, rfl, rfl, _, rfl, .element holds word⟩
  | _ => exact .fail _ rfl _ fun _ typed => by cases typed

end Expressions

/-! ## Simple statements -/

section Statements

variable {K : Prop} {P : Place} {c : Counters} {n k : Nat} {multi inLoop : Bool} {args : List Tree} {target value : Tree}
  {f x : String} {tok : Token}

/-- The code that prints. -/
theorem meets_print (format : String) (value : Option (Value × Ty)) : Codes K P n k (print format value)
    True fun strings _ is n' => (∃ v, Literal strings format v ∧ is = [Code.print v value]) ∧ n' = n := by
  refine (meets_internString format).coded (fun _ _ => trivial) fun v is n' => .last (exactly_emit _) ?_
  rintro ⟨-, -, _, -, rfl, rfl⟩
  refine ⟨trivial, ?_⟩
  rintro strings ⟨literal, -⟩
  exact ⟨_, _, rfl, rfl, ⟨v, literal, rfl⟩, rfl⟩

/-- Values are written only if they are strings and words. -/
theorem meets_lowerWrites (hargs : ∀ arg ∈ args, K → IsExpr arg) (n : Nat) : Codes K P n k (lowerWrites args)
    (∀ arg ∈ args, IsText arg ∨ WordTyped P.scope arg)
    fun strings _ => Writes P.layout strings args n := by
  induction args generalizing n with
  | nil => exact .pure fun _ => ⟨nofun, fun _ => ⟨[], n, rfl, rfl, .nil⟩⟩
  | cons arg args ih =>
    obtain ⟨first, later⟩ := forall_mem_cons.mp hargs
    rw [forall_mem_cons]
    refine (meets_lowerExpr first n).coded (fun _ => And.left) fun r is m => ?_
    obtain ⟨v, type⟩ := r
    refine .ite (fun isText => ?_) fun isWord => ?_
    all_goals
      refine (meets_print _ _).coded (fun _ _ => trivial) fun _ js l => (ih later l).mono (fun _ => trivial)
        (fun given => ⟨fun rest => ⟨given.1.2.1, rest⟩, And.right⟩) ?_
      rintro - - strings _ _ _ ⟨ks, l', rfl, rfl, writes⟩ ⟨⟨format, literal, rfl⟩, rfl⟩ valued
    · cases valued with
      | text literal' => exact ⟨_, _, rfl, rfl, .text literal' literal writes⟩
      | word => cases isText
    · cases valued with
      | text => cases isWord rfl
      | word word => exact ⟨_, _, by simp, rfl, .word word literal writes⟩

/-- Values are read only into targets. -/
theorem meets_lowerReads (hargs : ∀ arg ∈ args, K → IsExpr arg) (n : Nat) : Codes K P n k (lowerReads args)
    (∀ arg ∈ args, TargetTyped P.scope arg)
    fun strings _ => Scans P.layout strings args n := by
  induction args generalizing n with
  | nil => exact .pure fun _ => ⟨nofun, fun _ => ⟨[], n, rfl, rfl, .nil⟩⟩
  | cons arg args ih =>
    obtain ⟨first, later⟩ := forall_mem_cons.mp hargs
    rw [forall_mem_cons]
    refine (meets_lowerTarget first).straight (fun _ => And.left) fun a? is m => ?_
    cases a? with
    | none =>
      refine (ih later m).mono (fun _ => trivial) ?_ ?_
      all_goals
        rintro ⟨-, -, _, absent, -⟩
        cases absent
    | some a =>
      refine (meets_internString "%d").coded (fun _ _ => trivial) fun format js m' => .andThen (exactly_emit _)
        ((ih later m').mono (fun _ => trivial) (fun given => ⟨fun rest => ⟨given.1.2.1, rest⟩, And.right⟩) ?_)
      rintro ⟨⟨-, -, _, ⟨⟩, aims⟩, -⟩ - _ _ _ _ ⟨js, n', rfl, rfl, scans⟩ ⟨literal, rfl, rfl⟩
      exact ⟨_, _, by simp [plain]; rfl, rfl, .cons aims literal scans⟩

/-- The code of a step, behind that of its amount. -/
theorem meets_step (op : Ir.Op) (amount : Value) (htarget : K → IsExpr target) : Codes K P n k
    (step op target amount) (TargetTyped P.scope target) fun _ _ is n' => ∃ a js m,
      Aims P.layout target a n js m ∧ is = js ++ Code.bump op m a amount ∧ n' = m + 2 := by
  refine (meets_lowerTarget htarget).straight (fun _ => id) fun a? js m => ?_
  cases a? with
  | none =>
    refine .pure ?_
    rintro ⟨-, -, _, absent, -⟩
    cases absent
  | some a =>
    refine .define (exactly_load _) fun old => .define exactly_compute fun new => .last exactly_store ?_
    rintro ⟨⟨⟨-, typed, _, ⟨⟩, aims⟩, rfl⟩, rfl⟩
    exact ⟨typed, fun _ => ⟨_, _, by simp [plain]; rfl, rfl, a, js, m, aims, rfl, rfl⟩⟩

/-- A variable is stepped only if it can be. -/
theorem meets_lowerStep (builtin : Builtin.ofName? f = some b)
    (isStep : stepOp? b = some op) (tok : Token) (hargs : ∀ arg ∈ args, K → IsExpr arg) :
    Codes K P n k (lowerStep tok name op args) (∃ target, TargetTyped P.scope target ∧
      (args = [target] ∨ ∃ amount, WordTyped P.scope amount ∧ args = [target, amount]))
      fun strings _ => Invokes P.layout strings f args n := by
  unfold lowerStep
  split
  · next target =>
    refine (meets_step op (.const 1) (hargs _ (by simp))).mono id (fun _ => ⟨fun typed => ⟨target, typed, .inl rfl⟩, ?_⟩) ?_
    · rintro ⟨_, typed, same | ⟨_, _, ⟨⟩⟩⟩
      cases same
      exact typed
    · rintro - - _ _ _ _ ⟨_, _, rfl, rfl, a, js, m, aims, rfl, rfl⟩
      exact ⟨_, _, rfl, rfl, .step builtin isStep aims⟩
  · next target amount =>
    have split (typed : ∃ t, TargetTyped P.scope t ∧ ([target, amount] = [t] ∨
        ∃ a, WordTyped P.scope a ∧ [target, amount] = [t, a])) :
        TargetTyped P.scope target ∧ WordTyped P.scope amount := by
      obtain ⟨_, typed, same | ⟨_, typed', same⟩⟩ := typed <;> cases same
      exact ⟨typed, typed'⟩
    refine (meets_lowerWord (meets_lowerExpr (hargs _ (by simp)) n)).straight (fun _ typed => (split typed).2) fun v is m =>
      (meets_step op v (hargs _ (by simp))).mono (fun _ => trivial) ?_ ?_
    · rintro ⟨-, amountTyped, -⟩
      exact ⟨fun typed => ⟨target, typed, .inr ⟨amount, amountTyped, rfl⟩⟩, fun typed => (split typed).1⟩
    · rintro ⟨-, -, word⟩ - _ _ _ _ ⟨_, _, rfl, rfl, a, js, l, aims, rfl, rfl⟩
      exact ⟨_, _, by simp, rfl, .stepBy builtin isStep word aims⟩
  · next one two =>
    refine .fault tok rfl ?_
    rintro - ⟨_, _, rfl | ⟨_, _, rfl⟩⟩
    exacts [one _ rfl, two _ _ rfl]

/-- A built-in that may take several arguments takes them only if it is allowed to. -/
theorem Meets.arity (name : String) {T : Prop}
    (h : Meets K True P c m T R) : Meets K True P c (do if ← checkArity multi tok name got then m)
      ((1 < got → multi = true) ∧ T) R := by
  have arity : Meets K True P c (checkArity multi tok name got) (1 < got → multi = true) (Still c (· = true)) := by
    refine .ite (fun many => .fail tok rfl _ fun _ => by simpa using many) fun few => .pure fun _ => ?_
    exact ⟨by simpa using few, fun _ => ⟨rfl, rfl, rfl⟩⟩
  refine arity.look (fun _ => And.left) fun may => .ite (fun _ => ?_) fun mayNot => .pure ?_
  · exact h.mono (fun _ => trivial) (fun given => ⟨fun typed => ⟨given.2.1, typed⟩, And.right⟩) fun _ _ _ _ _ _ => id
  · rintro ⟨-, -, may⟩
    exact absurd may mayNot

/-- A built-in routine is called only with arguments that fit it. -/
theorem meets_lowerBuiltin (builtin : Builtin.ofName? f = some b) (hargs : ∀ arg ∈ args, K → IsExpr arg) :
    Codes K P n k (lowerBuiltin multi tok b args) (BuiltinTyped P.scope multi args b)
      fun strings _ => Invokes P.layout strings f args n := by
  cases b with
  | write =>
    refine .arity _ ((meets_lowerWrites hargs n).under id ?_)
    rintro _ _ _ _ ⟨is, n', rfl, rfl, writes⟩
    exact ⟨is, n', rfl, rfl, .write builtin writes⟩
  | writeln =>
    refine .arity _ ((meets_lowerWrites hargs n).coded (fun _ => id) fun _ is m =>
      (meets_print "\n" none).mono (fun _ => trivial) (fun given => ⟨fun _ => given.2.1, fun _ => trivial⟩) ?_)
    rintro - - _ _ _ _ ⟨_, _, rfl, rfl, ⟨newline, literal, rfl⟩, rfl⟩ writes
    exact ⟨_, _, by simp, rfl, .writeln builtin writes literal⟩
  | readln =>
    refine .arity _ ((meets_lowerReads hargs n).under id ?_)
    rintro _ _ _ _ ⟨is, n', rfl, rfl, scans⟩
    exact ⟨is, n', rfl, rfl, .readln builtin scans⟩
  | dec | inc => exact meets_lowerStep builtin rfl tok hargs

/-- A call for its effect is made only if it can be. -/
theorem meets_lowerCall (tok : Token) (f : String) (hargs : ∀ arg ∈ args, K → IsExpr arg) :
    Codes K P n k (lowerCall multi tok f args) (CallTyped P.scope multi f args)
      fun strings _ => Invokes P.layout strings f args n := by
  unfold lowerCall
  split
  · next b builtin =>
    refine (meets_lowerBuiltin builtin hargs).mono id (fun _ => ⟨.builtin builtin, ?_⟩) fun _ _ _ _ _ _ => id
    rintro (⟨builtin', typed⟩ | ⟨can, -⟩)
    · cases builtin.symm.trans builtin'
      exact typed
    · cases builtin.symm.trans can.1
  · next notBuiltin =>
    refine (meets_callRoutine (A := (Fit _ · args)) tok f fun r =>
      meets_lowerArguments (fun arg h => meets_lowerExpr (hargs arg h)) f 1 r.params n).straight ?_ fun v is n' => .pure ?_
    · rintro - (⟨builtin, -⟩ | ⟨can, typed⟩)
      · cases notBuiltin.symm.trans builtin
      · exact ⟨_, ⟨can.2.1, can.2.2, typed.length, nofun⟩, typed.arrays, typed.words⟩
    · rintro ⟨-, ⟨sig, chosen, fit⟩, answered⟩
      refine ⟨.routine ⟨notBuiltin, chosen.routine, chosen.defined⟩ ⟨chosen.count, fit.arrays, fit.words⟩, fun _ => ?_⟩
      cases answered with
      | procedure chosen emits void =>
        exact ⟨_, _, append_nil _, rfl, .procedure ⟨notBuiltin, chosen.routine, chosen.defined⟩ void emits⟩
      | function chosen emits value =>
        exact ⟨_, _, append_nil _, rfl, .function ⟨notBuiltin, chosen.routine, chosen.defined⟩ value emits⟩

/-- A statement without control flow is lowered to its code. -/
abbrev Settles (K : Prop) (P : Place) (multi inLoop : Bool) (t : Tree) (n k : Nat) (m : Lowering Unit) : Prop :=
  Codes K P n k m (StmtTyped P.scope multi inLoop t)
    fun strings _ => Straight P.layout strings t n

theorem meets_lowerAssign (tok : Token) (htarget : K → IsReference target) (hvalue : K → IsExpr value) :
    Settles K P multi inLoop (.assign tok target value) n k (lowerAssign target value) := by
  have words : Codes K P n k (assignWord target value)
      (TargetTyped P.scope target ∧ WordTyped P.scope value)
      fun strings _ => Straight P.layout strings (.assign tok target value) n := by
    refine (meets_lowerWord (meets_lowerExpr hvalue n)).straight (fun _ => And.right) fun v is m =>
      (meets_lowerTarget (htarget · |>.isExpr)).straight (fun _ => And.left) fun a? js l => ?_
    cases a? with
    | none =>
      refine .pure ?_
      rintro ⟨-, -, _, absent, -⟩
      cases absent
    | some a =>
      refine .last exactly_store ?_
      rintro ⟨⟨-, typed, word⟩, typed', _, ⟨⟩, aims⟩
      exact ⟨⟨typed', typed⟩, fun _ => ⟨_, _, by simp, rfl, .assign word aims⟩⟩
  -- without an array as the target, the rule for words is the only one
  have only {H : Prop} (scalar : H → ∀ tok' x type, target = .name tok' x → P.layout.Holds x type → ¬ type.isArray = true) :
      Meets K H P ⟨n, k, true⟩ (assignWord target value)
        (StmtTyped P.scope multi inLoop (.assign tok target value))
        (Coded k fun strings _ => Straight P.layout strings (.assign tok target value) n) := by
    refine words.mono (fun _ => trivial) (fun given => ⟨fun typed => .assign typed.1 typed.2, fun typed => ?_⟩)
      fun _ _ _ _ _ _ => id
    cases typed with
    | assign target value => exact ⟨target, value⟩
    | assignArray holds isArray => exact absurd isArray (scalar given _ _ _ rfl holds)
  cases target with
  | name tok' x =>
    refine (meets_resolve x).look (fun _ _ => trivial) fun binding => ?_
    split
    · next v =>
      refine .ite (fun isArray => ?_) fun scalar => only ?_
      · refine (meets_arrayAddress value v.type).look ?_ fun source? => ?_
        · rintro ⟨-, -, holds, -⟩ typed
          cases typed with
          | assign target =>
            cases target with
            | var holds' =>
              rw [Option.some.inj (holds.2.symm.trans holds'.2)] at isArray
              cases isArray
          | assignArray holds' _ named =>
            rw [Option.some.inj (holds.2.symm.trans holds'.2)]
            exact named
        · cases source? with
          | none =>
            refine .pure ?_
            rintro ⟨-, -, _, _, _, _, _, _, _, absent⟩
            cases absent
          | some source =>
            refine .last (exactly_emit _) ?_
            rintro ⟨⟨-, -, holds, -, address⟩, named, _, y, type, rfl, holds', isArray', size, ⟨⟩⟩
            rw [address]
            exact ⟨.assignArray holds isArray named, fun _ => ⟨_, _, rfl, rfl, .assignArray holds isArray holds' isArray' size⟩⟩
      · rintro ⟨-, -, holds, -⟩ _ _ type ⟨⟩ holds'
        rwa [← Option.some.inj (holds.2.symm.trans holds'.2)]
    · next other =>
      refine only ?_
      rintro ⟨-, -, found⟩ _ _ type ⟨⟩ holds
      cases binding with
      | constant => cases holds.1.symm.trans found
      | unbound => cases holds.2.symm.trans found.2
      | storage v => exact absurd rfl (other v)
  | _ => exact only fun _ _ _ _ same => by cases same

/-- A bare name is called if it can be, and else its value is dropped. -/
theorem meets_lowerBare {tok : Token} {x : String} : Settles K P multi inLoop (.name tok x) n k (lowerBare multi tok x) := by
  refine (meets_resolve x).look (fun _ _ => trivial) fun binding =>
    (meets_isCallable x).look (fun _ _ => trivial) fun callable => ?_
  split
  · refine (meets_lowerCall tok x (by simp)).mono (fun _ => trivial) ?_ ?_
    · rintro ⟨⟨-, -, free⟩, -⟩
      refine ⟨.bareCall free, fun typed => ?_⟩
      cases typed with
      | bareCall _ call => exact call
      | value typed =>
        cases typed with
        | constant constant => cases free.1.symm.trans constant
        | var holds => cases free.2.symm.trans holds.2
        | bareCall _ can none => exact .routine can ⟨by simp [none], by simp, by simp⟩
    · rintro ⟨⟨-, -, free⟩, -⟩ - _ _ _ _ ⟨is, n', rfl, rfl, invokes⟩
      exact ⟨is, n', rfl, rfl, .bareCall free invokes⟩
  · next other =>
    refine (meets_lowerName tok x).straight ?_ fun v is n' => .pure ?_
    · rintro ⟨⟨-, -, found⟩, -, can⟩ typed
      cases typed with
      | value typed => exact typed
      | bareCall free call =>
        have yes : callable = true := by
          refine can.mpr ?_
          rcases call with ⟨builtin, -⟩ | ⟨can, -⟩
          · exact .inl (by rw [builtin]; rfl)
          · exact .inr (by rw [can.2.1]; rfl)
        cases binding with
        | constant => cases free.1.symm.trans found
        | storage => cases free.2.symm.trans found.1.2
        | unbound => exact absurd yes (other rfl)
    · rintro ⟨-, typed, word⟩
      exact ⟨.value typed, fun _ => ⟨is, n', append_nil _, rfl, .value word⟩⟩

/-! ## Control flow -/

/-- The label pushed for the body of a loop is where its `break` leads. -/
theorem Meets.insideLoop {H T : Prop}
    (h : Meets K H { P with brk := some exit } c body T R) : Meets K H P c (Lower.insideLoop exit body) T R := by
  have popped {s s' : State} (frame : Frame { s with loopExits := exit :: s.loopExits } s') :
      s'.loopExits.tail = s.loopExits := by
    rw [frame.loopExits]
    rfl
  have pushed {s : State} (ready : Ready P c s) :
      Ready { P with brk := some exit } c { s with loopExits := exit :: s.loopExits } := { ready with brk := rfl }
  refine ⟨fun k s => ?_, fun k given s ready calm => ?_, fun given typed s ready => ?_⟩
  · have frame := h.keeps k { s with loopExits := exit :: s.loopExits }
    exact { frame with loopExits := popped frame }
  · exact h.calm k given _ (pushed ready) ⟨calm.faults, calm.called⟩
  · obtain ⟨ls, c', effect, post⟩ := h.does given typed _ (pushed ready)
    exact ⟨ls, c', { effect with frame := { effect.frame with loopExits := popped effect.frame } }, post⟩

/-- The code of a statement, or of a block, was added. -/
def Lined (P : Place) (piece : Piece) (leaves : Bool) (n k : Nat) : Post Bool :=
  fun strings ends ls c' => ends = leaves ∧ ∃ n' k', c' = ⟨n', k', !ends⟩ ∧
    Lowers P.layout strings P.ret P.brk piece n k ls ends n' k'

/-- A statement is lowered to its code. -/
abbrev LowersTo (K : Prop) (P : Place) (multi inLoop : Bool) (t : Tree) (n k : Nat) (m : Lowering Bool) : Prop :=
  Meets K True P ⟨n, k, true⟩ m (StmtTyped P.scope multi inLoop t) (Lined P (.stmt t) (leaves t) n k)

/-- A statement without control flow. -/
theorem Meets.settled (stays : leaves t = false) (h : Settles K P multi inLoop t n k m) :
    LowersTo K P multi inLoop t n k (do m; return false) := by
  refine h.coded (fun _ => id) fun _ is n' => .pure fun given => ⟨given.2.1, fun strings straight => ?_⟩
  exact ⟨stays.symm, n', k, rfl, append_nil _ ▸ .straight straight⟩

/-- A statement, and what follows. -/
theorem Meets.lined {β : Type} {H T T₁ : Prop} {f : Bool → Lowering β}
    {Q : Post β} (first : Meets K True P c m T₁ (Lined P' piece lv n k)) (need : H → T → T₁)
    (second : ∀ ends ls n' k', Meets K (H ∧ T₁ ∧ ends = lv) P ⟨n', k', !ends⟩ (f ends) T fun strings b ms c' =>
      Lowers P'.layout strings P'.ret P'.brk piece n k ls ends n' k' → Q strings b (ls ++ ms) c') :
    Meets K H P c (m >>= f) T Q := by
  refine (first.retain fun _ => trivial).bind need (fun ends => (second ends [] 0 0).keeps) ?_
  rintro given ends ls _ ⟨strings, typed, same, n', k', rfl, -⟩
  refine (second ends ls n' k').under (fun _ => ⟨given, typed, same⟩) ?_
  rintro strings b ms c'' imp ⟨-, -, _, _, ⟨⟩, lowers⟩
  exact imp lowers

/-- A jump that is left out behind code which always leaves. -/
theorem Meets.rejoin {β : Type} {target : String} {next : Lowering β} {H T : Prop} {Q : Post β}
    (h : Meets K H P ⟨n, k, false⟩ next T fun strings b ms c' => Q strings b (Lower.rejoin ends target ++ ms) c') :
    Meets K H P ⟨n, k, !ends⟩ (if (!ends) = true then jump target >>= fun _ => next else next) T Q := by
  cases ends with
  | true => exact h
  | false => exact .andThen (exactly_jump target) h

/-- Statements are lowered one after the other, up to the first that leaves. -/
theorem meets_lowerStmts (tok : Token) {ts : List Tree}
    (hts : ∀ t ∈ ts, ∀ n k, LowersTo K P multi inLoop t n k (lowerStmt multi t)) (n k : Nat) :
    Meets K True P ⟨n, k, true⟩ (lowerStmts multi false ts) (StmtTyped P.scope multi inLoop (.block tok ts))
      (Lined P (.stmts ts) (someLeaves ts) n k) := by
  induction ts generalizing n k with
  | nil => exact .pure fun _ => ⟨.block_nil, fun _ => ⟨rfl, n, k, rfl, .nil⟩⟩
  | cons t ts ih =>
    obtain ⟨first, later⟩ := forall_mem_cons.mp hts
    rw [StmtTyped.block_cons, someLeaves]
    refine (first n k).lined (fun _ => And.left) fun ends ls n₁ k₁ => ?_
    cases ends with
    | true =>
      -- the first statement leaves, so that the others are skipped
      have skipped : Exactly P ⟨n₁, k₁, !true⟩ (lowerStmts multi true ts) true [] ⟨n₁, k₁, !true⟩ := by
        cases ts with
        | nil => exact ⟨.pure _, .pure fun _ => ⟨rfl, rfl, rfl⟩⟩
        | cons => exact ⟨(keeps_caution _ _).bind fun _ => .pure _, exactly_caution.andThen (.pure fun _ => ⟨rfl, rfl, rfl⟩)⟩
      refine .last skipped ?_
      rintro ⟨-, typed, leaves⟩
      rw [← leaves]
      exact ⟨⟨typed, nofun⟩, fun _ lowers => ⟨rfl, n₁, k₁, rfl, append_nil _ ▸ .last lowers⟩⟩
    | false =>
      refine (ih later n₁ k₁).mono (fun _ => trivial) ?_ ?_
      · rintro ⟨-, typed, stays⟩
        exact ⟨fun rest => ⟨typed, fun _ => rest⟩, fun both => both.2 stays.symm⟩
      · rintro ⟨-, -, stays⟩ - _ _ _ _ ⟨same, n₂, k₂, rfl, rest⟩ lowers
        rw [← stays]
        exact ⟨same, n₂, k₂, rfl, .cons lowers rest⟩

theorem meets_branch {cond : Tree} (hcond : K → IsExpr cond)
    (hyes : ∀ n k, LowersTo K P multi inLoop yes n k (lowerStmt multi yes))
    (hno : ∀ n k, LowersTo K P multi inLoop no n k (lowerStmt multi no)) (n k : Nat) :
    LowersTo K P multi inLoop (.branch tok cond yes no) n k (lowerStmt multi (.branch tok cond yes no)) := by
  have split (typed : StmtTyped P.scope multi inLoop (.branch tok cond yes no)) :
      WordTyped P.scope cond ∧ StmtTyped P.scope multi inLoop yes ∧
        StmtTyped P.scope multi inLoop no := by
    cases typed with
    | branch cond yes no => exact ⟨cond, yes, no⟩
  refine .define exactly_newLabel fun then_ => .define exactly_newLabel fun else_ =>
    .define exactly_newLabel fun join => ?_
  refine (meets_lowerWord (meets_lowerExpr hcond n)).straight (fun _ typed => (split typed).1) fun v is n₁ =>
    .andThen exactly_branch <| .andThen exactly_startBlock ?_
  refine (hyes n₁ (k + 3)).lined (fun _ typed => (split typed).2.1) fun yesEnds ls n₂ k₁ =>
    .rejoin <| .andThen exactly_startBlock ?_
  refine (hno n₂ k₁).lined (fun _ typed => (split typed).2.2) fun noEnds ms n₃ k₂ => .rejoin ?_
  refine .ite (fun both => .pure ?_) fun notBoth => .andThen exactly_startBlock (.pure ?_)
  all_goals
    rintro ⟨⟨⟨⟨⟨⟨-, rfl⟩, rfl⟩, rfl⟩, condTyped, word⟩, yesTyped, rfl⟩, noTyped, rfl⟩
    refine ⟨.branch condTyped yesTyped noTyped, fun strings lowersNo lowersYes => ?_⟩
    have lowers : Lowers P.layout strings P.ret P.brk (.stmt (.branch tok cond yes no)) n k _ _ n₃ k₂ :=
      .branch word lowersYes lowersNo
  · rw [both] at lowers
    exact ⟨by rw [leaves, both], n₃, k₂, rfl, by simpa [Code.branchLines, both] using lowers⟩
  · rw [Bool.not_eq_true] at notBoth
    exact ⟨by rw [leaves, notBoth], n₃, k₂, rfl, by simpa [Code.branchLines, notBoth] using lowers⟩

theorem meets_count (hstart : K → IsExpr start) (hstop : K → IsExpr stop)
    (hbody : ∀ exit n k, LowersTo K { P with brk := some exit } multi true body n k (lowerStmt multi body)) (n k : Nat) :
    LowersTo K P multi inLoop (.count tok x start stop down body) n k
      (lowerStmt multi (.count tok x start stop down body)) := by
  have split (typed : StmtTyped P.scope multi inLoop (.count tok x start stop down body)) :
      P.layout.Holds x .integer ∧ WordTyped P.scope start ∧ WordTyped P.scope stop ∧
        StmtTyped P.scope multi true body := by
    cases typed with
    | count holds start stop body => exact ⟨holds, start, stop, body⟩
  refine (meets_scalar tok x rfl rfl rfl).look (fun _ typed => (split typed).1) fun a? => ?_
  cases a? with
  | none =>
    refine .pure ?_
    rintro ⟨-, -, absent⟩
    cases absent
  | some a =>
    refine (meets_lowerWord (meets_lowerExpr hstart n)).straight (fun _ typed => (split typed).2.1) fun v is n₁ => ?_
    refine (meets_lowerWord (meets_lowerExpr hstop n₁)).straight (fun _ typed => (split typed).2.2.1) fun w js n₂ => ?_
    refine .andThen exactly_store <| .define exactly_newLabel fun cond => .define exactly_newLabel fun inner =>
      .define exactly_newLabel fun after => .andThen (exactly_jump _) <| .andThen exactly_startBlock <|
      .define (exactly_load _) fun value => .define exactly_compute fun more =>
      .andThen exactly_branch <| .andThen exactly_startBlock ?_
    refine (hbody after (n₂ + 2) (k + 3)).insideLoop.lined (fun _ typed => (split typed).2.2.2) fun ends ls n₃ k₁ => ?_
    have code {strings : List Ir.StringLit} (holds : P.layout.Holds x .integer) (word : Word P start n v is n₁)
        (word' : Word P stop n₁ w js n₂) (lowers : Lowers P.layout strings P.ret (some (forAfter k))
          (.stmt body) (n₂ + 2) (k + 3) ls ends n₃ k₁) :
        Lowers P.layout strings P.ret P.brk (.stmt (.count tok x start stop down body)) n k _ _ _ k₁ :=
      .count holds word word' lowers
    cases ends with
    | true =>
      refine .andThen exactly_startBlock (.pure ?_)
      rintro ⟨⟨⟨⟨⟨⟨⟨⟨⟨-, holds, ⟨⟩⟩, typed, word⟩, typed', word'⟩, rfl⟩, rfl⟩, rfl⟩, rfl⟩, rfl⟩, bodyTyped, -⟩
      refine ⟨.count holds typed typed' bodyTyped, fun strings lowers => ⟨rfl, n₃, k₁, rfl, ?_⟩⟩
      simpa [Code.countLines, Code.again] using code holds word word' lowers
    | false =>
      refine .define (exactly_load _) fun old => .define exactly_compute fun new =>
        .andThen exactly_store <| .andThen (exactly_jump _) <| .andThen exactly_startBlock (.pure ?_)
      rintro ⟨⟨⟨⟨⟨⟨⟨⟨⟨⟨⟨-, holds, ⟨⟩⟩, typed, word⟩, typed', word'⟩, rfl⟩, rfl⟩, rfl⟩, rfl⟩, rfl⟩, bodyTyped, -⟩, rfl⟩, rfl⟩
      refine ⟨.count holds typed typed' bodyTyped, fun strings lowers => ⟨rfl, n₃ + 2, k₁, rfl, ?_⟩⟩
      simpa [Code.countLines, Code.again, Code.bump] using code holds word word' lowers

theorem meets_loop {cond : Tree} (hcond : K → IsExpr cond)
    (hbody : ∀ exit n k, LowersTo K { P with brk := some exit } multi true body n k (lowerStmt multi body)) (n k : Nat) :
    LowersTo K P multi inLoop (.loop tok cond body) n k (lowerStmt multi (.loop tok cond body)) := by
  have split (typed : StmtTyped P.scope multi inLoop (.loop tok cond body)) :
      WordTyped P.scope cond ∧ StmtTyped P.scope multi true body := by
    cases typed with
    | loop cond body => exact ⟨cond, body⟩
  refine .define exactly_newLabel fun test => .define exactly_newLabel fun inner =>
    .define exactly_newLabel fun after => .andThen (exactly_jump _) <| .andThen exactly_startBlock ?_
  refine (meets_lowerWord (meets_lowerExpr hcond n)).straight (fun _ typed => (split typed).1) fun v is n₁ =>
    .andThen exactly_branch <| .andThen exactly_startBlock ?_
  refine (hbody after n₁ (k + 3)).insideLoop.lined (fun _ typed => (split typed).2) fun ends ls n₂ k₁ =>
    .rejoin <| .andThen exactly_startBlock (.pure ?_)
  rintro ⟨⟨⟨⟨⟨-, rfl⟩, rfl⟩, rfl⟩, condTyped, word⟩, bodyTyped, rfl⟩
  refine ⟨.loop condTyped bodyTyped, fun strings lowers => ⟨rfl, n₂, k₁, rfl, ?_⟩⟩
  have code : Lowers P.layout strings P.ret P.brk (.stmt (.loop tok cond body)) n k _ _ n₂ k₁ := .loop word lowers
  simpa [Code.loopLines] using code

/-- A jump to the first of some targets. -/
def jumpOr (other : Lowering Bool) : List String → Lowering Bool
  | [] => other
  | target :: _ => do jump target; return true

theorem keeps_jumpOr (h : Keeps other) : Keeps (jumpOr other targets) := by
  cases targets with
  | nil => exact h
  | cons => exact keeps_jump.bind fun _ => .pure _

/-- A step that depends on the state. -/
theorem Meets.congr {α : Type} {m : Lowering α} {H T : Prop} {R : Post α} (m' : State → Lowering α)
    (same : ∀ s, m s = m' s s) (keeps : ∀ s, Keeps (m' s)) (h : ∀ s, Ready P c s → Meets K H P c (m' s) T R) :
    Meets K H P c m T R := by
  refine ⟨fun _ s => same s ▸ keeps s s, fun k given s ready calm => ?_, fun given typed s ready => ?_⟩
  · exact (h s ready).calm k given s ready ⟨same s ▸ calm.faults, same s ▸ calm.called⟩
  · rw [same s]
    exact (h s ready).does given typed s ready

/-- What the parts of a statement are. -/
def StmtParts : Tree → Prop
  | .absent | .name .. | .leave _ | .exit _ => True
  | .element tok a index => IsExpr (.element tok a index)
  | .call _ _ args => ∀ arg ∈ args, IsExpr arg
  | .assign _ target value => IsReference target ∧ IsExpr value
  | .branch _ cond yes no => IsExpr cond ∧ IsStmt yes ∧ (no = .absent ∨ IsStmt no)
  | .count _ _ start stop _ body => IsExpr start ∧ IsExpr stop ∧ IsStmt body
  | .loop _ cond body => IsExpr cond ∧ IsStmt body
  | .block _ stmts => ∀ t ∈ stmts, IsStmt t
  | _ => False

theorem stmtParts (h : t = .absent ∨ IsStmt t) : StmtParts t := by
  rcases h with rfl | h
  · trivial
  cases h with
  | reference h =>
    cases h with
    | name => trivial
    | element name index => exact .element name index
  | call _ args => exact args
  | assign target value => exact ⟨target, value⟩
  | branch cond yes => exact ⟨cond, yes, .inl rfl⟩
  | branchElse cond yes no => exact ⟨cond, yes, .inr no⟩
  | count _ start stop body => exact ⟨start, stop, body⟩
  | loop cond body => exact ⟨cond, body⟩
  | block each => exact each
  | _ => trivial

/-- A statement is lowered only if it is correct, and then to its code. -/
theorem meets_lowerStmt {P : Place} {inLoop : Bool} (h : K → t = .absent ∨ IsStmt t) (loop : P.brk.isSome = inLoop) (n k : Nat) :
    LowersTo K P multi inLoop t n k (lowerStmt multi t) := by
  have parts (shape : K) := stmtParts (h shape)
  cases t with
  | absent => exact .pure fun _ => ⟨.absent, fun _ => ⟨rfl, n, k, rfl, .absent⟩⟩
  | name => unfold lowerStmt; exact meets_lowerBare.settled rfl
  | element tok a index =>
    refine (meets_lowerExpr parts n).coded ?_ fun r is n' => .pure ?_
    · rintro - typed
      cases typed with
      | element typed => exact .inr typed
    · rintro ⟨-, ⟨_, _, ⟨⟩⟩ | typed, -⟩
      refine ⟨.element typed, fun strings valued => ?_⟩
      cases valued with
      | word word => exact ⟨rfl, n', k, rfl, append_nil _ ▸ .straight (.element word)⟩
  | call tok f args =>
    unfold lowerStmt
    refine Meets.settled rfl ((meets_lowerCall _ _ fun arg member shape => parts shape arg member).mono id (fun _ => ⟨.call, fun typed => ?_⟩) ?_)
    · cases typed with
      | call typed => exact typed
    · rintro - - _ _ _ _ ⟨is, n', rfl, rfl, invokes⟩
      exact ⟨is, n', rfl, rfl, .call invokes⟩
  | assign tok target value =>
    exact (meets_lowerAssign tok (parts · |>.1) (parts · |>.2)).settled rfl
  | branch tok cond yes no =>
    exact meets_branch (parts · |>.1) (meets_lowerStmt (.inr <| parts · |>.2.1) loop)
      (meets_lowerStmt (parts · |>.2.2) loop) n k
  | count tok x start stop down body =>
    exact meets_count (parts · |>.1) (parts · |>.2.1) (fun _ => meets_lowerStmt (.inr <| parts · |>.2.2) rfl) n k
  | loop tok cond body =>
    exact meets_loop (parts · |>.1) (fun _ => meets_lowerStmt (.inr <| parts · |>.2) rfl) n k
  | leave tok =>
    refine .congr (fun s => jumpOr (do fault tok .strayBreak; return false) s.loopExits)
      (fun s => by unfold lowerStmt; rfl) (fun s => keeps_jumpOr ((keeps_fault _ rfl).bind fun _ => .pure _))
      fun s ready => ?_
    have brk := ready.brk
    cases found : s.loopExits with
    | nil =>
      rw [found] at brk
      refine .fail tok rfl _ fun _ typed => ?_
      cases typed
      rw [← brk] at loop
      cases loop
    | cons target rest =>
      rw [found] at brk
      refine .andThen (exactly_jump target) (.pure fun _ => ?_)
      rw [← loop]
      unfold Lined
      rw [← brk]
      exact ⟨.leave, fun _ => ⟨rfl, n, k, rfl, .leave⟩⟩
  | exit =>
    refine .congr (fun s => jumpOr (return false) s.returnTargets) (fun s => by unfold lowerStmt; rfl)
      (fun s => keeps_jumpOr (.pure _)) fun s ready => ?_
    obtain ⟨rest, targets⟩ := head?_eq_some_iff.mp ready.ret
    rw [targets]
    exact .andThen (exactly_jump _) (.pure fun _ => ⟨.exit, fun _ => ⟨rfl, n, k, rfl, .exit⟩⟩)
  | block tok ts =>
    unfold lowerStmt
    refine (meets_lowerStmts tok (fun t member => meets_lowerStmt (.inr <| parts · t member) loop) n k).under id ?_
    rintro _ _ _ _ ⟨rfl, n', k', rfl, lowers⟩
    exact ⟨by rw [leaves], n', k', rfl, .block lowers⟩
  | _ => exact .stray parts fun _ typed => by cases typed

end Statements

end MiniPascal.Lower
