import MiniPascal.Proofs.Lower.Acceptance

/-!
# Lowering trees side by side

Two trees that are made side by side are lowered to the same code, or with the same complaints, each at tokens
that stand for each other (`lower_made`). Of a token lowering itself uses no more than the line.

The two runs are compared step by step. What a state holds of tokens are its `Notes`; two states match if
they are equal but for their notes, and the notes match. `Pairs c V m m'` says that the steps `m` and `m'` lead
from states that match to states that match, and that `V` relates their results. A step that neither looks at
the notes nor changes them is `Silent`, and pairs with itself. If the comparison is lax, then all of this is
said only of a first run that ends without faults: since faults are never taken back, each step has none then.
-/

open List

namespace MiniPascal

variable {R : Token → Token → Prop}

/-! ## Tables -/

/-- Two tables have related entries for the same names. -/
def Table.Matches {α : Type} (V : α → α → Prop) (t t' : Table α) : Prop :=
  Forall₂ (fun e e' => e.1 = e'.1 ∧ V e.2 e'.2) t.entries t'.entries

namespace Table.Matches

theorem refl {α : Type} {V : α → α → Prop} (same : ∀ v, V v v) (t : Table α) : t.Matches V t :=
  forall₂_same.mpr fun e _ => ⟨rfl, same e.2⟩

variable {α : Type} {V : α → α → Prop} {t t' : Table α} (h : t.Matches V t')

include h

theorem get?_cases (name : String) : t.get? name = none ∧ t'.get? name = none ∨
    ∃ v v', t.get? name = some v ∧ t'.get? name = some v' ∧ V v v' := by
  obtain ⟨entries⟩ := t
  obtain ⟨entries'⟩ := t'
  unfold Matches at h
  unfold Table.get?
  dsimp only at h ⊢
  induction h with
  | nil => exact .inl ⟨rfl, rfl⟩
  | @cons e e' _ _ first _ ih =>
    rw [lookup_cons, lookup_cons, ← first.1]
    split
    · exact .inr ⟨e.2, e'.2, rfl, rfl, first.2⟩
    · exact ih

theorem contains_eq (name : String) : t'.contains name = t.contains name := by
  unfold contains
  rcases h.get?_cases name with ⟨none, none'⟩ | ⟨v, v', found, found', -⟩
  · rw [none, none']
  · rw [found, found']
    rfl

theorem insert (name : String) (same : V v v') : (t.insert name v).Matches V (t'.insert name v') := by
  refine .cons ⟨rfl, same⟩ (rel_filter (fun e e' entry => ?_) h)
  dsimp only
  rw [entry.1]

theorem namesWhere_eq {p : α → Bool} (same : ∀ v v', V v v' → p v' = p v) : t'.namesWhere p = t.namesWhere p := by
  have kept := rel_filter (q := fun e => p e.2) (fun e e' entry => by dsimp only; rw [same _ _ entry.2]) h
  have names := forall₂_map_left_iff.mpr (forall₂_map_right_iff.mpr (kept.imp fun _ _ entry => entry.1))
  rw [forall₂_eq_eq_eq] at names
  unfold namesWhere
  rw [names]

end Table.Matches

/-! ## Diagnostics -/

/-- Two diagnostics say the same about related tokens. -/
inductive Diagnostic.Matches (R : Token → Token → Prop) : Diagnostic → Diagnostic → Prop
  | mk {category : Category} {t u : Token} {message expected got : String} : R t u →
    Matches R ⟨category, t, message, expected, got⟩ ⟨category, u, message, expected, got⟩

theorem Diagnostic.Matches.tok {d d' : Diagnostic} (h : d.Matches R d') : R d.tok d'.tok := by
  cases h
  assumption

theorem Diagnostic.Matches.eq {d d' : Diagnostic} (h : d.Matches (· = ·) d') : d = d' := by
  cases h with
  | mk same => rw [same]

/-- Two warnings say the same about related tokens. -/
inductive Remark.Matches (R : Token → Token → Prop) : Remark → Remark → Prop
  | mk {warning : Warning} {t u : Token} {message : String} : R t u →
    Matches R ⟨warning, t, message⟩ ⟨warning, u, message⟩

theorem Remark.Matches.eq {r r' : Remark} (h : r.Matches (· = ·) r') : r = r' := by
  cases h with
  | mk same => rw [same]

theorem Remark.enabled_all (rs : List Remark) : enabled (fun _ => true) rs = rs :=
  filter_eq_self.mpr fun _ _ => rfl

theorem Remark.enabled_enabled (on : Switches Warning) (rs : List Remark) :
    enabled on (enabled on rs) = enabled on rs := by
  unfold enabled
  rw [filter_filter]
  simp only [Bool.and_self]

namespace Lower

open Tree (Made MadeEach Species IsProgram)

/-! ## States -/

/-- Two variables are the same but for where they were declared. -/
inductive Variable.Matches (R : Token → Token → Prop) : Variable → Variable → Prop
  | mk {role : Role} {type : VarType} {address : Ir.Value} {t u : Token} {used : Bool} : R t u →
    Matches R ⟨role, type, address, t, used⟩ ⟨role, type, address, u, used⟩

/-- Two routines are the same but for where they were declared and called. -/
inductive Routine.Matches (R : Token → Token → Prop) : Routine → Routine → Prop
  | mk {symbol : String} {t u : Token} {params : List VarType} {result : VarType} {defined : Bool}
    {call? call?' : Option Token} : R t u → Option.Rel R call? call?' →
    Matches R ⟨symbol, t, params, result, defined, call?⟩ ⟨symbol, u, params, result, defined, call?'⟩

/-- The part of a state that holds tokens. -/
structure Notes where
  globals : Table Variable
  locals : Table Variable
  scopes : List (Table Variable)
  routines : Table Routine
  faults : List Diagnostic
  enabled : Switches Warning
  remarks : List Remark

def State.notes (s : State) : Notes :=
  { globals := s.globals, locals := s.locals, scopes := s.scopes, routines := s.routines
    faults := s.faults, enabled := s.enabled, remarks := s.remarks }

/-- The state with other notes. -/
def State.noting (s : State) (n : Notes) : State :=
  { s with
    globals := n.globals, locals := n.locals, scopes := n.scopes, routines := n.routines
    faults := n.faults, enabled := n.enabled, remarks := n.remarks }

/-- Two notes match. The runs may have different warnings switched on; of the remarks, this is said of those
that both runs want. -/
structure Notes.Matches (R : Token → Token → Prop) (n n' : Notes) : Prop where
  globals : n.globals.Matches (Variable.Matches R) n'.globals
  locals : n.locals.Matches (Variable.Matches R) n'.locals
  scopes : Forall₂ (Table.Matches (Variable.Matches R)) n.scopes n'.scopes
  routines : n.routines.Matches (Routine.Matches R) n'.routines
  faults : Forall₂ (Diagnostic.Matches R) n.faults n'.faults
  remarks : Forall₂ (Remark.Matches R) (Remark.enabled n'.enabled n.remarks) (Remark.enabled n.enabled n'.remarks)

/-- Two states are equal but for their notes, which match. -/
def State.Matches (R : Token → Token → Prop) (s s' : State) : Prop :=
  ∃ n, s' = s.noting n ∧ s.notes.Matches R n

namespace State.Matches

theorem start (on on' : Switches Warning) : State.Matches R { enabled := on } { enabled := on' } :=
  ⟨State.notes { enabled := on' }, rfl, ⟨.nil, .nil, .nil, .nil, .nil, .nil⟩⟩

/-- A state matches itself if its tokens are related to themselves. -/
theorem refl (same : ∀ t, R t t) (s : State) : s.Matches R s := by
  have tables (t : Table Variable) : t.Matches (Variable.Matches R) t := .refl (fun _ => .mk (same _)) t
  have calls : ∀ call? : Option Token, Option.Rel R call? call?
    | none => .none
    | some _ => .some (same _)
  exact ⟨s.notes, rfl, {
    globals := tables _
    locals := tables _
    scopes := forall₂_same.mpr fun t _ => tables t
    routines := .refl (fun _ => .mk (same _) (calls _)) _
    faults := forall₂_same.mpr fun _ _ => .mk (same _)
    remarks := forall₂_same.mpr fun _ _ => .mk (same _) }⟩

variable {s s' : State} (h : s.Matches R s')

include h

theorem notes : s.notes.Matches R s'.notes := by
  obtain ⟨n, rfl, notes⟩ := h
  exact notes

theorem globals : s.globals.Matches (Variable.Matches R) s'.globals := h.notes.globals

theorem locals : s.locals.Matches (Variable.Matches R) s'.locals := h.notes.locals

theorem routines : s.routines.Matches (Routine.Matches R) s'.routines := h.notes.routines

theorem constants_eq : s'.constants = s.constants := by
  obtain ⟨n, rfl, -⟩ := h
  rfl

theorem setGlobals (same : g.Matches (Variable.Matches R) g') :
    State.Matches R { s with globals := g } { s' with globals := g' } := by
  obtain ⟨n, rfl, notes⟩ := h
  exact ⟨{ n with globals := g' }, rfl, { notes with globals := same }⟩

theorem setLocals (same : l.Matches (Variable.Matches R) l') :
    State.Matches R { s with locals := l } { s' with locals := l' } := by
  obtain ⟨n, rfl, notes⟩ := h
  exact ⟨{ n with locals := l' }, rfl, { notes with locals := same }⟩

theorem setRoutine (name : String) (same : r.Matches R r') :
    State.Matches R { s with routines := s.routines.insert name r }
      { s' with routines := s'.routines.insert name r' } := by
  obtain ⟨n, rfl, notes⟩ := h
  exact ⟨{ n with routines := n.routines.insert name r' }, rfl,
    { notes with routines := notes.routines.insert name same }⟩

end State.Matches

/-! ## Steps -/

/-- A step that neither looks at the notes of a state nor changes them. -/
def Silent {α : Type} (m : Lowering α) : Prop := ∀ s n, m (s.noting n) = ((m s).1, (m s).2.noting n)

/-- Two steps lead from states that match to states that match, with related results. In a lax comparison
this holds unless the first step ends with faults, and then faults are kept. -/
structure Pairs (c : Comparison) {α : Type} (V : α → α → Prop) (m m' : Lowering α) : Prop where
  run : ∀ s s', s.Matches c.alike s' →
    V (m s).1 (m' s').1 ∧ (m s).2.Matches c.alike (m' s').2 ∨ c.lax ∧ (m s).2.faults ≠ []
  keeps : c.lax → ∀ s, (∃ a, V (m s).1 a) ∧ (s.faults ≠ [] → (m s).2.faults ≠ [])

/-- Two steps that come to the same result. -/
abbrev Agrees (c : Comparison) {α : Type} (m m' : Lowering α) : Prop := Pairs c (· = ·) m m'

section Rules

variable {c : Comparison} {α β : Type} {V : α → α → Prop} {W : β → β → Prop}

theorem Silent.pure (a : α) : Silent (Pure.pure a : Lowering α) := fun _ _ => rfl

theorem Silent.bind {f : α → Lowering β} (first : Silent m) (second : ∀ a, Silent (f a)) :
    Silent (m >>= f) := by
  intro s n
  rw [bind_apply, first, second]
  rfl

namespace Pairs

/-- Steps that always lead to states that match, without taking faults back. -/
theorem of_run (run : ∀ s s', s.Matches c.alike s' →
      V (m s).1 (m' s').1 ∧ (m s).2.Matches c.alike (m' s').2)
    (keeps : ∀ s, s.faults ≠ [] → (m s).2.faults ≠ []) : Pairs c V m m' where
  run s s' h := .inl (run s s' h)
  keeps free s := ⟨⟨_, (run s s (.refl (c.refl free) s)).1⟩, keeps s⟩

theorem silent {m : Lowering α} (h : Silent m) : Agrees c m m := by
  have own (s : State) : (m s).2.notes = s.notes := congrArg (fun r => r.2.notes) (h s s.notes)
  refine of_run ?_ fun s => ?_
  · rintro s _ ⟨n, rfl, notes⟩
    rw [h s n]
    exact ⟨rfl, n, rfl, own s ▸ notes⟩
  · have faults : (m s).2.faults = s.faults := congrArg Notes.faults (own s)
    rw [faults]
    exact id

theorem pure (same : V a a') : Pairs c V (Pure.pure a) (Pure.pure a') where
  run _ _ h := .inl ⟨same, h⟩
  keeps _ _ := ⟨⟨a', same⟩, id⟩

theorem bind {f f' : α → Lowering β} (first : Pairs c V m m')
    (second : ∀ a a', V a a' → Pairs c W (f a) (f' a')) : Pairs c W (m >>= f) (m' >>= f') := by
  constructor
  · intro s s' h
    rcases first.run s s' h with ⟨same, states⟩ | ⟨free, faulty⟩
    · exact (second _ _ same).run _ _ states
    · obtain ⟨⟨a, same⟩, -⟩ := first.keeps free s
      exact .inr ⟨free, ((second _ a same).keeps free _).2 faulty⟩
  · intro free s
    obtain ⟨⟨a, same⟩, keeps⟩ := first.keeps free s
    obtain ⟨value, keeps'⟩ := (second _ a same).keeps free (m s).2
    exact ⟨value, fun faulty => keeps' (keeps faulty)⟩

/-- The first step comes to the same result in both runs. -/
theorem bindEq {f f' : α → Lowering β} (first : Agrees c m m')
    (second : ∀ a, Pairs c W (f a) (f' a)) : Pairs c W (m >>= f) (m' >>= f') :=
  first.bind fun a _ same => same ▸ second a

theorem andThen {f f' : α → Lowering β} (first : Silent m)
    (second : ∀ a, Pairs c W (f a) (f' a)) : Pairs c W (m >>= f) (m >>= f') :=
  (silent first).bindEq second

theorem ite {p : Prop} [Decidable p] (yes : Pairs c V m m') (no : Pairs c V k k') :
    Pairs c V (if p then m else k) (if p then m' else k') := by
  split
  · exact yes
  · exact no

/-- A step that is taken or left out, and what follows in either case. -/
theorem optional {p : Prop} [Decidable p] {m m' : Lowering α} {k k' : Lowering β}
    (first : Agrees c m m') (next : Pairs c W k k') :
    Pairs c W (if p then m >>= fun _ => k else k) (if p then m' >>= fun _ => k' else k') :=
  ite (first.bindEq fun _ => next) next

theorem get : Pairs c (State.Matches c.alike) get get := .of_run (fun _ _ h => ⟨h, h⟩) fun _ => id

end Pairs

theorem pairs_modify {f f' : State → State} (h : ∀ s s', s.Matches c.alike s' → (f s).Matches c.alike (f' s'))
    (keeps : ∀ s, (f s).faults = s.faults) : Agrees c (modify f : Lowering PUnit) (modify f') :=
  .of_run (fun s s' same => ⟨rfl, h s s' same⟩) fun s faulty => by rwa [modify_apply, keeps s]

end Rules

/-! ## Code -/

theorem silent_newTemp : Silent (newTemp name) := fun _ _ => rfl

theorem silent_newLabel : Silent (newLabel hint) := fun _ _ => rfl

theorem silent_startBlock : Silent (startBlock label) := fun _ _ => rfl

theorem silent_closeBlock : Silent closeBlock := fun _ _ => rfl

theorem silent_emit : Silent (emit i) := by
  intro s n
  have same : (s.noting n).current? = s.current? := rfl
  cases opened : s.current? with
  | none =>
    simp only [emit, newLabel, bind_apply, get_apply, same, opened]
    rfl
  | some b =>
    simp only [emit, bind_apply, get_apply, same, opened]
    rfl

theorem silent_jump (target : String) : Silent (jump target) :=
  silent_emit.bind fun _ => silent_closeBlock

theorem silent_branch {cond : Ir.Value} : Silent (branch cond yes no) :=
  silent_emit.bind fun _ => silent_closeBlock

theorem silent_internString : Silent (internString value) := by
  intro s n
  have same : (s.noting n).strings = s.strings := rfl
  unfold internString
  rw [bind_apply, bind_apply, get_apply, get_apply]
  rw [same]
  cases s.strings.find? fun l => l.value == value with
  | some l | none => rfl

theorem silent_load : Silent (load address) :=
  silent_newTemp.bind fun _ => silent_emit.bind fun _ => .pure _

theorem silent_store : Silent (store address value) := silent_emit

theorem silent_compute : Silent (compute op type left right) :=
  silent_newTemp.bind fun _ => silent_emit.bind fun _ => .pure _

theorem silent_allocate : Silent (allocate name type) :=
  silent_newTemp.bind fun _ => silent_emit.bind fun _ => .pure _

theorem silent_print {format : String} : Silent (print format value) :=
  silent_internString.bind fun _ => silent_emit

/-! ## What is said -/

section Steps

variable {c : Comparison} {species : Species} {t u : Token}

theorem pairs_fault (related : c.alike t u) (f : Fault) : Agrees c (fault t f) (fault u f) := by
  refine .of_run ?_ fun s _ => by simp
  rintro s _ ⟨n, rfl, notes⟩
  refine ⟨rfl, { n with faults := n.faults ++ [f.diagnostic u] }, rfl, { notes with faults := ?_ }⟩
  exact rel_append notes.faults (.cons (.mk related) .nil)

variable {α : Type} {a b : Tree} {args args' : List Tree}

/-- A fault is reported and a value stands in. -/
theorem pairs_fail {V : α → α → Prop} (related : c.alike t u) {a : α} (same : V a a) :
    Pairs c V (do fault t f; return a) (do fault u f; return a) :=
  (pairs_fault related f).bindEq fun _ => .pure same

theorem pairs_caution (related : c.alike t u) (w : Caution) : Agrees c (caution t w) (caution u w) := by
  refine .of_run ?_ fun _ => id
  rintro s _ ⟨n, rfl, notes⟩
  refine ⟨rfl, { n with remarks := n.remarks ++ Remark.enabled n.enabled [w.remark u] }, rfl,
    { notes with remarks := ?_ }⟩
  have said : Forall₂ (Remark.Matches c.alike) [w.remark t] [w.remark u] := .cons (.mk related) .nil
  -- Each run asks its own switch when it says the remark, and that of the other run when it is compared.
  have both (on on' : Switches Warning) : Forall₂ (Remark.Matches c.alike)
      (Remark.enabled on' (Remark.enabled on [w.remark t])) (Remark.enabled on (Remark.enabled on' [w.remark u])) := by
    unfold Remark.enabled
    rw [filter_filter, filter_filter]
    refine rel_filter (fun r r' same => ?_) said
    cases same
    dsimp only
    rw [Bool.and_comm]
  have appended (on : Switches Warning) (rs rs' : List Remark) :
      Remark.enabled on (rs ++ rs') = Remark.enabled on rs ++ Remark.enabled on rs' := filter_append ..
  change Forall₂ _ (Remark.enabled n.enabled (s.remarks ++ Remark.enabled s.enabled _)) (Remark.enabled s.enabled _)
  rw [appended, appended]
  exact rel_append notes.remarks (both _ _)

/-! ## Names -/

/-- A name stands for the same in both runs. -/
inductive Binding.Matches (R : Token → Token → Prop) : Binding → Binding → Prop
  | constant {value : Int64} : Matches R (.constant value) (.constant value)
  | storage {v v' : Variable} : v.Matches R v' → Matches R (.storage v) (.storage v')
  | unbound : Matches R .unbound .unbound

theorem Variable.Matches.touch {v v' : Variable} (h : v.Matches c.alike v') :
    Variable.Matches c.alike { v with used := true } { v' with used := true } := by
  cases h with
  | mk related => exact .mk related

theorem pairs_resolve (name : String) : Pairs c (Binding.Matches c.alike) (resolve name) (resolve name) := by
  refine .of_run (fun s s' h => ?_) fun s faulty => ?_
  · have constants : s'.constants.get? name = s.constants.get? name := by rw [h.constants_eq]
    unfold resolve
    rw [bind_apply, bind_apply, get_apply, get_apply]
    rw [constants]
    cases s.constants.get? name with
    | some value => exact ⟨.constant, h⟩
    | none =>
      rcases h.locals.get?_cases name with ⟨none, none'⟩ | ⟨v, v', found, found', same⟩
      · rcases h.globals.get?_cases name with ⟨absent, absent'⟩ | ⟨v, v', found, found', same⟩
        · rw [none, none', absent, absent']
          exact ⟨.unbound, h⟩
        · rw [none, none', found, found']
          exact ⟨.storage same, h.setGlobals (h.globals.insert name same.touch)⟩
      · rw [found, found']
        exact ⟨.storage same, h.setLocals (h.locals.insert name same.touch)⟩
  · obtain ⟨new, faults, -⟩ := (keeps_resolve name s).toGrows.faults
    simp [faults, faulty]

/-! ## Expressions -/

theorem pairs_asWord (related : c.alike t u) (r : Ir.Value × Ir.Ty) : Agrees c (asWord t r) (asWord u r) := by
  obtain ⟨value, type⟩ := r
  cases type with
  | word => exact .pure rfl
  | _ => exact pairs_fail related rfl

theorem pairs_elementAddress (related : c.alike t u) (array : String) (place : c.alike i i')
 (hindex : Agrees c index index') :
    Agrees c (elementAddress t array i index) (elementAddress u array i' index') := by
  refine (pairs_resolve array).bind fun b b' same => ?_
  cases same with
  | constant | unbound => exact pairs_fail related rfl
  | storage same =>
    cases same with
    | @mk _ type =>
      cases type with
      | array lower upper elem =>
        refine hindex.bindEq fun k => ?_
        have address {α : Type} {k' : Ir.Value → Lowering α} {left right : Ir.Value} {size : Int64}
            (hk : ∀ a, Silent (k' a)) : Silent (do
              let distance ← compute .sub .word k left
              let wide ← newTemp ""
              emit { op := .extsw, type := .long, operandType := .word, result := .temp wide,
                     args := [distance] }
              let offset ← compute .mul .long (.temp wide) (.const size)
              let address ← compute .add .address right offset
              k' address) :=
          silent_compute.bind fun _ => silent_newTemp.bind fun _ =>
            silent_emit.bind fun _ => silent_compute.bind fun _ =>
            silent_compute.bind hk
        cases k with
        | const n => exact .optional (pairs_caution place _) (.silent (address fun _ => .pure _))
        | _ => exact .silent (address fun _ => .pure _)
      | _ => exact pairs_fail related rfl

theorem pairs_wordElement (related : c.alike t u) (place : c.alike i i')
 (hindex : Agrees c index index') :
    Agrees c (wordElement t array i index) (wordElement u array i' index') := by
  refine (pairs_elementAddress related array place hindex).bindEq fun found => ?_
  cases found with
  | none => exact .pure rfl
  | some found => exact .ite (pairs_fail related rfl) (.pure rfl)

theorem pairs_arrayAddress (h : Made c species a b) :
    Agrees c (arrayAddress a want use) (arrayAddress b want use) := by
  induction h with
  | name listed =>
    refine (pairs_resolve _).bind fun b b' same => ?_
    cases same with
    | storage same =>
      cases same with
      | mk => exact .ite (pairs_fail listed.alike rfl) (.ite (pairs_fail listed.alike rfl) (.pure rfl))
    | _ => exact pairs_fail listed.alike rfl
  | _ => first | assumption | exact pairs_fail (Comparison.Listed.alike ‹_›) rfl

/-- The token of a call is remembered only if there is none for the routine. -/
theorem pairs_callee (related : c.alike t u) (name : String) (count : Nat) (wantValue : Bool) :
    Pairs c (Option.Rel (Routine.Matches c.alike)) (callee t name count wantValue) (callee u name count wantValue) := by
  refine Pairs.get.bind fun s s' h => ?_
  rcases h.routines.get?_cases name with ⟨none, none'⟩ | ⟨r, r', found, found', same⟩
  · rw [none, none']
    exact pairs_fail related .none
  · rw [found, found']
    cases same with
    | @mk symbol d d' params result defined call? call?' declared calls =>
      have first : Option.Rel c.alike (call?.or (some t)) (call?'.or (some u)) := by
        cases calls with
        | some same => exact .some same
        | none => exact .some related
      have called : Routine.Matches c.alike ⟨symbol, d, params, result, defined, call?.or (some t)⟩
        ⟨symbol, d', params, result, defined, call?'.or (some u)⟩ := .mk declared first
      refine (pairs_modify (fun s s' h => h.setRoutine name called) fun _ => rfl).bindEq fun _ => ?_
      exact .ite (pairs_fail related .none) (.ite (pairs_fail related .none) (.pure (.some called)))

theorem pairs_finishCall (same : r.Matches c.alike r') (args : List (Ir.Value × Ir.Ty)) :
    Agrees c (finishCall r args) (finishCall r' args) := by
  cases same with
  | mk =>
    exact .ite (.andThen silent_emit fun _ => .pure rfl)
      (.andThen silent_newTemp fun _ => .andThen silent_emit fun _ => .pure rfl)

theorem pairs_callRoutine (related : c.alike t u) (name : String) (count : Nat) (wantValue : Bool)
    {arguments arguments' : Routine → Lowering (Option (List (Ir.Value × Ir.Ty)))}
    (harguments : ∀ r r', r.Matches c.alike r' → Agrees c (arguments r) (arguments' r')) :
    Agrees c (callRoutine t name count wantValue arguments) (callRoutine u name count wantValue arguments') := by
  refine (pairs_callee related name count wantValue).bind fun r? r?' same => ?_
  cases same with
  | none => exact .pure rfl
  | some same =>
    refine (harguments _ _ same).bindEq fun args? => ?_
    cases args? with
    | none => exact .pure rfl
    | some args => exact pairs_finishCall same args

theorem pairs_callFunction (related : c.alike t u) (name : String) (count : Nat)
    {arguments arguments' : Routine → Lowering (Option (List (Ir.Value × Ir.Ty)))}
    (harguments : ∀ r r', r.Matches c.alike r' → Agrees c (arguments r) (arguments' r')) :
    Agrees c (callFunction t name count arguments) (callFunction u name count arguments') := by
  unfold callFunction
  cases Builtin.ofName? name with
  | some => exact pairs_fail related rfl
  | none => exact pairs_callRoutine related name count true harguments

theorem pairs_isCallable (name : String) : Agrees c (isCallable name) (isCallable name) := by
  refine Pairs.get.bind fun s s' h => ?_
  rw [h.routines.contains_eq]
  exact .pure rfl

theorem pairs_lowerName (related : c.alike t u) (name : String) : Agrees c (lowerName t name) (lowerName u name) := by
  refine (pairs_resolve name).bind fun b b' same => ?_
  cases same with
  | constant => exact .pure rfl
  | storage same =>
    cases same with
    | mk => exact .ite (pairs_fail related rfl) (.silent silent_load)
  | unbound =>
    refine (pairs_isCallable name).bindEq fun callable => .ite ?_ (pairs_fail related rfl)
    exact pairs_callFunction related name 0 fun _ _ _ => .pure rfl

/-- Arguments that are made side by side, and whose values are computed alike. -/
abbrev LowersEach (c : Comparison) (species : Species) : List Tree → List Tree → Prop :=
  Forall₂ fun a b => Made c species a b ∧ Agrees c (lowerExpr a) (lowerExpr b)

theorem pairs_lowerArguments (each : LowersEach c species args args') (callee : String) (index : Nat)
    (params : List VarType) :
    Agrees c (lowerArguments callee index params args) (lowerArguments callee index params args') := by
  induction each generalizing index params with
  | nil => cases params <;> exact .pure rfl
  | cons first _ ih =>
    cases params with
    | nil => exact .pure rfl
    | cons param params =>
      refine .ite ((pairs_arrayAddress first.1).bindEq fun address? => ?_) ?_
      · cases address? with
        | none => exact .pure rfl
        | some address => exact (ih _ _).bindEq fun _ => .pure rfl
      · exact first.2.bindEq fun r => (pairs_asWord first.1.alike r).bindEq fun _ =>
          (ih _ _).bindEq fun _ => .pure rfl

theorem pairs_argumentsOf (each : LowersEach c species args args') (callee : String) (r r' : Routine)
    (same : r.Matches c.alike r') : Agrees c (lowerArguments callee 1 r.params args)
      (lowerArguments callee 1 r'.params args') := by
  cases same with
  | mk => exact pairs_lowerArguments each callee 1 _

theorem pairs_lowerExpr (h : Made c species a b) : Agrees c (lowerExpr a) (lowerExpr b) := by
  induction h with
  | number | negative | zero =>
    exact .pure rfl
  | text =>
    unfold lowerExpr
    exact .andThen silent_internString fun _ => .pure rfl
  | name listed =>
    exact (pairs_lowerName listed.alike _).bindEq fun _ => .pure rfl
  | element listed _ index ih =>
    have word := ih.bindEq fun r => pairs_asWord index.alike r
    refine (pairs_wordElement listed.alike index.alike word).bindEq fun address? => ?_
    cases address? with
    | none => exact .pure rfl
    | some address => exact .andThen silent_load fun _ => .pure rfl
  | @binary t u _ _ _ _ op listed _ left right ihl ihr =>
    unfold lowerExpr
    cases operation? op with
    | none => exact pairs_fail listed.alike rfl
    | some operation =>
      exact ihl.bindEq fun r => (pairs_asWord left.alike r).bindEq fun _ => ihr.bindEq fun r =>
        (pairs_asWord right.alike r).bindEq fun _ => .andThen silent_compute fun _ => .pure rfl
  | call listed _ length each ih =>
    have args : LowersEach c .expression _ _ := forall₂_iff_zip.mpr ⟨length, fun member => ⟨each member, ih member⟩⟩
    unfold lowerExpr
    rw [length]
    exact (pairs_callFunction listed.alike _ _ (pairs_argumentsOf args _)).bindEq fun _ => .pure rfl
  | _ => first | assumption | (unfold lowerExpr; exact pairs_fail (Comparison.Listed.alike ‹_›) rfl)

theorem pairs_lowerWord (h : Made c species a b) : Agrees c (lowerWord a) (lowerWord b) :=
  (pairs_lowerExpr h).bindEq fun r => pairs_asWord h.alike r

theorem pairs_lowerTarget (h : Made c species a b) : Agrees c (lowerTarget a) (lowerTarget b) := by
  induction h with
  | name listed =>
    refine (pairs_resolve _).bind fun b b' same => ?_
    cases same with
    | constant | unbound => exact pairs_fail listed.alike rfl
    | storage same =>
      cases same with
      | mk => exact .ite (pairs_fail listed.alike rfl) (.pure rfl)
  | element listed _ index =>
    exact pairs_wordElement listed.alike index.alike (pairs_lowerWord index)
  | _ => first | assumption | exact pairs_fail (Comparison.Listed.alike ‹_›) rfl

/-! ## Statements -/

variable {multi multi' : Bool} (allows : c.Allows multi multi')

theorem pairs_lowerWrites (each : MadeEach c species args args') : Agrees c (lowerWrites args) (lowerWrites args') := by
  induction each with
  | nil => exact .pure rfl
  | cons first _ ih =>
    refine (pairs_lowerExpr first).bindEq fun r => ?_
    exact .ite (.andThen silent_print fun _ => ih) (.andThen silent_print fun _ => ih)

theorem pairs_lowerReads (each : MadeEach c species args args') : Agrees c (lowerReads args) (lowerReads args') := by
  induction each with
  | nil => exact .pure rfl
  | cons first _ ih =>
    refine (pairs_lowerTarget first).bindEq fun address? => ?_
    cases address? with
    | none => exact .andThen (.pure ()) fun _ => ih
    | some address =>
      exact .andThen silent_internString fun _ => .andThen silent_emit fun _ => ih

theorem pairs_step (op : Ir.Op) (h : Made c species a b) :
    Agrees c (step op a amount) (step op b amount) := by
  refine (pairs_lowerTarget h).bindEq fun address? => ?_
  cases address? with
  | none => exact .pure rfl
  | some address =>
    exact .andThen silent_load fun _ => .andThen silent_compute fun _ =>
      .silent silent_store

theorem pairs_lowerStep (related : c.alike t u) (each : MadeEach c species args args') :
    Agrees c (lowerStep t name op args) (lowerStep u name op args') := by
  have length := each.length_eq
  cases each with
  | nil => exact pairs_fault related _
  | cons target each =>
    cases each with
    | nil => exact pairs_step op target
    | cons amount each =>
      cases each with
      | nil => exact (pairs_lowerWord amount).bindEq fun _ => pairs_step op target
      | cons =>
        unfold lowerStep
        dsimp only
        rw [length]
        exact pairs_fault related _

include allows

/-- Several arguments where they are allowed, or a fault of the first run where they are not. -/
theorem pairs_checkArity (related : c.alike t u) (name : String) (got : Nat) :
    Agrees c (checkArity multi t name got) (checkArity multi' u name got) := by
  rcases allows with rfl | ⟨free, rfl⟩
  · exact .ite (pairs_fail related rfl) (.pure rfl)
  · have first : Agrees c (checkArity false t name got) (checkArity false u name got) :=
      .ite (pairs_fail related rfl) (.pure rfl)
    refine ⟨fun s s' h => ?_, first.keeps⟩
    by_cases many : 1 < got
    · exact .inr ⟨free, by simp [checkArity, many]⟩
    · exact .inl (by simp [checkArity, many, h])

theorem pairs_arity (related : c.alike t u)
    (hm : Agrees c m m') : Agrees c (do if ← checkArity multi t name got then m)
      (do if ← checkArity multi' u name got then m') :=
  (pairs_checkArity allows related name got).bindEq fun _ => .ite hm (.pure rfl)

theorem pairs_lowerBuiltin (related : c.alike t u) (b : Builtin) (each : MadeEach c species args args') :
    Agrees c (lowerBuiltin multi t b args) (lowerBuiltin multi' u b args') := by
  unfold lowerBuiltin
  rw [each.length_eq]
  cases b with
  | write => exact pairs_arity allows related (pairs_lowerWrites each)
  | writeln =>
    exact pairs_arity allows related ((pairs_lowerWrites each).bindEq fun _ => .silent silent_print)
  | readln => exact pairs_arity allows related (pairs_lowerReads each)
  | dec | inc => exact pairs_lowerStep related each

theorem pairs_lowerCall (related : c.alike t u) (name : String) (each : MadeEach c species args args') :
    Agrees c (lowerCall multi t name args) (lowerCall multi' u name args') := by
  have lowers : LowersEach c species args args' := each.imp fun _ _ same => ⟨same, pairs_lowerExpr same⟩
  unfold lowerCall
  cases Builtin.ofName? name with
  | some b => exact pairs_lowerBuiltin allows related b each
  | none =>
    rw [each.length_eq]
    exact (pairs_callRoutine related name _ _ (pairs_argumentsOf lowers name)).bindEq fun _ => .pure rfl

omit allows in
theorem pairs_assignWord (h : Made c species a b)
    (hvalue : Made c .expression value value') : Agrees c (assignWord a value) (assignWord b value') := by
  refine (pairs_lowerWord hvalue).bindEq fun _ => (pairs_lowerTarget h).bindEq fun address? => ?_
  cases address? with
  | none => exact .pure rfl
  | some address => exact .silent silent_store

omit allows in
theorem pairs_lowerAssign (h : Made c species a b)
    (hvalue : Made c .expression value value') : Agrees c (lowerAssign a value) (lowerAssign b value') := by
  have words := pairs_assignWord h hvalue
  induction h with
  | operand _ ih | value _ ih | mention _ ih | perform _ ih | block _ ih | global _ ih => exact ih words
  | name =>
    refine (pairs_resolve _).bind fun b b' same => ?_
    cases same with
    | storage same =>
      cases same with
      | mk =>
        refine .ite ((pairs_arrayAddress hvalue).bindEq fun source? => ?_) words
        cases source? with
        | none => exact .pure rfl
        | some source => exact .silent silent_emit
    | _ => exact words
  | _ => exact words

theorem pairs_lowerBare (related : c.alike t u) (name : String) :
    Agrees c (lowerBare multi t name) (lowerBare multi' u name) := by
  have value := (pairs_lowerName related name).bindEq fun _ => (.pure rfl : Agrees c (pure ()) (pure ()))
  refine (pairs_resolve name).bind fun b b' same => (pairs_isCallable name).bindEq fun callable => ?_
  cases same with
  | unbound =>
    cases callable with
    | true => exact pairs_lowerCall allows related name (.nil : MadeEach c .expression [] [])
    | false => exact value
  | _ => exact value

omit allows in
theorem pairs_controlAddress (related : c.alike t u) (name : String) :
    Agrees c (controlAddress t name) (controlAddress u name) := by
  refine (pairs_resolve name).bind fun b b' same => ?_
  cases same with
  | constant | unbound => exact pairs_fail related rfl
  | storage same =>
    cases same with
    | mk => exact .ite (pairs_fail related rfl) (.pure rfl)

omit allows in
theorem pairs_insideLoop (hbody : Agrees c body body') :
    Agrees c (insideLoop exit body) (insideLoop exit body') :=
  Pairs.andThen (fun _ _ => rfl) fun _ => hbody.bindEq fun _ =>
    Pairs.andThen (fun _ _ => rfl) fun _ => .pure rfl

omit allows in
/-- Leads to a place that the state holds, if there is one. -/
theorem pairs_leaveTo (target : State → List String) (silent : ∀ s n, target (s.noting n) = target s)
 (none : Agrees c m m') : Agrees c
      (do match target (← get) with
          | [] => m
          | place :: _ =>
            jump place
            return true)
      (do match target (← get) with
          | [] => m'
          | place :: _ =>
            jump place
            return true) := by
  refine Pairs.get.bind ?_
  rintro s _ ⟨n, rfl, -⟩
  rw [silent]
  cases target s with
  | nil => exact none
  | cons place => exact .andThen (silent_jump place) fun _ => .pure rfl

omit allows in
theorem pairs_lowerStmts (ends : Bool) (each : Forall₂
      (fun a b => c.alike a.tok b.tok ∧ Agrees c (lowerStmt multi a) (lowerStmt multi' b)) stmts stmts') :
    Agrees c (lowerStmts multi ends stmts) (lowerStmts multi' ends stmts') := by
  induction each generalizing ends with
  | nil => exact .pure rfl
  | cons first _ ih =>
    exact .ite ((pairs_caution first.1 _).bindEq fun _ => .pure rfl) (first.2.bindEq fun ends => ih ends)

omit allows in
theorem pairs_lowerBranch {cond : Tree} (hcond : Made c .expression cond cond')
    (hyes : Agrees c (lowerStmt multi yes) (lowerStmt multi' yes'))
    (hno : Agrees c (lowerStmt multi no) (lowerStmt multi' no')) :
    Agrees c (lowerStmt multi (.branch t cond yes no)) (lowerStmt multi' (.branch u cond' yes' no')) := by
  refine .andThen silent_newLabel fun _ => .andThen silent_newLabel fun _ =>
    .andThen silent_newLabel fun _ => (pairs_lowerWord hcond).bindEq fun _ =>
    .andThen silent_branch fun _ => .andThen silent_startBlock fun _ => hyes.bindEq fun yesEnds => ?_
  refine .optional (.silent (silent_jump _)) (.andThen silent_startBlock fun _ => hno.bindEq fun noEnds => ?_)
  exact .optional (.silent (silent_jump _)) (.ite (.pure rfl) (.andThen silent_startBlock fun _ => .pure rfl))

theorem pairs_lowerStmt (h : Made c species a b) : Agrees c (lowerStmt multi a) (lowerStmt multi' b) := by
  have value {a b : Tree} (same : Agrees c (lowerExpr a) (lowerExpr b)) : Agrees c
      (do let _ ← lowerExpr a; return false) (do let _ ← lowerExpr b; return false) :=
    same.bindEq fun _ => .pure rfl
  have values := pairs_lowerExpr h
  induction h with
  | operand made ih | value made ih | mention made ih | perform made ih | block made ih | global made ih =>
    exact ih (pairs_lowerExpr made)
  | name listed =>
    exact (pairs_lowerBare allows listed.alike _).bindEq fun _ => .pure rfl
  | call listed _ length each =>
    have args := forall₂_iff_zip.mpr ⟨length, each⟩
    exact (pairs_lowerCall allows listed.alike _ args).bindEq fun _ => .pure rfl
  | assign _ target source =>
    exact (pairs_lowerAssign target source).bindEq fun _ => .pure rfl
  | branch _ cond yes _ ihyes => exact pairs_lowerBranch cond (ihyes (pairs_lowerExpr yes)) (.pure rfl)
  | branchElse _ cond yes no _ ihyes ihno =>
    exact pairs_lowerBranch cond (ihyes (pairs_lowerExpr yes)) (ihno (pairs_lowerExpr no))
  | count listed _ _ start stop body _ _ ih =>
    unfold lowerStmt
    refine (pairs_controlAddress listed.alike _).bindEq fun address? => ?_
    cases address? with
    | none => exact .pure rfl
    | some address =>
      refine (pairs_lowerWord start).bindEq fun _ => (pairs_lowerWord stop).bindEq fun _ =>
        .andThen silent_store fun _ => .andThen silent_newLabel fun _ =>
        .andThen silent_newLabel fun _ => .andThen silent_newLabel fun _ =>
        .andThen (silent_jump _) fun _ => .andThen silent_startBlock fun _ =>
        .andThen silent_load fun _ => .andThen silent_compute fun _ =>
        .andThen silent_branch fun _ => .andThen silent_startBlock fun _ =>
        (pairs_insideLoop (ih (pairs_lowerExpr body))).bindEq fun ends => ?_
      exact .ite (.andThen silent_load fun _ => .andThen silent_compute fun _ =>
        .andThen silent_store fun _ => .andThen (silent_jump _) fun _ =>
        .andThen silent_startBlock fun _ => .pure rfl)
        (.andThen silent_startBlock fun _ => .pure rfl)
  | loop _ cond body _ ih =>
    refine .andThen silent_newLabel fun _ => .andThen silent_newLabel fun _ =>
      .andThen silent_newLabel fun _ => .andThen (silent_jump _) fun _ =>
      .andThen silent_startBlock fun _ => (pairs_lowerWord cond).bindEq fun _ =>
      .andThen silent_branch fun _ => .andThen silent_startBlock fun _ =>
      (pairs_insideLoop (ih (pairs_lowerExpr body))).bindEq fun ends => ?_
    exact .optional (.silent (silent_jump _)) (.andThen silent_startBlock fun _ => .pure rfl)
  | leave listed =>
    exact pairs_leaveTo State.loopExits (fun _ _ => rfl) (pairs_fail listed.alike rfl)
  | exit =>
    exact pairs_leaveTo State.returnTargets (fun _ _ => rfl) (.pure rfl)
  | body _ length each ih =>
    unfold lowerStmt
    refine pairs_lowerStmts false (forall₂_iff_zip.mpr ⟨length, fun member => ?_⟩)
    exact ⟨(each member).alike, ih member (pairs_lowerExpr (each member))⟩
  | _ =>
    exact value values

omit allows

/-! ## Declarations -/

theorem pairs_forEach {f f' : Tree → Lowering Unit}
    (each : Forall₂ (fun a b => Agrees c (f a) (f' b)) ts ts') : Agrees c (forEach f ts) (forEach f' ts') := by
  induction each with
  | nil => exact .pure rfl
  | cons first _ ih => exact first.bindEq fun _ => ih

/-- The line of an earlier declaration is the same in both runs. -/
theorem Variable.Matches.line_eq {v v' : Variable} (h : v.Matches c.alike v') : v'.tok.line = v.tok.line := by
  cases h with
  | mk related => exact c.indistinct.line related

theorem pairs_declareGlobal (h : Made c species a b) : Agrees c (declareGlobal a) (declareGlobal b) := by
  induction h with
  | @constDecl t _ value listed =>
    refine Pairs.get.bind fun s s' same => ?_
    rw [same.constants_eq, same.globals.contains_eq]
    have declared : Agrees c (modify fun s : State => { s with constants := s.constants.insert t.value value })
        (modify fun s : State => { s with constants := s.constants.insert t.value value }) :=
      .silent fun _ _ => rfl
    have remarked (w : Caution) := (pairs_caution listed.alike w).bindEq fun _ => declared
    exact .ite (remarked _) (.ite (remarked _) declared)
  | @varDecl t _ _ _ type listed =>
    refine Pairs.get.bind fun s s' same => ?_
    rcases same.globals.get?_cases t.value with ⟨none, none'⟩ | ⟨v, v', found, found', matched⟩
    · rw [none, none', same.constants_eq]
      refine .optional (pairs_caution listed.alike _) (pairs_modify ?_ fun _ => rfl)
      rintro s _ ⟨n, rfl, notes⟩
      exact ⟨{ n with globals := _ }, rfl,
        { notes with globals := notes.globals.insert t.value (.mk listed.alike) }⟩
    · rw [found, found']
      dsimp only
      rw [matched.line_eq]
      exact pairs_fault listed.alike _
  | _ => first | assumption | exact pairs_fault (Comparison.Listed.alike ‹_›) _

theorem pairs_declareLocal (related : c.alike t u) (name : String) (role : Role) (type : VarType)
    (address : Ir.Value) : Agrees c (declareLocal t name role type address)
      (declareLocal u name role type address) := by
  refine Pairs.get.bind fun s s' same => ?_
  rcases same.locals.get?_cases name with ⟨none, none'⟩ | ⟨v, v', found, found', matched⟩
  · rw [none, none', same.constants_eq, same.globals.contains_eq]
    have declared : Agrees c
        (modify fun s : State => { s with locals := s.locals.insert name ⟨role, type, address, t, false⟩ })
        (modify fun s : State => { s with locals := s.locals.insert name ⟨role, type, address, u, false⟩ }) :=
      pairs_modify (fun s s' same => same.setLocals (same.locals.insert name (.mk related))) fun _ => rfl
    exact .ite ((pairs_caution related _).bindEq fun _ => declared) (.optional (pairs_caution related _) declared)
  · rw [found, found']
    dsimp only
    rw [matched.line_eq]
    exact pairs_fault related _

theorem pairs_enterParameter (h : Made c species a b) : Agrees c (enterParameter a) (enterParameter b) := by
  induction h with
  | @varDecl t _ _ _ type listed =>
    refine .andThen silent_allocate fun slot => ?_
    have declared := pairs_declareLocal listed.alike t.value .parameter type slot
    exact .ite (.andThen silent_emit fun _ => declared) (.andThen silent_store fun _ => declared)
  | _ => first | assumption | exact .pure rfl

theorem pairs_enterLocal (h : Made c species a b) : Agrees c (enterLocal a) (enterLocal b) := by
  induction h with
  | varDecl listed =>
    exact .andThen silent_allocate fun _ => pairs_declareLocal listed.alike _ _ _ _
  | _ => first | assumption | exact .pure rfl

/-! ## Routines -/

/-- What is remembered of a call stays when the routine gets its body. -/
theorem pairs_register (related : c.alike t u) : Pairs c (Option.Rel (Routine.Matches c.alike)) (register t name params result hasBody)
      (register u name params result hasBody) := by
  refine Pairs.get.bind fun s s' same => ?_
  rcases same.routines.get?_cases name with ⟨absent, absent'⟩ | ⟨r, r', found, found', matched⟩
  · rw [absent, absent']
    have entry : Routine.Matches c.alike ⟨"pas_" ++ name, t, params, result, hasBody, none⟩
      ⟨"pas_" ++ name, u, params, result, hasBody, none⟩ := .mk related .none
    refine (pairs_modify (fun s s' same => same.setRoutine name entry) fun _ => rfl).bindEq fun _ => ?_
    cases hasBody with
    | true => exact .pure (.some entry)
    | false => exact .pure .none
  · rw [found, found']
    cases matched with
    | @mk symbol d d' params' result' defined call? call?' declared calls =>
      have entry : Routine.Matches c.alike ⟨symbol, d, params', result', true, call?⟩
        ⟨symbol, d', params', result', true, call?'⟩ := .mk declared calls
      dsimp only
      rw [c.indistinct.line declared]
      refine .ite (pairs_fail related .none) (.ite (pairs_fail related .none) (.ite ?_ (.pure .none)))
      refine (pairs_modify (fun s s' same => same.setRoutine name entry) fun _ => rfl).bindEq fun _ => ?_
      exact .pure (.some entry)

theorem pairs_remarkUnused (names : List String) : Agrees c (remarkUnused names) (remarkUnused names) := by
  induction names with
  | nil => exact .pure rfl
  | cons name names ih =>
    refine Pairs.get.bind fun s s' same => ?_
    rcases same.locals.get?_cases name with ⟨none, none'⟩ | ⟨v, v', found, found', matched⟩
    · rw [none, none']
      exact .andThen (.pure ()) fun _ => ih
    · rw [found, found']
      cases matched with
      | mk related => exact (pairs_caution related _).bindEq fun _ => ih

theorem pairs_lowerFrame {leave : α → Lowering Ir.Instr}
    (henter : Agrees c enter enter') (hbody : Agrees c (lowerStmt multi a) (lowerStmt multi' b))
    (hleave : ∀ slot, Silent (leave slot)) :
    Agrees c (lowerFrame multi enter a leave) (lowerFrame multi' enter' b leave) := by
  refine Pairs.andThen (fun _ _ => rfl) fun _ => .andThen silent_newLabel fun _ =>
    Pairs.andThen (fun _ _ => rfl) fun _ => .andThen silent_startBlock fun _ =>
    henter.bindEq fun slot => hbody.bindEq fun ends => ?_
  refine .optional (.silent (silent_jump _)) (.andThen silent_startBlock fun _ => ?_)
  exact .andThen (hleave slot) fun ret => .andThen silent_emit fun _ =>
    .andThen silent_closeBlock fun _ => .silent fun _ _ => rfl

theorem silent_leaveRoutine (slot : Ir.Value) : Silent (leaveRoutine slot) := by
  unfold leaveRoutine
  split
  · exact .pure _
  · exact silent_load.bind fun _ => .pure _

theorem silent_finishFunction : Silent (finishFunction f) := fun _ _ => rfl

theorem pairs_insideRoutine (hbody : Agrees c body body') :
    Agrees c (insideRoutine body) (insideRoutine body') := by
  refine Pairs.get.bind ?_
  rintro s _ ⟨n, rfl, -⟩
  refine (pairs_modify ?_ ?_).bindEq fun _ => hbody.bindEq fun _ => pairs_modify ?_ ?_
  · rintro s _ ⟨n, rfl, notes⟩
    exact ⟨{ n with scopes := n.locals :: n.scopes, locals := {} }, rfl,
      { notes with scopes := .cons notes.locals notes.scopes, locals := .nil }⟩
  · exact fun _ => rfl
  · rintro s _ ⟨n, rfl, notes⟩
    have empty : Table.Matches (Variable.Matches c.alike) {} {} := .nil
    obtain ⟨outer, others⟩ := forall₂_headD_tail notes.scopes empty
    exact ⟨{ n with locals := n.scopes.headD {}, scopes := n.scopes.tail }, rfl,
      { notes with locals := outer, scopes := others }⟩
  · exact fun _ => rfl

theorem declaredType_eq (h : Made c species a b) : declaredType b = declaredType a := by
  induction h with
  | _ => first | assumption | rfl

theorem parameter_eq (h : Made c species a b) : parameter b = parameter a := by
  induction h with
  | _ => first | assumption | rfl

/-- What is read off trees one by one is the same if it is the same for each. -/
theorem map_eq {f : Tree → α} (same : ∀ {a b}, Made c species a b → f b = f a)
    (each : MadeEach c species ts ts') : ts'.map f = ts.map f := by
  induction each with
  | nil => rfl
  | cons first _ ih => rw [map_cons, map_cons, same first, ih]

section Routines

variable (related : c.alike t u) {params params' locals locals' : List Tree}
  (hparams : MadeEach c .var params params') (hlocals : MadeEach c .var locals locals')

include related hparams hlocals

theorem pairs_enterRoutine (name : String) (result : VarType) :
    Agrees c (enterRoutine t name params locals result) (enterRoutine u name params' locals' result) := by
  refine (pairs_forEach (hparams.imp fun _ _ => pairs_enterParameter)).bindEq fun _ => ?_
  refine (pairs_forEach (hlocals.imp fun _ _ => pairs_enterLocal)).bindEq fun _ => ?_
  exact .ite (.pure rfl) (.andThen silent_allocate fun slot => .andThen silent_store fun _ =>
    (pairs_declareLocal related _ _ _ _).bindEq fun _ => .pure rfl)

variable {body body' : Tree} (hbody : Agrees c (lowerStmt multi body) (lowerStmt multi' body'))

include hbody

theorem pairs_lowerBody (name : String) (result : VarType) (same : r.Matches c.alike r') :
    Agrees c (lowerBody multi t name r params result locals body)
      (lowerBody multi' u name r' params' result locals' body') := by
  have enter := pairs_enterRoutine related hparams hlocals name result
  unfold lowerBody
  rw [map_eq parameter_eq hparams]
  refine (pairs_insideRoutine ((pairs_lowerFrame enter hbody silent_leaveRoutine).bindEq fun _ =>
    Pairs.get.bind fun s s' same => ?_)).bindEq fun _ => ?_
  · dsimp only
    rw [same.locals.namesWhere_eq fun v v' matched => by cases matched; rfl]
    exact pairs_remarkUnused _
  · cases same with
    | mk => exact .silent silent_finishFunction

theorem pairs_routine (absent : body'.isAbsent = body.isAbsent) (name : String) (result : VarType) :
    Agrees c (lowerRoutine multi (.routine t name params result locals body))
      (lowerRoutine multi' (.routine u name params' result locals' body')) := by
  unfold lowerRoutine
  dsimp only
  rw [map_eq declaredType_eq hparams, absent]
  refine .ite (pairs_fault related _) (.optional (pairs_caution related _) ?_)
  refine (pairs_register related).bind fun r? r?' same => ?_
  cases same with
  | none => exact .pure rfl
  | some same => exact pairs_lowerBody related hparams hlocals hbody name result same

end Routines

include allows in
theorem pairs_lowerRoutine (h : Made c species a b) : Agrees c (lowerRoutine multi a) (lowerRoutine multi' b) := by
  induction h with
  | forward listed _ _ length each =>
    -- Without a body there is nothing to lower, so it does not matter that none is registered.
    exact pairs_routine listed.alike (forall₂_iff_zip.mpr ⟨length, each⟩) .nil (.pure rfl) rfl _ _
  | defined listed _ _ length each _ length' each' body =>
    exact pairs_routine listed.alike (forall₂_iff_zip.mpr ⟨length, each⟩)
      (forall₂_iff_zip.mpr ⟨length', each'⟩) (pairs_lowerStmt allows body)
      (body.isAbsent.2.trans body.isAbsent.1.symm) _ _
  | _ => first | assumption | exact .pure rfl

/-! ## Programs -/

theorem pairs_checkForward (names : List String) : Agrees c (checkForward names) (checkForward names) := by
  induction names with
  | nil => exact .pure rfl
  | cons name names ih =>
    refine Pairs.get.bind fun s s' same => ?_
    rcases same.routines.get?_cases name with ⟨none, none'⟩ | ⟨r, r', found, found', matched⟩
    · rw [none, none']
      exact .andThen (.pure ()) fun _ => ih
    · rw [found, found']
      cases matched with
      | mk declared calls =>
        cases calls with
        | none => exact (pairs_caution declared _).bindEq fun _ => ih
        | some called => exact (pairs_fault called _).bindEq fun _ => ih

include allows in
theorem pairs_lowerParts {main : Tree}
    (hdecls : MadeEach c .declaration decls decls') (hroutines : MadeEach c .routine routines routines')
    (hmain : Made c .body main main') :
    Agrees c (lowerParts multi decls routines main) (lowerParts multi' decls' routines' main') := by
  have main : Agrees c (lowerMain multi main) (lowerMain multi' main') :=
    (pairs_lowerFrame (.pure rfl) (pairs_lowerStmt allows hmain) fun _ => .pure _).bindEq fun _ =>
      .silent silent_finishFunction
  refine (pairs_forEach (hdecls.imp fun _ _ => pairs_declareGlobal)).bindEq fun _ => ?_
  refine (pairs_forEach (hroutines.imp fun _ _ => pairs_lowerRoutine allows)).bindEq fun _ => ?_
  refine main.bindEq fun _ => Pairs.get.bind fun s s' same => ?_
  rw [same.routines.namesWhere_eq fun r r' matched => by cases matched; rfl]
  exact pairs_checkForward _

end Steps

variable {s : State}

/-- If the complaints about a state are faults of the program, they are the faults that were told. -/
theorem faults_of_outcome {ds : List Diagnostic}
    (failed : (s.outcome wordSize).code = .error ds) (semantic : ∀ d ∈ ds, d.category = .semantic) :
    ∀ d ∈ ds, d ∈ s.faults := by
  unfold State.outcome at failed
  dsimp only at failed
  split at failed
  · cases failed
    exact fun _ => id
  · split at failed
    · cases failed
      intro d member
      obtain ⟨problem, -, rfl⟩ := mem_map.mp member
      cases semantic _ member
    · cases failed

theorem State.code_of_faults (faulty : s.faults ≠ []) (wordSize : Int) :
    (s.outcome wordSize).code = .error s.faults := by
  simp [State.outcome, faulty]

/-- States that match have the same code, or faults that match. -/
theorem State.Matches.code {R : Token → Token → Prop} (h : s.Matches R s') (wordSize : Int) :
    s.faults = [] ∧ (s'.outcome wordSize).code = (s.outcome wordSize).code ∨
    (s.outcome wordSize).code = .error s.faults ∧ (s'.outcome wordSize).code = .error s'.faults := by
  obtain ⟨n, rfl, notes⟩ := h
  have same : (s.noting n).faults = [] ↔ s.faults = [] := by
    rw [← length_eq_zero_iff, ← length_eq_zero_iff]
    exact iff_of_eq (congrArg (· = 0) notes.faults.length_eq.symm)
  by_cases quiet : s.faults = []
  · refine .inl ⟨quiet, ?_⟩
    simp only [State.outcome, quiet, same.mpr quiet]
    rfl
  · exact .inr ⟨State.code_of_faults quiet wordSize, State.code_of_faults (mt same.mp quiet) wordSize⟩

/-- Programs that are made side by side are lowered to the same code, or complained about at tokens that stand
for each other, and with the same remarks of the classes that are switched on in both runs. -/
theorem lower_made (program : IsProgram t) (program' : IsProgram t')
    (h : Made c .program t t') {d : Settings} (allows : c.Allows (d.features .multiWrite) (d'.features .multiWrite))
    (words : d'.wordSize = d.wordSize) :
    c.lax ∧ (∃ ds, (lower d t).code = .error ds) ∨
    ((∃ p, (lower d t).code = .ok p ∧ (lower d' t').code = .ok p) ∨
      ∃ ds ds', (lower d t).code = .error ds ∧ (lower d' t').code = .error ds' ∧
        ds ≠ [] ∧ (∀ d ∈ ds, d.category = .semantic) ∧ Forall₂ (Diagnostic.Matches c.alike) ds ds') ∧
    Forall₂ (Remark.Matches c.alike) (Remark.enabled d'.warnings (lower d t).remarks)
      (Remark.enabled d.warnings (lower d' t').remarks) := by
  obtain ⟨o, -, cases⟩ := lower_cases program d
  cases program with
  | mk hdecls hroutines hmain =>
    cases h with
    | program _ _ _ length each length' each' main =>
      have same := (grows_lowerParts (d.features .multiWrite) hdecls hroutines hmain { enabled := d.warnings }).enabled
      cases program' with
      | mk hdecls hroutines hmain =>
      have same' := (grows_lowerParts (d'.features .multiWrite) hdecls hroutines hmain
        { enabled := d'.warnings }).enabled
      rcases (pairs_lowerParts allows (forall₂_iff_zip.mpr ⟨length, each⟩)
        (forall₂_iff_zip.mpr ⟨length', each'⟩) main).run _ _ (.start d.warnings d'.warnings) with ⟨-, states⟩ | ⟨free, faulty⟩
      · have remarks := states.notes.remarks
        change Forall₂ _ (Remark.enabled (State.enabled _) _) (Remark.enabled (State.enabled _) _) at remarks
        rw [same, same'] at remarks
        refine .inr ⟨?_, remarks⟩
        unfold lower
        rw [words]
        rcases states.code d.wordSize with ⟨quiet, same⟩ | ⟨code, code'⟩
        · rcases cases with ⟨-, p, lowered, -⟩ | ⟨-, ds, failed, some, semantic⟩
          · exact .inl ⟨p, lowered, same.trans lowered⟩
          · obtain ⟨d, member⟩ := exists_mem_of_ne_nil ds some
            have told := faults_of_outcome failed semantic d member
            exact absurd told (eq_nil_iff_forall_not_mem.mp quiet d)
        · rcases cases with ⟨-, p, lowered, -⟩ | ⟨-, ds, failed, some, semantic⟩
          · cases lowered.symm.trans code
          · cases failed.symm.trans code
            exact .inr ⟨_, _, code, code', some, semantic, states.notes.faults⟩
      · exact .inl ⟨free, _, State.code_of_faults faulty _⟩

section Same

variable {w : List Token} {lax : Prop} {t : Tree} (program : IsProgram t)

include program

/-- Two runs on one tree come to the same code or complaints, and to the same remarks that both want. -/
theorem lower_same (made : Made (.same w lax) .program t t) (d d' : Settings)
    (allows : (Comparison.same w lax).Allows (d.features .multiWrite) (d'.features .multiWrite))
    (words : d'.wordSize = d.wordSize) : lax ∧ (∃ ds, (lower d t).code = .error ds) ∨
    (lower d' t).code = (lower d t).code ∧
      Remark.enabled d'.warnings (lower d t).remarks = Remark.enabled d.warnings (lower d' t).remarks := by
  rcases lower_made program program made allows words with failed | ⟨code, remarks⟩
  · exact .inl failed
  · have remarks := remarks.imp fun _ _ => Remark.Matches.eq
    rw [forall₂_eq_eq_eq] at remarks
    refine .inr ⟨?_, remarks⟩
    rcases code with ⟨p, code, code'⟩ | ⟨ds, ds', code, code', -, -, same⟩
    · rw [code, code']
    · have same := same.imp fun _ _ => Diagnostic.Matches.eq
      rw [forall₂_eq_eq_eq] at same
      rw [code, code', same]

/-- The switches of warnings decide nothing but which remarks are made: those that are switched on, of the ones
that are made with all of them on. -/
theorem lower_enabled (made : Made (.same w False) .program t t) (d : Settings) :
    lower d t = { lower { d with warnings := fun _ => true } t with
      remarks := Remark.enabled d.warnings (lower { d with warnings := fun _ => true } t).remarks } := by
  obtain ⟨code, remarks⟩ := (lower_same program made d { d with warnings := fun _ => true } (.inl rfl)
    rfl).resolve_left And.left
  rw [Remark.enabled_all] at remarks
  calc lower d t = ⟨(lower d t).code, (lower d t).remarks⟩ := rfl
    _ = _ := by rw [remarks, ← code]

/-- No remark is made that is switched off. -/
theorem enabled_remarks (made : Made (.same w False) .program t t) (d : Settings) :
    Remark.enabled d.warnings (lower d t).remarks = (lower d t).remarks := by
  rw [lower_enabled program made d]
  exact Remark.enabled_enabled ..

end Same

end Lower

end MiniPascal
