import MiniPascal.Proofs.Lower.Emission

/-!
# Expressions append to the open block

Whatever the state, faults or not, lowering an expression, an assignment or a call appends instructions to the open
block and does nothing else to the code. `Lays S n is n'` says that the instructions `is` neither jump nor
return, that they define the temporaries from `n` up to `n'`, one after the other, and that each of them uses only
constants, symbols, the addresses of the spot `S`, and temporaries of the spot that were defined before it.

`Appends` adds the frame, and `Yields` is the rule for steps: what is known of a value is known at the state `w`, and
stays known at every later one.
-/

open List

namespace MiniPascal.Lower

open Ir (Value Instr Ty)
open Tree (IsExpr IsReference)

/-! ## Code -/

/-- Where code is appended: the addresses of the variables, and the first temporary that is new. -/
structure Spot where
  addresses : Value → Prop
  base : Nat

/-- A value that an instruction can use once the temporaries below `n` are defined. -/
inductive Usable (S : Spot) (n : Nat) : Value → Prop
  | const : Usable S n (.const value)
  | global : Usable S n (.global name)
  | address : S.addresses v → Usable S n v
  | temp : S.base ≤ k → k < n → Usable S n (Code.temp k)

/-- Straight-line code that defines the temporaries from `n` up to `n'`. -/
inductive Lays (S : Spot) : Nat → List Instr → Nat → Prop
  | nil : Lays S n [] n
  | perform : i.op.isTerminator = false → i.result = .missing →
    (∀ v ∈ i.args, Usable S n v) → Lays S n is n' → Lays S n (i :: is) n'
  | define : i.op.isTerminator = false → i.result = Code.temp n →
    (∀ v ∈ i.args, Usable S n v) → Lays S (n + 1) is n' → Lays S n (i :: is) n'

section Code

variable {S : Spot} {n n' m : Nat} {is js : List Instr} {v : Value}

theorem Usable.mono (h : Usable S n v) (le : n ≤ m) : Usable S m v := by
  cases h with
  | const => exact .const
  | global => exact .global
  | address known => exact .address known
  | temp new below => exact .temp new (Nat.lt_of_lt_of_le below le)

theorem Lays.append (h : Lays S n is n') (later : Lays S n' js m) : Lays S n (is ++ js) m := by
  induction h with
  | nil => exact later
  | perform op result args _ ih => exact .perform op result args (ih later)
  | define op result args _ ih => exact .define op result args (ih later)

theorem Lays.le (h : Lays S n is n') : n ≤ n' := by
  induction h with
  | nil => exact Nat.le_refl _
  | perform _ _ _ _ ih => exact ih
  | define _ _ _ _ ih => exact Nat.le_of_succ_le ih

/-- Every new temporary is the result of an instruction. -/
theorem Lays.defines (h : Lays S n is n') (new : n ≤ k) (below : k < n') : ∃ i ∈ is, i.result = Code.temp k := by
  induction h with
  | nil => omega
  | perform _ _ _ _ ih =>
    obtain ⟨i, member, result⟩ := ih new below
    exact ⟨i, mem_cons_of_mem _ member, result⟩
  | @define n _ _ i _ result _ _ ih =>
    by_cases this : k = n
    · exact ⟨i, mem_cons_self, this ▸ result⟩
    · obtain ⟨i, member, result⟩ := ih (by omega) below
      exact ⟨i, mem_cons_of_mem _ member, result⟩

end Code

/-! ## Steps -/

/-- Instructions were appended to the open block. -/
structure Appends (S : Spot) (s : State) (is : List Instr) (s' : State) : Prop where
  frame : Frame s s'
  current : s'.current? = s.current?.map fun b => { b with instrs := b.instrs ++ is }
  blocks : s'.blocks = s.blocks
  labels : s'.labels = s.labels
  code : Lays S s.temps is s'.temps

/-- A block is open, and variables have the addresses of the spot. -/
structure Standing (S : Spot) (s : State) : Prop where
  opened : s.current?.isSome = true
  le : S.base ≤ s.temps
  addresses : ∀ x v, s.storage? x = some v → S.addresses v.address

/-- What is only ever added to. -/
structure State.Before (s s' : State) : Prop where
  temps : s.temps ≤ s'.temps
  strings : s.strings <+: s'.strings

theorem State.Before.refl (s : State) : s.Before s := ⟨Nat.le_refl _, prefix_rfl⟩

theorem State.Before.trans {s₁ s₂ s₃ : State} (first : s₁.Before s₂) (second : s₂.Before s₃) : s₁.Before s₃ :=
  ⟨first.temps.trans second.temps, first.strings.trans second.strings⟩

section Steps

variable {α β : Type} {S : Spot} {s s' w w' : State} {is js : List Instr}

theorem Appends.trans (first : Appends S s₁ is s₂) (second : Appends S s₂ js s₃) :
    Appends S s₁ (is ++ js) s₃ where
  frame := first.frame.trans second.frame
  current := by
    rw [second.current, first.current, Option.map_map]
    simp [Function.comp_def]
  blocks := second.blocks.trans first.blocks
  labels := second.labels.trans first.labels
  code := first.code.append second.code

theorem Appends.before (h : Appends S s is s') : s.Before s' := ⟨h.code.le, h.frame.strings⟩

/-- A change that leaves the code alone. -/
theorem Appends.still (frame : Frame s s') (current : s'.current? = s.current?) (blocks : s'.blocks = s.blocks)
    (labels : s'.labels = s.labels) (temps : s'.temps = s.temps) : Appends S s [] s' where
  frame := frame
  current := by simp [current]
  blocks := blocks
  labels := labels
  code := temps ▸ .nil

theorem Standing.appends (h : Standing S s) (appends : Appends S s is s') : Standing S s' where
  opened := by rw [appends.current, Option.isSome_map, h.opened]
  le := h.le.trans appends.code.le
  addresses x v found := by
    have blind : ∀ v : Variable, v.bare.address = v.address := fun _ => rfl
    have same := map_eq_of_map_eq blind (appends.frame.storage x)
    rw [found] at same
    obtain ⟨v', found', address⟩ := Option.map_eq_some_iff.mp same.symm
    exact address ▸ h.addresses x v' found'

/-- A step that starts at `w` or later appends instructions, and its value satisfies `V` at the state it leads to. -/
def Yields (S : Spot) (w : State) (m : Lowering α) (V : State → α → Prop) : Prop :=
  ∀ s, Standing S s → w.Before s → ∃ is, Appends S s is (m s).2 ∧ V (m s).2 (m s).1

/-- A step of whose value nothing is said. -/
abbrev Performs (S : Spot) (w : State) (m : Lowering α) : Prop := Yields S w m fun _ _ => True

namespace Yields

variable {V : State → α → Prop} {W : State → β → Prop} {m : Lowering α} {f : α → Lowering β}

theorem pure (h : ∀ s, w.Before s → V s a) : Yields S w (Pure.pure a : Lowering α) V := fun s _ later =>
  ⟨[], .still (.refl s) rfl rfl rfl rfl, h s later⟩

theorem bind (first : Yields S w m V) (second : ∀ a w', w.Before w' → V w' a → Yields S w' (f a) W) :
    Yields S w (m >>= f) W := by
  intro s standing later
  obtain ⟨is, appends, value⟩ := first s standing later
  obtain ⟨js, appends', value'⟩ := second _ _ (later.trans appends.before) value _ (standing.appends appends) (.refl _)
  exact ⟨is ++ js, appends.trans appends', value'⟩

theorem ite {c : Prop} [Decidable c] (yes : c → Yields S w m V) (no : ¬ c → Yields S w m' V) :
    Yields S w (if c then m else m') V := by
  split
  · exact yes ‹_›
  · exact no ‹_›

theorem fault (tok : Token) {f : Fault} (semantic : f.category = .semantic) : Performs S w (Lower.fault tok f) :=
  fun s _ _ => ⟨[], .still (keeps_fault tok semantic s) rfl rfl rfl rfl, trivial⟩

/-- A fault, and a value that stands in for the missing one. -/
theorem fail (tok : Token) {f : Fault} (semantic : f.category = .semantic) {a : α} (h : ∀ s, w.Before s → V s a) :
    Yields S w (Lower.fault tok f >>= fun _ => Pure.pure a) V :=
  (fault tok semantic).bind fun _ _ next _ => .pure fun s later => h s (next.trans later)

theorem caution (tok : Token) (c : Caution) : Performs S w (Lower.caution tok c) :=
  fun s _ _ => ⟨[], .still (keeps_caution tok c s) rfl rfl rfl rfl, trivial⟩

/-- An open block takes one more instruction. -/
theorem emit_apply (opened : s.current?.isSome = true) : emit i s =
    ((), { s with current? := s.current?.map fun b => { b with instrs := b.instrs ++ [i] } }) := by
  obtain ⟨b, current⟩ := Option.isSome_iff_exists.mp opened
  rw [emit_apply_open current, current]
  rfl

theorem emit {i : Instr} (op : i.op.isTerminator = false) (result : i.result = .missing)
    (args : ∀ v ∈ i.args, Usable S w.temps v) : Performs S w (Lower.emit i) := by
  intro s standing later
  rw [emit_apply standing.opened]
  exact ⟨[i], ⟨.of_code s s.blocks _ s.temps s.labels s.remarks, rfl, rfl, rfl,
    .perform op result (fun v member => (args v member).mono later.temps) .nil⟩, trivial⟩

end Yields

/-! ## Values -/

/-- What an expression comes to: a constant, a temporary that its code defines, or a string of the table. -/
inductive Comes (S : Spot) (s : State) : Value × Ty → Prop
  | const : Comes S s (.const value, .word)
  | temp : S.base ≤ k → k < s.temps → Comes S s (Code.temp k, .word)
  | string : l ∈ s.strings → Comes S s (.global l.label, .address)

variable {v : Value} {r : Value × Ty}

theorem Comes.mono (h : Comes S w r) (later : w.Before s) : Comes S s r := by
  cases h with
  | const => exact .const
  | temp new below => exact .temp new (Nat.lt_of_lt_of_le below later.temps)
  | string member => exact .string (later.strings.subset member)

theorem Comes.usable (h : Comes S w r) : Usable S w.temps r.1 := by
  cases h with
  | const => exact .const
  | temp new below => exact .temp new below
  | string => exact .global

/-- A value that is a word. -/
abbrev Worded (S : Spot) (s : State) (v : Value) : Prop := Comes S s (v, .word)

/-- An address, if there is one, can be used. -/
abbrev Aimed (S : Spot) (s : State) (a? : Option Value) : Prop :=
  ∀ a, a? = some a → Usable S s.temps a

/-- Values, if there are any, can be used. -/
abbrev Gathered (S : Spot) (s : State) (vs? : Option (List (Value × Ty))) : Prop :=
  ∀ vs, vs? = some vs → ∀ v ∈ vs, Usable S s.temps v.1

/-- A new temporary, the instruction that defines it, and what follows. -/
theorem Yields.define {i : Ir.Temp → Instr} {f : Ir.Temp → Lowering β} {W : State → β → Prop}
    (op : ∀ t, (i t).op.isTerminator = false) (result : ∀ t, (i t).result = .temp t)
    (args : ∀ t, ∀ v ∈ (i t).args, Usable S w.temps v)
    (next : ∀ t w', w.Before w' → Comes S w' (.temp t, .word) → Yields S w' (f t) W) : Yields S w (do
      let t ← newTemp ""
      Lower.emit (i t)
      f t) W := by
  intro s standing later
  have defined : Appends S s [i { name := "", id := s.temps }] _ :=
    ⟨.of_code s s.blocks _ (s.temps + 1) s.labels s.remarks, rfl, rfl, rfl,
      .define (op _) (result _) (fun v member => (args _ v member).mono later.temps) .nil⟩
  rw [bind_apply, bind_apply, newTemp_apply, emit_apply (s := { s with temps := s.temps + 1 }) standing.opened]
  obtain ⟨is, appends, value⟩ := next _ _ (later.trans defined.before) (.temp standing.le (Nat.lt_succ_self _)) _
    (standing.appends defined) (.refl _)
  exact ⟨_, defined.trans appends, value⟩

theorem yields_load (usable : Usable S w.temps address) : Yields S w (load address) (Worded S) :=
  .define (fun _ => rfl) (fun _ => rfl) (fun _ => forall_mem_singleton.mpr usable)
    fun _ _ _ comes => .pure fun _ => comes.mono

theorem yields_compute (plain : op.isTerminator = false)
    (usable : Usable S w.temps left) (usable' : Usable S w.temps right) :
    Yields S w (compute op type left right) (Worded S) :=
  .define (fun _ => plain) (fun _ => rfl) (fun _ => forall_mem_cons.mpr ⟨usable, forall_mem_singleton.mpr usable'⟩)
    fun _ _ _ comes => .pure fun _ => comes.mono

theorem yields_internString (text : String) : Yields S w (internString text) fun s v => Comes S s (v, .address) := by
  intro s _ _
  have frame := keeps_internString text s
  obtain ⟨label, strings, run, member, -⟩ := internString_apply text s
  rw [run] at frame ⊢
  exact ⟨[], .still frame rfl rfl rfl rfl, .string (l := ⟨label, text⟩) member⟩

theorem yields_resolve (x : String) : Yields S w (resolve x) fun _ b => ∀ v, b = .storage v → S.addresses v.address := by
  intro s standing _
  have frame := keeps_resolve x s
  obtain ⟨locals, globals, marks⟩ := resolve_snd x s
  rw [marks] at frame ⊢
  refine ⟨[], .still frame rfl rfl rfl rfl, fun v same => standing.addresses x v ?_⟩
  rw [resolve_fst] at same
  cases hc : s.constants.get? x <;> cases hv : s.storage? x <;> rw [hc, hv] at same <;> cases same
  rfl

theorem performs_isCallable (x : String) : Performs S w (isCallable x) := fun s _ _ =>
  ⟨[], .still (.refl s) rfl rfl rfl rfl, trivial⟩

theorem performs_callee (tok : Token) (f : String) (count : Nat) (wantValue : Bool) :
    Performs S w (callee tok f count wantValue) := by
  intro s standing later
  cases entry : s.routines.get? f with
  | none =>
    rw [callee_absent entry]
    exact Yields.fail (V := fun _ _ => True) tok rfl (fun _ _ => trivial) s standing later
  | some r =>
    have marked : Appends S s [] _ := .still (frame_mark entry tok) rfl rfl rfl rfl
    have checked : Performs S w (checkCall tok f count wantValue (r.mark tok)) :=
      .ite (fun _ => .fail tok rfl fun _ _ => trivial) fun _ =>
        .ite (fun _ => .fail tok rfl fun _ _ => trivial) fun _ => .pure fun _ _ => trivial
    obtain ⟨is, appends, -⟩ := checked _ (standing.appends marked) (later.trans marked.before)
    rw [callee_found entry]
    exact ⟨is, marked.trans appends, trivial⟩

/-! ## Expressions -/

theorem yields_asWord (tok : Token) (h : Comes S w r) : Yields S w (asWord tok r) (Worded S) := by
  cases h with
  | const => exact .pure fun _ _ => .const
  | temp new below => exact .pure fun _ later => Comes.mono (.temp new below) later
  | string => exact .fail tok rfl fun _ _ => .const

/-- The address of an element, once there is a way to compute its index. -/
theorem yields_wordElement
    (hindex : ∀ w, Yields S w index (Worded S)) : Yields S w (wordElement tok array indexTok index) (Aimed S) := by
  have element : Yields S w (elementAddress tok array indexTok index) fun s r => Aimed S s (r.map Prod.fst) := by
    refine (yields_resolve array).bind fun binding w₁ _ known => ?_
    cases binding with
    | constant | unbound => exact .fail tok rfl fun _ _ => nofun
    | storage v =>
      dsimp only
      split
      · next lower upper elem _ =>
        refine (hindex w₁).bind fun i w₂ _ word => ?_
        have address : ∀ {w₃ : State}, w₂.Before w₃ → Yields S w₃ (do
            let distance ← compute .sub .word i (.const lower)
            let wide ← newTemp ""
            emit { op := .extsw, type := .long, operandType := .word, result := .temp wide, args := [distance] }
            let offset ← compute .mul .long (.temp wide) (.const elem.size)
            let address ← compute .add .address v.address offset
            return some (address, elem)) fun s r => Aimed S s (r.map Prod.fst) := by
          intro w₃ later₃
          refine (yields_compute rfl (word.mono later₃).usable .const).bind fun distance w₄ _ word₄ => ?_
          refine .define (fun _ => rfl) (fun _ => rfl) (fun _ => forall_mem_singleton.mpr word₄.usable)
            fun wide w₅ _ word₅ => ?_
          refine (yields_compute rfl word₅.usable .const).bind fun offset w₆ _ word₆ => ?_
          refine (yields_compute rfl (.address (known v rfl)) word₆.usable).bind fun address w₇ _ word₇ => ?_
          refine .pure fun s later => ?_
          rintro _ ⟨⟩
          exact (word₇.mono later).usable
        split
        · exact .ite (fun _ => (Yields.caution _ _).bind fun _ _ later _ => address later) fun _ => address (.refl w₂)
        · exact address (.refl w₂)
      · exact .fail tok rfl fun _ _ => nofun
  refine element.bind fun r w₁ _ aimed => ?_
  cases r with
  | none => exact .pure fun _ _ => nofun
  | some a =>
    refine .ite (fun _ => .fail tok rfl fun _ _ => nofun) fun _ => .pure fun s later => ?_
    rintro _ ⟨⟩
    exact (aimed _ rfl).mono later.temps

theorem yields_arrayAddress (t : Tree) (want : VarType) (use : ArrayUse) :
    Yields S w (arrayAddress t want use) (Aimed S) := by
  unfold arrayAddress
  split
  · next tok x =>
    refine (yields_resolve x).bind fun binding w₁ _ known => ?_
    cases binding with
    | storage v =>
      refine .ite (fun _ => .fail tok rfl fun _ _ => nofun) fun _ =>
        .ite (fun _ => .fail tok rfl fun _ _ => nofun) fun _ => .pure fun _ _ => ?_
      rintro _ ⟨⟩
      exact .address (known v rfl)
    | _ => exact .fail tok rfl fun _ _ => nofun
  · exact .fail _ rfl fun _ _ => nofun

/-- A routine is called once its arguments are there. -/
theorem yields_callRoutine (tok : Token) (f : String) (count : Nat) (wantValue : Bool)
    {arguments : Routine → Lowering (Option (List (Value × Ty)))} (harguments : ∀ r w, Yields S w (arguments r) (Gathered S)) :
    Yields S w (callRoutine tok f count wantValue arguments) (Worded S) := by
  refine (performs_callee tok f count wantValue).bind fun r? w₁ _ _ => ?_
  cases r? with
  | none => exact .pure fun _ _ => .const
  | some r =>
    refine (harguments r w₁).bind fun args? w₂ _ gathered => ?_
    cases args? with
    | none => exact .pure fun _ _ => .const
    | some args =>
      have usable : ∀ v ∈ Value.global r.symbol :: args.map Prod.fst, Usable S w₂.temps v :=
        forall_mem_cons.mpr ⟨.global, forall_mem_map.mpr (gathered args rfl)⟩
      refine .ite (fun _ => (Yields.emit rfl rfl usable).bind fun _ _ _ _ => .pure fun _ _ => .const) fun _ => ?_
      exact .define (fun _ => rfl) (fun _ => rfl) (fun _ => usable) fun _ _ _ comes => .pure fun _ => comes.mono

theorem yields_callFunction (tok : Token) (f : String) (count : Nat)
    {arguments : Routine → Lowering (Option (List (Value × Ty)))} (harguments : ∀ r w, Yields S w (arguments r) (Gathered S)) :
    Yields S w (callFunction tok f count arguments) (Worded S) := by
  unfold callFunction
  split
  · exact .fail tok rfl fun _ _ => .const
  · exact yields_callRoutine tok f count true harguments

theorem yields_lowerName : Yields S w (lowerName tok x) (Worded S) := by
  refine (yields_resolve x).bind fun binding w₁ _ known => ?_
  cases binding with
  | constant => exact .pure fun _ _ => .const
  | storage v =>
    exact .ite (fun _ => .fail tok rfl fun _ _ => .const) fun _ => yields_load (.address (known v rfl))
  | unbound =>
    refine (performs_isCallable x).bind fun _ w₂ _ _ => .ite (fun _ => ?_) fun _ => .fail tok rfl fun _ _ => .const
    refine yields_callFunction tok x 0 fun _ _ => .pure fun _ _ => ?_
    rintro _ ⟨⟩
    exact forall_mem_nil _

theorem yields_lowerWord (h : Yields S w (lowerExpr t) (Comes S)) :
    Yields S w (lowerWord t) (Worded S) := h.bind fun _ _ _ => yields_asWord t.tok

theorem yields_lowerArguments {args : List Tree} (hargs : ∀ arg ∈ args, ∀ w, Yields S w (lowerExpr arg) (Comes S))
    (callee : String) (index : Nat) (params : List VarType) (w : State) :
    Yields S w (lowerArguments callee index params args) (Gathered S) := by
  induction args generalizing params index w with
  | nil =>
    rw [show lowerArguments callee index params [] = pure (some []) by cases params <;> rfl]
    refine .pure fun _ _ => ?_
    rintro _ ⟨⟩
    exact forall_mem_nil _
  | cons arg args ih =>
    obtain ⟨first, later⟩ := forall_mem_cons.mp hargs
    cases params with
    | nil =>
      refine .pure fun _ _ => ?_
      rintro _ ⟨⟩
      exact forall_mem_nil _
    | cons param params =>
      -- an argument in front of the others
      have joined {w₁ : State} {v : Value} {type : Ty} (usable : Usable S w₁.temps v) : Yields S w₁ (do
          let rest ← lowerArguments callee (index + 1) params args
          return rest.map ((v, type) :: ·)) (Gathered S) := by
        refine (ih later (index + 1) params w₁).bind fun rest w₂ next gathered => .pure fun s after => ?_
        intro vs same
        obtain ⟨rest, rfl, rfl⟩ := Option.map_eq_some_iff.mp same
        exact forall_mem_cons.mpr ⟨usable.mono (next.trans after).temps,
          fun v member => (gathered rest rfl v member).mono after.temps⟩
      refine .ite (fun _ => ?_) fun _ => ?_
      · refine (yields_arrayAddress arg param _).bind fun a? w₁ _ aimed => ?_
        cases a? with
        | none => exact .pure fun _ _ => nofun
        | some a => exact joined (aimed a rfl)
      · exact (first w).bind fun _ w₁ _ comes => (yields_asWord arg.tok comes).bind fun _ w₂ _ word =>
          joined word.usable

/-- An expression is lowered to straight-line code. -/
theorem yields_lowerExpr {t : Tree} (h : IsExpr t) (w : State) : Yields S w (lowerExpr t) (Comes S) := by
  induction h generalizing w with
  | number =>
    exact .pure fun _ _ => .const
  | text =>
    exact (yields_internString _).bind fun _ _ _ comes => .pure fun _ => comes.mono
  | name =>
    exact yields_lowerName.bind fun _ _ _ comes => .pure fun _ => comes.mono
  | element _ _ ih =>
    unfold lowerExpr
    refine (yields_wordElement fun w => yields_lowerWord (ih w)).bind fun a? w₁ _ aimed => ?_
    cases a? with
    | none => exact .pure fun _ _ => .const
    | some a => exact (yields_load (aimed a rfl)).bind fun _ _ _ comes => .pure fun _ => comes.mono
  | @binary left right _ op precedence _ _ ihLeft ihRight =>
    obtain ⟨operation, found⟩ := Option.isSome_iff_exists.mp ((operation?_isSome op).mpr precedence)
    have plain : operation.isTerminator = false := by
      cases op <;> cases found <;> rfl
    unfold lowerExpr
    rw [found]
    refine (ihLeft w).bind fun _ w₁ _ comes => (yields_asWord left.tok comes).bind fun x w₂ _ word => ?_
    refine (ihRight w₂).bind fun _ w₃ next₃ comes' => (yields_asWord right.tok comes').bind fun y w₄ next₄ word' => ?_
    exact (yields_compute plain (word.mono (next₃.trans next₄)).usable word'.usable).bind
      fun _ _ _ comes => .pure fun _ => comes.mono
  | call _ _ ih =>
    exact (yields_callFunction _ _ _ fun _ => yields_lowerArguments ih _ _ _).bind
      fun _ _ _ comes => .pure fun _ => comes.mono

theorem yields_lowerTarget (h : IsExpr t) : Yields S w (lowerTarget t) (Aimed S) := by
  cases h with
  | name =>
    refine (yields_resolve _).bind fun binding w₁ _ known => ?_
    cases binding with
    | storage v =>
      refine .ite (fun _ => .fail _ rfl fun _ _ => nofun) fun _ => .pure fun _ _ => ?_
      rintro _ ⟨⟩
      exact .address (known v rfl)
    | _ => exact .fail _ rfl fun _ _ => nofun
  | element _ index => exact yields_wordElement fun w => yields_lowerWord (yields_lowerExpr index w)
  | _ => exact .fail _ rfl fun _ _ => nofun

/-! ## Calls and assignments -/

theorem performs_print {format : String} {value : Option (Value × Ty)} (usable : ∀ v ∈ value, Usable S w.temps v.1) :
    Performs S w (print format value) := by
  refine (yields_internString format).bind fun label w₁ next comes => .emit rfl rfl ?_
  refine forall_mem_cons.mpr ⟨.global, forall_mem_cons.mpr ⟨comes.usable, ?_⟩⟩
  exact forall_mem_map.mpr fun v member => (usable v (Option.mem_toList.mp member)).mono next.temps

variable {args : List Tree} {target value : Tree}

theorem performs_lowerWrites (hargs : ∀ arg ∈ args, IsExpr arg) (w : State) : Performs S w (lowerWrites args) := by
  induction args generalizing w with
  | nil => exact .pure fun _ _ => trivial
  | cons arg args ih =>
    obtain ⟨first, later⟩ := forall_mem_cons.mp hargs
    refine (yields_lowerExpr first w).bind fun r w₁ _ comes => ?_
    have usable (type : Ty) : ∀ v ∈ some (r.1, type), Usable S w₁.temps v.1 := by
      rintro _ ⟨⟩
      exact comes.usable
    exact .ite (fun _ => (performs_print (usable _)).bind fun _ w₂ _ _ => ih later w₂)
      fun _ => (performs_print (usable _)).bind fun _ w₂ _ _ => ih later w₂

theorem performs_lowerReads (hargs : ∀ arg ∈ args, IsExpr arg) (w : State) : Performs S w (lowerReads args) := by
  induction args generalizing w with
  | nil => exact .pure fun _ _ => trivial
  | cons arg args ih =>
    obtain ⟨first, later⟩ := forall_mem_cons.mp hargs
    refine (yields_lowerTarget first).bind fun a? w₁ _ aimed => ?_
    cases a? with
    | none => exact ih later w₁
    | some a =>
      refine (yields_internString "%d").bind fun label w₂ next comes => ?_
      refine (Yields.emit rfl rfl ?_).bind fun _ w₃ _ _ => ih later w₃
      exact forall_mem_cons.mpr ⟨.global, forall_mem_cons.mpr ⟨comes.usable,
        forall_mem_singleton.mpr ((aimed a rfl).mono next.temps)⟩⟩

theorem performs_store {v : Value} (aimed : Usable S w.temps address) (usable : Usable S w.temps v) :
    Performs S w (store address v) :=
  .emit rfl rfl (forall_mem_cons.mpr ⟨usable, forall_mem_singleton.mpr aimed⟩)

theorem performs_step {op : Ir.Op} (plain : op.isTerminator = false) (htarget : IsExpr target)
    (usable : Usable S w.temps v) : Performs S w (step op target v) := by
  refine (yields_lowerTarget htarget).bind fun a? w₁ next₁ aimed => ?_
  cases a? with
  | none => exact .pure fun _ _ => trivial
  | some a =>
    refine (yields_load (aimed a rfl)).bind fun old w₂ next₂ word => ?_
    refine (yields_compute plain word.usable (usable.mono (next₁.trans next₂).temps)).bind
      fun new w₃ next₃ word' => ?_
    exact performs_store ((aimed a rfl).mono (next₂.trans next₃).temps) word'.usable

theorem performs_lowerStep (tok : Token) (plain : op.isTerminator = false)
    (hargs : ∀ arg ∈ args, IsExpr arg) : Performs S w (lowerStep tok name op args) := by
  unfold lowerStep
  split
  · exact performs_step plain (hargs _ (by simp)) .const
  · exact (yields_lowerWord (yields_lowerExpr (hargs _ (by simp)) w)).bind fun v w₁ _ word =>
      performs_step plain (hargs _ (by simp)) word.usable
  · exact .fault tok rfl

theorem performs_lowerCall (multi : Bool) (tok : Token) (f : String) (hargs : ∀ arg ∈ args, IsExpr arg) :
    Performs S w (lowerCall multi tok f args) := by
  have arity (name : String) {m : Lowering Unit} (h : ∀ w, Performs S w m) :
      Performs S w (do if ← checkArity multi tok name args.length then m) := by
    have checks : Performs S w (checkArity multi tok name args.length) :=
      .ite (fun _ => .fail tok rfl fun _ _ => trivial) fun _ => .pure fun _ _ => trivial
    exact checks.bind fun _ w₁ _ _ => .ite (fun _ => h w₁) fun _ => .pure fun _ _ => trivial
  unfold lowerCall
  split
  · next b _ =>
    cases b with
    | write => exact arity _ (performs_lowerWrites hargs)
    | writeln => exact arity _ fun w => (performs_lowerWrites hargs w).bind fun _ _ _ _ => performs_print nofun
    | readln => exact arity _ (performs_lowerReads hargs)
    | dec | inc => exact performs_lowerStep tok rfl hargs
  · refine (yields_callRoutine tok f _ false fun r => ?_).bind fun _ _ _ _ => .pure fun _ _ => trivial
    exact yields_lowerArguments (fun arg member => yields_lowerExpr (hargs arg member)) f 1 r.params

theorem performs_lowerAssign (htarget : IsReference target) (hvalue : IsExpr value) :
    Performs S w (lowerAssign target value) := by
  have words (w : State) : Performs S w (assignWord target value) := by
    refine (yields_lowerWord (yields_lowerExpr hvalue w)).bind fun v w₁ _ word => ?_
    refine (yields_lowerTarget htarget.isExpr).bind fun a? w₂ next aimed => ?_
    cases a? with
    | none => exact .pure fun _ _ => trivial
    | some a => exact performs_store (aimed a rfl) (word.mono next).usable
  cases htarget with
  | name =>
    refine (yields_resolve _).bind fun binding w₁ _ known => ?_
    cases binding with
    | storage v =>
      refine .ite (fun _ => ?_) fun _ => words w₁
      refine (yields_arrayAddress value v.type .source).bind fun source? w₂ _ aimed => ?_
      cases source? with
      | none => exact .pure fun _ _ => trivial
      | some source =>
        exact .emit rfl rfl (forall_mem_cons.mpr ⟨aimed source rfl, forall_mem_cons.mpr
          ⟨.address (known v rfl), forall_mem_singleton.mpr .const⟩⟩)
    | _ => exact words w₁
  | element => exact words w

end Steps

/-- The spot that a state is: the variables that can be named, and no temporary that is in use. -/
def State.spot (s : State) : Spot where
  addresses a := ∃ x v, s.storage? x = some v ∧ v.address = a
  base := s.temps

/-- Lowering an expression, an assignment or a call at a state with an open block, whatever faults there are, appends to
that block code that defines the new temporaries in order, each before its use.  The value of an expression is a
constant or the result of an instruction that was appended if it is a word, and a string of the table otherwise. -/
theorem lowering_appends (s : State) (opened : s.current?.isSome = true) :
    (∀ t, IsExpr t → ∃ is, Appends s.spot s is (lowerExpr t s).2 ∧ ((lowerExpr t s).1.2 = .word ∧
          ((∃ value, (lowerExpr t s).1.1 = .const value) ∨ ∃ i ∈ is, i.result = (lowerExpr t s).1.1) ∨
        (lowerExpr t s).1.2 = .address ∧ ∃ l ∈ (lowerExpr t s).2.strings, (lowerExpr t s).1.1 = .global l.label)) ∧
    (∀ target value, IsReference target → IsExpr value → ∃ is, Appends s.spot s is (lowerAssign target value s).2) ∧
    ∀ multi tok f args, (∀ arg ∈ args, IsExpr arg) → ∃ is, Appends s.spot s is (lowerCall multi tok f args s).2 := by
  have standing : Standing s.spot s := ⟨opened, Nat.le_refl _, fun x v found => ⟨x, v, found, rfl⟩⟩
  refine ⟨fun t expr => ?_, fun target value ref expr => ?_, fun multi tok f args exprs => ?_⟩
  · obtain ⟨is, appends, comes⟩ := yields_lowerExpr expr s s standing (.refl s)
    refine ⟨is, appends, ?_⟩
    generalize lowerExpr t s = r at appends comes ⊢
    obtain ⟨r, s'⟩ := r
    cases comes with
    | const => exact .inl ⟨rfl, .inl ⟨_, rfl⟩⟩
    | temp new below => exact .inl ⟨rfl, .inr (appends.code.defines new below)⟩
    | string member => exact .inr ⟨rfl, _, member, rfl⟩
  · obtain ⟨is, appends, -⟩ := performs_lowerAssign ref expr s standing (.refl s)
    exact ⟨is, appends⟩
  · obtain ⟨is, appends, -⟩ := performs_lowerCall multi tok f exprs s standing (.refl s)
    exact ⟨is, appends⟩

/-- Where `x` is a variable, its sum with a constant is the second new temporary. -/
theorem lowering_appends_sum :
    let x : Variable := { role := .global, type := .integer, address := .global "pasg_x", tok := .nowhere }
    let s : State := { globals := ({} : Table Variable).insert "x" x, current? := some ⟨"start", []⟩ }
    let sum := Tree.binary .nowhere .plus (.name .nowhere "x") (.number .nowhere 1)
    (lowerExpr sum s).1 = (Code.temp 1, .word) ∧ ∃ is, Appends s.spot s is (lowerExpr sum s).2 := by
  intro x s sum
  have expr : IsExpr sum := .binary (by decide) (.name ⟨by decide, List.all_eq_true.mp (by decide)⟩) (.number ⟨by decide, by decide⟩)
  obtain ⟨is, appends, -⟩ := (lowering_appends s rfl).1 sum expr
  exact ⟨by decide, is, appends⟩

end MiniPascal.Lower
