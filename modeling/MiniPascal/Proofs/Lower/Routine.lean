import MiniPascal.Proofs.Lower.Emission

/-!
# Lowering the body of a routine

A routine's body is lowered inside a table of locals of its own, which is filled on the way in. The way
in complains exactly if two of the routine's variables have one name (`Enters`), and the rest complains
exactly if the body breaks a static rule. Around all of it the state is as it was found (`Outer`), but
for the function that is added and for what only grows.
-/

open List

namespace MiniPascal.Lower

open Ir (Value Instr Ty Line plain plain_append listing listing_append blockLines)
open Static
open Tree (IsExpr IsStmt IsVarDecl)

/-! ## Steps that only add -/

variable {s s' : State} {slots : Vars} {x : String} {is : List Instr}

theorem Grows.of_same (routines : s'.routines = s.routines) (strings : s'.strings = s.strings)
    (faults : s'.faults = s.faults) (enabled : s'.enabled = s.enabled) : Grows s s' where
  called f h := by
    unfold State.Called at h ⊢
    rwa [routines]
  strings := strings ▸ prefix_rfl
  interned h := by rwa [strings]
  faults := ⟨[], by rw [faults, append_nil], by simp⟩
  enabled := enabled

/-! ## The way in -/

/-- The names of variables. -/
abbrev names (vs : Vars) : List String := vs.map Prod.fst

/-- The table of locals holds the slots of variables. -/
def Slots (slots : Vars) (s : State) : Prop :=
  ∀ x, (s.locals.get? x).map (fun v => (v.type, v.address)) =
    (slots.lookup x).map fun type => (type, Code.slot x ((names slots).idxOf x))

/-- A new variable gets the next slot. -/
theorem Slots.snoc (h : Slots slots s) (new : x ∉ names slots)
    (address : v.address = Code.slot x slots.length) (locals : s'.locals = s.locals.insert x v) :
    Slots (slots ++ [(x, v.type)]) s' := by
  intro y
  rw [locals, Table.get?_insert, lookup_snoc new]
  by_cases same : y = x
  · subst same
    have index : (names (slots ++ [(y, v.type)])).idxOf y = slots.length := by
      rw [names, map_append, idxOf_append_of_notMem new]
      simp
    rw [if_pos rfl, if_pos rfl, index]
    simp [address]
  · rw [if_neg same, if_neg same, h y]
    cases found : slots.lookup y with
    | none => rfl
    | some type =>
      have member : y ∈ names slots := by
        by_contra absent
        rw [lookup_eq_none_iff.mpr absent] at found
        cases found
      have index : (names (slots ++ [(x, v.type)])).idxOf y = (names slots).idxOf y := by
        rw [names, map_append, idxOf_append_of_mem member]
      rw [index]

/-- What the way in leaves alone. -/
structure Shell (s s' : State) : Prop where
  constants : s'.constants = s.constants
  globals : s'.globals = s.globals
  routines : s'.routines = s.routines
  scopes : s'.scopes = s.scopes
  loopExits : s'.loopExits = s.loopExits
  returnTargets : s'.returnTargets = s.returnTargets
  data : s'.data = s.data
  strings : s'.strings = s.strings
  funcs : s'.funcs = s.funcs
  labels : s'.labels = s.labels
  enabled : s'.enabled = s.enabled

theorem Shell.trans (first : Shell s₁ s₂) (second : Shell s₂ s₃) : Shell s₁ s₃ where
  constants := second.constants.trans first.constants
  globals := second.globals.trans first.globals
  routines := second.routines.trans first.routines
  scopes := second.scopes.trans first.scopes
  loopExits := second.loopExits.trans first.loopExits
  returnTargets := second.returnTargets.trans first.returnTargets
  data := second.data.trans first.data
  strings := second.strings.trans first.strings
  funcs := second.funcs.trans first.funcs
  labels := second.labels.trans first.labels
  enabled := second.enabled.trans first.enabled

/-- New variables come in behind others, with code `is`; this is a fault exactly if a name occurs
twice. -/
structure Enters (slots new : Vars) (is : List Instr) (s s' : State) : Prop where
  shell : Shell s s'
  grows : Grows s s'
  listing : s'.listing = s.listing ++ plain is
  temps : s'.temps = (slots ++ new).length
  opened : s'.current?.isSome = true
  table : Slots slots s → s'.faults = s.faults → Slots (slots ++ new) s'
  quiet : Slots slots s → (names slots).Nodup → (s'.faults = s.faults ↔ (names (slots ++ new)).Nodup)

theorem Enters.trans
    (first : Enters slots new is s₁ s₂) (second : Enters (slots ++ new) new' js s₂ s₃) :
    Enters slots (new ++ new') (is ++ js) s₁ s₃ where
  shell := first.shell.trans second.shell
  grows := first.grows.trans second.grows
  listing := by rw [second.listing, first.listing, plain_append, append_assoc]
  temps := by rw [second.temps, append_assoc]
  opened := second.opened
  table before same := by
    obtain ⟨same₁, same₂⟩ := first.grows.faults_eq second.grows same
    rw [← append_assoc]
    exact second.table (first.table before same₁) same₂
  quiet before distinct := by
    rw [← append_assoc]
    constructor
    · intro same
      obtain ⟨same₁, same₂⟩ := first.grows.faults_eq second.grows same
      have distinct₁ := (first.quiet before distinct).mp same₁
      exact (second.quiet (first.table before same₁) distinct₁).mp same₂
    · intro distinct₂
      have distinct₁ : (names (slots ++ new)).Nodup := by
        rw [names, map_append] at distinct₂
        exact (nodup_append.mp distinct₂).1
      have same₁ := (first.quiet before distinct).mpr distinct₁
      exact ((second.quiet (first.table before same₁) distinct₁).mpr distinct₂).trans same₁

theorem names_snoc_nodup (distinct : (names slots).Nodup) (x : String) (type : VarType) :
    (names (slots ++ [(x, type)])).Nodup ↔ x ∉ names slots := by
  rw [names, map_append, nodup_append]
  simp only [map_cons, map_nil, nodup_cons, mem_singleton]
  constructor
  · rintro ⟨-, -, apart⟩ member
    exact apart x member x rfl rfl
  · intro new
    refine ⟨distinct, by simp, ?_⟩
    rintro y member _ rfl rfl
    exact new member

theorem declareLocal_old (found : s.locals.get? x = some old) (tok : Token) (role : Role)
    (type : VarType) (address : Value) : declareLocal tok x role type address s =
      ((), { s with faults := s.faults ++ [(Fault.duplicateLocal x old.tok.line).diagnostic tok] }) := by
  unfold declareLocal
  rw [bind_apply, get_apply, found]
  rfl

/-- Code was added to the open block, and a temporary taken. -/
structure Slotted (is : List Instr) (s s' : State) : Prop where
  shell : Shell s s'
  locals : s'.locals = s.locals
  faults : s'.faults = s.faults
  listing : s'.listing = s.listing ++ plain is
  temps : s'.temps = s.temps + 1
  opened : s'.current?.isSome = true

theorem declareLocal_new (found : s.locals.get? x = none) (tok : Token) (role : Role) (type : VarType)
    (address : Value) : ∃ remarks, declareLocal tok x role type address s =
      ((), { s with locals := s.locals.insert x { role, type, address, tok }, remarks }) := by
  unfold declareLocal
  rw [bind_apply, get_apply, found]
  split
  · exact ⟨_, rfl⟩
  · split
    · exact ⟨_, rfl⟩
    · exact ⟨_, rfl⟩

/-- Declaring one variable, once the code for its slot is there. -/
theorem Slotted.enters (slotted : Slotted is s s') (temps : s.temps = slots.length) (tok : Token) (x : String)
    (role : Role) (type : VarType) : Enters slots [(x, type)] is s
      (declareLocal tok x role type (Code.slot x slots.length) s').2 := by
  have shell := slotted.shell
  have grows : Grows s s' := .of_same shell.routines shell.strings slotted.faults shell.enabled
  have length : s'.temps = (slots ++ [(x, type)]).length := by
    rw [slotted.temps, temps, length_append]
    rfl
  have fresh (before : Slots slots s) : s'.locals.get? x = none ↔ x ∉ names slots := by
    rw [slotted.locals, ← lookup_eq_none_iff, ← Option.map_eq_none_iff, before x, Option.map_eq_none_iff]
  cases found : s'.locals.get? x with
  | some old =>
    rw [declareLocal_old found]
    exact
      { shell := { shell with }
        grows := grows.trans (keeps_fault tok rfl s').toGrows
        listing := slotted.listing
        temps := length
        opened := slotted.opened
        table := fun _ same => by simp [slotted.faults] at same
        quiet := fun before distinct => by
          rw [names_snoc_nodup distinct, ← fresh before, found]
          simp [slotted.faults] }
  | none =>
    obtain ⟨remarks, run⟩ := declareLocal_new found tok role type (Code.slot x slots.length)
    rw [run]
    exact
      { shell := { shell with }
        grows := grows.trans (.of_same rfl rfl rfl rfl)
        listing := slotted.listing
        temps := length
        opened := slotted.opened
        table := fun before _ =>
          before.snoc (v := { role, type, address := Code.slot x slots.length, tok })
            ((fresh before).mp found) rfl (by rw [slotted.locals])
        quiet := fun before distinct =>
          ⟨fun _ => (names_snoc_nodup distinct x type).mpr ((fresh before).mp found), fun _ => slotted.faults⟩ }

theorem listing_emit (current : s.current? = some b) (i : Instr) :
    (emit i s).2.listing = s.listing ++ plain [i] := by
  rw [emit_apply_open current]
  simp only [State.listing, current, Option.toList_some, listing_append, append_assoc]
  simp [listing, blockLines]

theorem Slotted.emit (h : Slotted is s s') (i : Instr) : Slotted (is ++ [i]) s (Lower.emit i s').2 := by
  obtain ⟨b, current⟩ := Option.isSome_iff_exists.mp h.opened
  have lines := listing_emit current i
  rw [emit_apply_open current] at lines ⊢
  exact
    { shell := { h.shell with }
      locals := h.locals
      faults := h.faults
      listing := by rw [lines, h.listing, plain_append, append_assoc]
      temps := h.temps
      opened := rfl }

theorem slotted_allocate (opened : s.current?.isSome = true) (x : String) (type : VarType) :
    (allocate x type s).1 = Code.slot x s.temps ∧ Slotted [Code.alloc x s.temps type] s (allocate x type s).2 := by
  obtain ⟨b, current⟩ := Option.isSome_iff_exists.mp opened
  have lines := listing_emit (s := { s with temps := s.temps + 1 }) current (Code.alloc x s.temps type)
  have run : allocate x type s = (Code.slot x s.temps,
      (Lower.emit (Code.alloc x s.temps type) { s with temps := s.temps + 1 }).2) := rfl
  rw [run]
  rw [emit_apply_open (s := { s with temps := s.temps + 1 }) current] at lines ⊢
  exact ⟨rfl, ⟨rfl, rfl, rfl, rfl, rfl, rfl, rfl, rfl, rfl, rfl, rfl⟩, rfl, rfl, lines, rfl, rfl⟩

/-- A step brings in new variables, whatever stands before them. -/
def Brings (m : Lowering Unit) (new : Vars) (code : Nat → List Instr) : Prop :=
  ∀ slots s, s.temps = slots.length → s.current?.isSome = true → Enters slots new (code slots.length) s (m s).2

theorem brings_enterParameter (ht : IsVarDecl t) : ∃ v, declared? t = some v ∧
    Brings (enterParameter t) [v] fun i => Code.enterParam i v := by
  cases ht with
  | @mk x tok type =>
    refine ⟨(x, type), rfl, fun slots s temps opened => ?_⟩
    obtain ⟨slot, slotted⟩ := slotted_allocate opened x type
    rw [temps] at slot slotted
    unfold enterParameter Code.enterParam
    dsimp only
    rw [bind_apply, slot]
    cases type.isArray with
    | true | false => exact (slotted.emit _).enters temps tok x .parameter type

theorem brings_enterLocal (ht : IsVarDecl t) : ∃ v, declared? t = some v ∧
    Brings (enterLocal t) [v] fun i => Code.enterLocal i v := by
  cases ht with
  | @mk x tok type =>
    refine ⟨(x, type), rfl, fun slots s temps opened => ?_⟩
    obtain ⟨slot, slotted⟩ := slotted_allocate opened x type
    rw [temps] at slot slotted
    unfold enterLocal
    dsimp only
    rw [bind_apply, slot]
    exact slotted.enters temps tok x .localVar type

theorem brings_forEach {f : Tree → Lowering Unit} {code : Nat → String × VarType → List Instr}
    {ts : List Tree} (hf : ∀ t ∈ ts, ∃ v, declared? t = some v ∧ Brings (f t) [v] fun i => code i v) :
    Brings (forEach f ts) (ts.filterMap declared?) fun i => Code.each code i (ts.filterMap declared?) := by
  induction ts with
  | nil =>
    intro slots s temps opened
    exact
      { shell := ⟨rfl, rfl, rfl, rfl, rfl, rfl, rfl, rfl, rfl, rfl, rfl⟩
        grows := .refl s
        listing := (append_nil _).symm
        temps := by rw [filterMap_nil, append_nil]; exact temps
        opened := opened
        table := fun before _ => by rw [filterMap_nil, append_nil]; exact before
        quiet := fun _ distinct => by
          rw [filterMap_nil, append_nil]
          exact ⟨fun _ => distinct, fun _ => rfl⟩ }
  | cons t ts ih =>
    obtain ⟨⟨v, declared, brings⟩, later⟩ := forall_mem_cons.mp hf
    intro slots s temps opened
    have first := brings slots s temps opened
    have rest := ih later (slots ++ [v]) _ first.temps first.opened
    have both := first.trans rest
    rw [filterMap_cons_some declared]
    rw [length_append] at both
    exact both

/-- The slot of a function's result comes in last. -/
theorem enters_result (temps : s.temps = slots.length) (opened : s.current?.isSome = true) (tok : Token)
    (name : String) (m : Lowering Value) (run : m = do
      let slot ← allocate name .integer
      store slot zero
      declareLocal tok name .result .integer slot
      return slot) :
    Enters slots [(name, .integer)] (Code.enterOwn slots.length (name, .integer)) s (m s).2 ∧
      (m s).1 = Code.slot name slots.length := by
  subst run
  obtain ⟨slot, slotted⟩ := slotted_allocate opened name .integer
  rw [temps] at slot slotted
  rw [bind_apply, slot]
  exact ⟨(slotted.emit _).enters temps tok name .result .integer, rfl⟩

/-- The way into a routine. -/
theorem enters_enterRoutine (tok : Token) {params locals : List Tree}
 (hparams : ∀ p ∈ params, IsVarDecl p) (hlocals : ∀ l ∈ locals, IsVarDecl l)
 (header : h = ⟨name, params.filterMap declared?, result, locals.filterMap declared?, body?⟩)
    (temps : s.temps = 0) (opened : s.current?.isSome = true) :
    Enters [] h.slots (Code.enter h) s (enterRoutine tok name params locals result s).2 ∧
      (enterRoutine tok name params locals result s).1 =
        if result = .void then .missing else Code.slot name (Code.ownIndex h) := by
  subst header
  have first := brings_forEach (fun p hp => brings_enterParameter (hparams p hp)) [] s temps opened
  have second := brings_forEach (fun l hl => brings_enterLocal (hlocals l hl)) _ _ first.temps first.opened
  have both := first.trans second
  unfold enterRoutine Code.enter Header.slots Header.own
  rw [bind_apply, bind_apply]
  by_cases void : result = .void
  · simp only [if_pos void, append_nil]
    exact ⟨by simpa [Code.each] using both, rfl⟩
  · simp only [if_neg void]
    obtain ⟨third, slot⟩ := enters_result both.temps both.opened tok name _ rfl
    rw [nil_append, length_append] at slot
    refine ⟨?_, slot⟩
    have all := both.trans third
    rw [nil_append, length_append] at all
    simpa [Code.each, Code.ownIndex] using all

/-! ## Functions -/

/-- The part of a function behind its slots. -/
def bodyAndReturn (multi : Bool) (body : Tree) (ret : String) (leave : Lowering Instr) : Lowering Unit := do
  if !(← lowerStmt multi body) then jump ret
  startBlock ret
  emit (← leave)
  closeBlock

/-- The state in which the slots of a function are made. -/
def State.opened (s : State) : State :=
  { s with temps := 0, blocks := [], current? := some ⟨"start", []⟩, labels := s.labels + 1
           returnTargets := retLabel s.labels :: s.returnTargets }

theorem lowerFrame_apply {α : Type} (multi : Bool) (enter : Lowering α) (body : Tree)
    (leave : α → Lowering Instr) (s : State) :
    lowerFrame multi enter body leave s = (do
      bodyAndReturn multi body (retLabel s.labels) (leave (enter s.opened).1)
      modify fun s => { s with returnTargets := s.returnTargets.tail } : Lowering Unit)
      (enter s.opened).2 := by
  have start : lowerFrame multi enter body leave s = (do
      if !(← lowerStmt multi body) then jump (retLabel s.labels)
      startBlock (retLabel s.labels)
      emit (← leave (enter s.opened).1)
      closeBlock
      modify fun s => { s with returnTargets := s.returnTargets.tail } : Lowering Unit)
      (enter s.opened).2 := rfl
  rw [start, bind_apply, bind_apply]
  unfold bodyAndReturn
  rw [bind_apply]
  cases (lowerStmt multi body (enter s.opened).2).1 <;> rfl

/-- A way out of a function has a code and ends its last block. -/
def Leaves (leave : Lowering Instr) (code : Nat → List Instr) : Prop :=
  ∀ P n k, ∃ n', Exactly P ⟨n, k, true⟩ (do emit (← leave); closeBlock) () (plain (code n)) ⟨n', k, false⟩

/-- A body, and the way out behind it. -/
theorem meets_bodyAndReturn (L : Layout) (multi : Bool) (hbody : IsStmt body) (ret : String)
 {code : Nat → List Instr} (leaving : Leaves leave code) (n k : Nat) :
    Meets True True ⟨L, none, ret⟩ ⟨n, k, true⟩ (bodyAndReturn multi body ret leave)
      (StmtTyped L.toScope multi false body) fun strings _ ls c' => c'.isOpen = false ∧ ∃ ls' ends n' k',
        Lowers L strings ret none (.stmt body) n k ls' ends n' k' ∧
        ls = ls' ++ (rejoin ends ret ++ .label ret :: plain (code n')) := by
  refine (meets_lowerStmt (fun _ => .inr hbody) rfl n k).lined (fun _ => id) fun ends ls' n' k' =>
    .rejoin <| .andThen exactly_startBlock ?_
  obtain ⟨n'', out⟩ := leaving ⟨L, none, ret⟩ n' k'
  refine .last out fun given => ⟨given.2.1, fun strings lowers => ⟨rfl, ls', ends, n', k', lowers, ?_⟩⟩
  simp

/-! ## Around a function -/

/-- A state stands between functions, with some headers seen. -/
structure Outside (o : Outline) (seen : List Header) (s : State) : Prop where
  constants : ∀ x, s.constants.get? x = o.constants.reverse.lookup x
  globals : ∀ x, (s.globals.get? x).map (fun v => (v.type, v.address)) =
    (o.globals.lookup x).map fun type => (type, .global ("pasg_" ++ x))
  routines : ∀ f, (s.routines.get? f).map (fun r => ((⟨r.params, r.result⟩ : Signature), r.symbol)) =
    (seen.find? fun h => h.name == f).map fun h => (h.signature, "pas_" ++ f)
  proper : ∀ g ∈ o.globals, g.2.Proper
  loopExits : s.loopExits = []

section Ready

variable {o : Outline} {seen : List Header} {s s' : State} {slots : Vars}

theorem Outside.storage (outside : Outside o seen s) (shell : Shell s.opened s')
    (table : Slots slots s') (x : String) : (s'.storage? x).map (fun v => (v.type, v.address)) =
      ((o.scope seen slots).type? x).map fun type => (type, (layout o seen slots).address x) := by
  have globals := outside.globals x
  rw [← show s'.globals = s.globals from shell.globals] at globals
  unfold State.storage?
  rw [Option.map_or, table x, globals]
  simp only [Outline.scope, layout]
  cases found : slots.lookup x with
  | some type =>
    have member : x ∈ slots.map Prod.fst := by
      by_contra absent
      rw [lookup_eq_none_iff.mpr absent] at found
      cases found
    simp [member]
  | none =>
    have absent := lookup_eq_none_iff.mp found
    simp [absent]

theorem Outside.ready (outside : Outside o seen s) (shell : Shell s.opened s')
    (table : Slots slots s') (proper : ∀ v ∈ slots, v.2.Proper) (temps : s'.temps = slots.length)
    (opened : s'.current?.isSome = true) :
    Ready ⟨layout o seen slots, none, retLabel s.labels⟩ ⟨slots.length, s.labels + 1, true⟩ s' where
  constants x := by
    rw [show s'.constants = s.constants from shell.constants]
    exact outside.constants x
  storage := outside.storage shell table
  routines f := by
    rw [show s'.routines = s.routines from shell.routines, outside.routines f]
    simp [layout, Outline.scope, Function.comp_def]
  proper x type found := by
    rcases Option.or_eq_some_iff.mp found with inSlots | ⟨-, inGlobals⟩
    · exact proper _ (Table.mem_of_lookup inSlots)
    · exact outside.proper _ (Table.mem_of_lookup inGlobals)
  brk := by
    rw [show s'.loopExits = s.loopExits from shell.loopExits, outside.loopExits]
    rfl
  ret := by
    rw [show s'.returnTargets = _ from shell.returnTargets]
    rfl
  counters := by
    unfold State.counters
    rw [temps, opened, show s'.labels = s.labels + 1 from shell.labels]

end Ready

/-- What lowering a function leaves alone. -/
structure Outer (s s' : State) : Prop extends Grows s s' where
  constants : s'.constants = s.constants
  globals : ∀ x, (s'.globals.get? x).map Variable.bare = (s.globals.get? x).map Variable.bare
  routines : ∀ f, (s'.routines.get? f).map Routine.bare = (s.routines.get? f).map Routine.bare
  unique : s.routines.Unique → s'.routines.Unique
  scopes : s'.scopes = s.scopes
  loopExits : s'.loopExits = s.loopExits
  returnTargets : s'.returnTargets = s.returnTargets
  data : s'.data = s.data

section Frames

variable {α : Type} {multi : Bool} {enter : Lowering α} {body : Tree} {leave : α → Lowering Instr}
  {s : State} {slots : Vars} {code : List Instr}
  {leaveCode : Nat → List Instr} (entered : Enters [] slots code s.opened (enter s.opened).2) (hbody : IsStmt body)
  (leaving : Leaves (leave (enter s.opened).1) leaveCode)

include entered hbody leaving

theorem lowerFrame_outer : Outer s (lowerFrame multi enter body leave s).2 ∧
      (lowerFrame multi enter body leave s).2.funcs = s.funcs := by
  rw [lowerFrame_apply]
  have shell := entered.shell
  have frame := (meets_bodyAndReturn ⟨⟨fun _ => none, fun _ => none, fun _ => none, fun _ => False⟩,
    fun _ => .missing⟩ multi hbody (retLabel s.labels) leaving 0 0).keeps trivial (enter s.opened).2
  have grows : Grows s s.opened := .of_same rfl rfl rfl rfl
  refine ⟨?_, frame.funcs.trans shell.funcs⟩
  exact
    { toGrows := (grows.trans entered.grows).trans (frame.toGrows.trans (.of_same rfl rfl rfl rfl))
      constants := frame.constants.trans shell.constants
      globals := fun x => (frame.globals x).trans (by rw [shell.globals]; rfl)
      routines := fun f => (frame.routines f).trans (by rw [shell.routines]; rfl)
      unique := fun h => frame.unique (by rw [shell.routines]; exact h)
      scopes := frame.scopes.trans shell.scopes
      loopExits := frame.loopExits.trans shell.loopExits
      returnTargets := by
        change (bodyAndReturn _ _ _ _ _).2.returnTargets.tail = _
        rw [frame.returnTargets, shell.returnTargets]
        rfl
      data := frame.data.trans shell.data }

variable {o : Outline} {seen : List Header} (outside : Outside o seen s)
  (proper : ∀ v ∈ slots, v.2.Proper) (before : Slots [] s.opened)

include outside proper before

/-- A function that is lowered without complaint obeys the static rules. -/
theorem lowerFrame_typed (quiet : (lowerFrame multi enter body leave s).2.faults = s.faults)
    (called : ∀ f, (lowerFrame multi enter body leave s).2.Called f → o.Defined f) :
    (names slots).Nodup ∧ StmtTyped (o.scope seen slots) multi false body := by
  rw [lowerFrame_apply] at quiet called
  have meets := meets_bodyAndReturn (layout o seen slots) multi hbody (retLabel s.labels) leaving slots.length
    (s.labels + 1)
  obtain ⟨quiet₁, quiet₂⟩ := entered.grows.faults_eq (meets.keeps trivial (enter s.opened).2).toGrows quiet
  have ready := outside.ready entered.shell (entered.table before quiet₁) proper entered.temps entered.opened
  exact ⟨(entered.quiet before nodup_nil).mp quiet₁, meets.calm trivial trivial _ ready ⟨quiet₂, called⟩⟩

/-- A function that obeys the static rules is lowered to its code. -/
theorem lowerFrame_code (distinct : (names slots).Nodup) (typed : StmtTyped (o.scope seen slots) multi false body) :
    (lowerFrame multi enter body leave s).2.faults = s.faults ∧
    (∀ f, (lowerFrame multi enter body leave s).2.Called f → s.Called f ∨ o.Defined f) ∧
    (lowerFrame multi enter body leave s).2.current? = none ∧
    ∀ strings, (lowerFrame multi enter body leave s).2.strings <+: strings →
      BodyCode (layout o seen slots) strings slots.length code leaveCode body
        (lowerFrame multi enter body leave s).2.blocks := by
  rw [lowerFrame_apply]
  have quiet : (enter s.opened).2.faults = s.faults := (entered.quiet before nodup_nil).mpr distinct
  have ready := outside.ready entered.shell (entered.table before quiet) proper entered.temps entered.opened
  obtain ⟨ls, c', effect, post⟩ := (meets_bodyAndReturn (layout o seen slots) multi hbody _ leaving _ _).does trivial
    typed _ ready
  have closed : (bodyAndReturn multi body (retLabel s.labels) (leave (enter s.opened).1)
      (enter s.opened).2).2.current? = none := by
    have isOpen := (post _ prefix_rfl).1
    rw [← effect.counters] at isOpen
    simpa [State.counters] using isOpen
  refine ⟨effect.faults.trans quiet, ?_, closed, ?_⟩
  · intro f h
    have := effect.called f h
    unfold State.Called at this ⊢
    rw [entered.shell.routines] at this
    exact this
  · intro strings later
    obtain ⟨-, ls', ends, n', k', lowers, rfl⟩ := post strings later
    refine ⟨s.labels, ls', ends, n', k', lowers, ?_⟩
    have lines := effect.listing
    rw [entered.listing] at lines
    unfold State.listing at lines
    rw [closed] at lines
    simp only [Option.toList_none, append_nil] at lines
    refine lines.trans ?_
    simp [Code.framed, State.opened, listing, blockLines]

end Frames

/-! ## Bodies of routines -/

/-- The way out of a routine. -/
theorem leaves_leaveRoutine
    (hslot : slot = if h.result = .void then .missing else Code.slot h.name (Code.ownIndex h)) :
    Leaves (leaveRoutine slot) (Code.leave h) := by
  intro P n k
  subst hslot
  unfold Code.leave
  by_cases void : h.result = .void
  · rw [if_pos void, if_pos void]
    exact ⟨n, exactly_close _⟩
  · rw [if_neg void, if_neg void]
    exact ⟨n + 1, (exactly_load _).bind (fun v => (exactly_close (P := P) (n := n) (k := k) { op := .ret, args := [v] }).keeps)
      (exactly_close _)⟩

theorem remarkUnused_apply (unused : List String) (s : State) :
    ∃ remarks, remarkUnused unused s = ((), { s with remarks }) := by
  induction unused generalizing s with
  | nil => exact ⟨s.remarks, rfl⟩
  | cons name unused ih =>
    unfold remarkUnused
    rw [bind_apply, get_apply]
    cases s.locals.get? name with
    | none => exact ih s
    | some v => exact ih _

/-- The state in which a routine is entered. -/
def State.entering (s : State) : State :=
  { s with scopes := s.locals :: s.scopes, locals := {}, loopExits := [] }

/-- The function of a routine whose blocks are there. -/
def functionOf (r : Routine) (params : List Tree) (result : VarType) (blocks : List Ir.Block) : Ir.Func :=
  { name := r.symbol, params := params.map parameter
    result := if result = .void then .none else .word, blocks }

theorem lowerBody_apply {params locals : List Tree} {x : Unit × State}
    (run : lowerBody multi tok name r params result locals body s = x)
    (frame : s' = (lowerFrame multi (enterRoutine tok name params locals result) body leaveRoutine s.entering).2) :
    ∃ remarks, x = ((), { s' with
      remarks, locals := s'.scopes.headD {}, scopes := s'.scopes.tail, loopExits := s.loopExits
      blocks := [], funcs := s'.funcs ++ [functionOf r params result s'.blocks] }) := by
  obtain ⟨remarks, noted⟩ := remarkUnused_apply (s'.locals.namesWhere fun v => v.role = .localVar && !v.used) s'
  refine ⟨remarks, ?_⟩
  have start : lowerBody multi tok name r params result locals body s = (do
        remarkUnused (s'.locals.namesWhere fun v => v.role = .localVar && !v.used)
        modify fun t =>
          { t with locals := t.scopes.headD {}, scopes := t.scopes.tail, loopExits := s.loopExits }
        finishFunction
          { name := r.symbol, params := params.map parameter
            result := if result = .void then .none else .word } : Lowering Unit) s' := by
    subst frame
    rfl
  rw [← run, start, bind_apply, noted]
  rfl

end MiniPascal.Lower
